import Mathlib
import Tfs.Basic

/-! Keys of a connection (`net/key_exchange.cpp`, `utils/crypto.cpp`).

    Two nodes exchange public keys and salts, and each computes an AES key from its own private key,
    the other's public key and both salts. Messages are then encrypted with that key and carry a token
    made of the sender's public key.

    The primitives are OpenSSL's. Of them the code relies on what `Crypto` says: elliptic curve
    Diffie-Hellman commutes, and decryption undoes encryption. Randomness is an input, as are the bytes
    the local arrays hold before they are written. -/

namespace Tfs.Net

def CRYPTO_EC_PUB_KEY_LEN : ℕ := 65
def CRYPTO_EC_PRIV_KEY_LEN : ℕ := 32
def CRYPTO_SALT_LEN : ℕ := 32
def CRYPTO_AES_IV_LEN : ℕ := 12
def CRYPTO_AES_TAG_LEN : ℕ := 16
def CRYPTO_VERSION : ℤ := 1

/-- `CRYPTO_KEY_INFO`. -/
def CRYPTO_KEY_INFO : Str := str "ENCRYPTION"

/-- OpenSSL: the curve (`pubOf d` is the encoded point of the private key `d`, `ecdh` fails on a private
    key it does not take), HMAC-SHA-256 and AES-256-GCM. -/
structure Crypto where
  order : ℕ
  pubOf : ℕ → Str
  oct2point : Str → Bool
  ecdh : ℕ → Str → Option Str
  hmac : Str → Str → Str
  aesEncrypt : Str → Str → Str → Option (Str × Str)
  aesDecrypt : Str → Str → Str → Str → Option Str
  pubOf_length : ∀ d, (pubOf d).length = CRYPTO_EC_PUB_KEY_LEN
  oct2point_pubOf : ∀ d, 0 < d → d < order → oct2point (pubOf d) = true
  ecdh_comm : ∀ d e, 0 < d → d < order → 0 < e → e < order → ecdh d (pubOf e) = ecdh e (pubOf d)
  aesEncrypt_length : ∀ {key iv plaintext ciphertext tag},
    aesEncrypt key iv plaintext = some (ciphertext, tag) →
      ciphertext.length = plaintext.length ∧ tag.length = CRYPTO_AES_TAG_LEN
  aesDecrypt_aesEncrypt : ∀ {key iv plaintext ciphertext tag},
    aesEncrypt key iv plaintext = some (ciphertext, tag) →
      aesDecrypt key iv tag ciphertext = some plaintext

variable (c : Crypto)

/-! ### Keys -/

/-- `BN_bn2bin`: big-endian, without leading zeros. -/
def bn2bin (d : ℕ) : Str := ((Nat.digits 256 d).map UInt8.ofNat).reverse

/-- `BN_bin2bn`. -/
def bin2bn (bytes : Str) : ℕ := Nat.ofDigits 256 (bytes.reverse.map UInt8.toNat)

theorem bin2bn_bn2bin (d : ℕ) : bin2bn (bn2bin d) = d := by
  have hdigits : ((Nat.digits 256 d).map UInt8.ofNat).map UInt8.toNat = Nat.digits 256 d := by
    rw [List.map_map]
    conv_rhs => rw [← List.map_id (Nat.digits 256 d)]
    refine List.map_congr_left fun digit hdigit => ?_
    have := Nat.digits_lt_base (by decide) hdigit
    simp only [Function.comp_apply, UInt8.toNat_ofNat', id_eq]
    omega
  rw [bin2bn, bn2bin, List.reverse_reverse, hdigits, Nat.ofDigits_digits]

/-- `ownkey_s`. -/
structure OwnKey where
  ec_pub_key : Str
  ec_priv_key : Str
  salt : Str
  deriving DecidableEq, Repr

/-- `peerkey_s`. -/
structure PeerKey where
  ec_pub_key : Str
  aes_key : Str
  salt : Str
  deriving DecidableEq, Repr

/-- `EcdhKey`. -/
structure EcdhKey where
  own_key : OwnKey
  peer_key : PeerKey
  deriving DecidableEq, Repr

/-- `crypto::generate_ecdh_keys`: what it returns, and the two arrays afterwards. `gen` is the private
    key `EC_KEY_generate_key` chose; a private key shorter than the array leaves its end as it was. -/
def generateEcdhKeys (gen : Option ℕ) (pub priv : Str) : Bool × Str × Str :=
  match gen with
  | none => (false, pub, priv)
  | some d =>
    let bin := bn2bin d
    (bin.length == CRYPTO_EC_PRIV_KEY_LEN, c.pubOf d, bin ++ priv.drop bin.length)

/-- `crypto::calc_ecdh_shared_key`: what it returns, and the array of the shared key afterwards. A public
    key that is no point leaves `ret` at zero, which is success. -/
def calcEcdhSharedKey (pub1 priv1 pub2 shared : Str) : Bool × Str :=
  if ! c.oct2point pub1 then (true, shared)
  else if ! c.oct2point pub2 then (true, shared)
  else match c.ecdh (bin2bn priv1) pub2 with
    | none => (false, shared)
    | some shared => (true, shared)

/-- `crypto::bytes_xor` of arrays of one length. -/
def bytesXor (data1 data2 : Str) : Str := List.zipWith (· ^^^ ·) data1 data2

/-- `crypto::generate_hkdf_bytes`: one round gives the whole key. -/
def generateHkdfBytes (shared salt info : Str) : Str := c.hmac (c.hmac salt shared) (info ++ [1])

/-- `KeyExchangeManager::key_calculate`; `shared` is what the local array holds before. -/
def keyCalculate (ownkey : OwnKey) (peerkey : PeerKey) (shared : Str) : Option PeerKey :=
  let saltXor := bytesXor ownkey.salt peerkey.salt
  let shared := calcEcdhSharedKey c ownkey.ec_pub_key ownkey.ec_priv_key peerkey.ec_pub_key shared
  if ! shared.1 then none
  else some { peerkey with aes_key := generateHkdfBytes c shared.2 saltXor CRYPTO_KEY_INFO }

/-! ### The exchange -/

/-- `KeyInfo`. -/
structure KeyInfo where
  salt_32bytes : Str
  ec_public_key_65bytes : Str
  deriving DecidableEq, Repr

/-- What one side brings to an exchange: the private key the generator chooses and the salt, whether the
    salt could be drawn, and what its local arrays hold before. -/
structure Party where
  gen : Option ℕ
  pub : Str
  priv : Str
  saltDrawn : Bool
  salt : Str
  shared : Str
  gen_valid : ∀ d ∈ gen, 0 < d ∧ d < c.order
  pub_length : pub.length = CRYPTO_EC_PUB_KEY_LEN
  priv_length : priv.length = CRYPTO_EC_PRIV_KEY_LEN
  salt_length : salt.length = CRYPTO_SALT_LEN

variable {c}

/-- The own key of a side after `generate_ecdh_keys` and `rand_salt`. -/
def Party.ownKey (p : Party c) : OwnKey :=
  let keys := generateEcdhKeys c p.gen p.pub p.priv
  { ec_pub_key := keys.2.1, ec_priv_key := keys.2.2, salt := p.salt }

/-- Whether `generate_ecdh_keys` returns `true`. -/
def Party.generated (p : Party c) : Bool := (generateEcdhKeys c p.gen p.pub p.priv).1

/-- `SendKeyExchangeReq` up to the request. -/
def Party.request (p : Party c) : Except ℤ KeyInfo :=
  if ! p.generated then .error (-2)
  else if ! p.saltDrawn then .error (-3)
  else .ok ⟨p.ownKey.salt, p.ownKey.ec_pub_key⟩

/-- `HandleKeyExchangeReq`: the key it adds, and the response. -/
def Party.handleKeyExchangeReq (p : Party c) (info : KeyInfo) : Except ℤ (EcdhKey × KeyInfo) :=
  if info.ec_public_key_65bytes.length ≠ CRYPTO_EC_PUB_KEY_LEN
      ∨ info.salt_32bytes.length ≠ CRYPTO_SALT_LEN then .error (-1)
  else
    let peer : PeerKey := { ec_pub_key := info.ec_public_key_65bytes, aes_key := [], salt := info.salt_32bytes }
    match keyCalculate c p.ownKey peer p.shared with
    | none => .error (-2)
    | some peer => .ok (⟨p.ownKey, peer⟩, ⟨p.ownKey.salt, p.ownKey.ec_pub_key⟩)

/-- `SendKeyExchangeReq` from the response on: the key it adds. -/
def Party.handleResponse (p : Party c) (info : KeyInfo) : Except ℤ EcdhKey :=
  if info.salt_32bytes.length ≠ 32 ∨ info.ec_public_key_65bytes.length ≠ 65 then .error (-9)
  else
    let peer : PeerKey := { ec_pub_key := info.ec_public_key_65bytes, aes_key := [], salt := info.salt_32bytes }
    match keyCalculate c p.ownKey peer p.shared with
    | none => .error (-10)
    | some peer => .ok ⟨p.ownKey, peer⟩

/-- An exchange that succeeds on both sides: the keys of the side that asked and of the side that
    answered. -/
def exchange (asking answering : Party c) : Except ℤ (EcdhKey × EcdhKey) := do
  let request ← asking.request
  let (keyAnswering, response) ← answering.handleKeyExchangeReq request
  let keyAsking ← asking.handleResponse response
  .ok (keyAsking, keyAnswering)

/-! ### Both sides compute the same key -/

theorem bytesXor_comm (data1 data2 : Str) : bytesXor data1 data2 = bytesXor data2 data1 :=
  List.zipWith_comm_of_comm fun a b => UInt8.xor_comm a b

/-- Where the generator succeeds, the arrays hold a key pair. -/
theorem Party.ownKey_of_generated {p : Party c} (h : p.generated = true) : ∃ d, 0 < d ∧ d < c.order ∧
    p.ownKey.ec_pub_key = c.pubOf d ∧ bin2bn p.ownKey.ec_priv_key = d := by
  cases hgen : p.gen with
  | none => simp [generated, generateEcdhKeys, hgen] at h
  | some d =>
    have hlen : (bn2bin d).length = CRYPTO_EC_PRIV_KEY_LEN := by
      simpa [generated, generateEcdhKeys, hgen] using h
    have hpriv : p.ownKey.ec_priv_key = bn2bin d := by
      simp [ownKey, generateEcdhKeys, hgen, hlen, ← p.priv_length]
    obtain ⟨hpos, hlt⟩ := p.gen_valid d (by simp [hgen])
    refine ⟨d, hpos, hlt, ?_, ?_⟩
    · simp [ownKey, generateEcdhKeys, hgen]
    · rw [hpriv, bin2bn_bn2bin]

/-- What an exchange that succeeded has computed. -/
theorem exchange_eq_ok {asking answering : Party c} {keyAsking keyAnswering : EcdhKey}
    (h : exchange asking answering = .ok (keyAsking, keyAnswering)) :
    asking.generated = true ∧
      (∃ peer, keyCalculate c answering.ownKey ⟨asking.ownKey.ec_pub_key, [], asking.ownKey.salt⟩
        answering.shared = some peer ∧ keyAnswering = ⟨answering.ownKey, peer⟩) ∧
      (∃ peer, keyCalculate c asking.ownKey ⟨answering.ownKey.ec_pub_key, [], answering.ownKey.salt⟩
        asking.shared = some peer ∧ keyAsking = ⟨asking.ownKey, peer⟩) := by
  obtain ⟨request, hrequest, h⟩ := bind_eq_ok.mp h
  obtain ⟨⟨key, response⟩, hhandle, h⟩ := bind_eq_ok.mp h
  obtain ⟨key', hresponse, h⟩ := bind_eq_ok.mp h
  cases h
  rw [Party.request] at hrequest
  split at hrequest
  · cases hrequest
  rename_i hgen
  split at hrequest
  · cases hrequest
  cases hrequest
  rw [Party.handleKeyExchangeReq] at hhandle
  split at hhandle
  · cases hhandle
  simp only at hhandle
  split at hhandle
  · cases hhandle
  rename_i peer hpeer
  cases hhandle
  rw [Party.handleResponse] at hresponse
  split at hresponse
  · cases hresponse
  simp only at hresponse
  split at hresponse
  · cases hresponse
  rename_i peer' hpeer'
  cases hresponse
  exact ⟨by simpa using hgen, ⟨peer, hpeer, rfl⟩, ⟨peer', hpeer', rfl⟩⟩

/-- `key_calculate` on two key pairs. -/
theorem keyCalculate_of_points {ownkey : OwnKey} {peerkey peerkey' : PeerKey} {shared : Str}
    (hown : c.oct2point ownkey.ec_pub_key = true) (hpeer : c.oct2point peerkey.ec_pub_key = true)
    (h : keyCalculate c ownkey peerkey shared = some peerkey') :
    ∃ secret, c.ecdh (bin2bn ownkey.ec_priv_key) peerkey.ec_pub_key = some secret ∧
      peerkey' = { peerkey with
        aes_key := generateHkdfBytes c secret (bytesXor ownkey.salt peerkey.salt) CRYPTO_KEY_INFO } := by
  rw [keyCalculate, calcEcdhSharedKey] at h
  simp only [hown, hpeer, Bool.not_true, Bool.false_eq_true, if_false] at h
  cases hecdh : c.ecdh (bin2bn ownkey.ec_priv_key) peerkey.ec_pub_key with
  | none => simp [hecdh] at h
  | some secret =>
    simp only [hecdh, Bool.not_true, Bool.false_eq_true, if_false, Option.some.injEq] at h
    exact ⟨secret, rfl, h.symm⟩

/-- Two keys of one connection: each side knows the other's public key, and the AES keys are the same. -/
structure KeysAgree (k k' : EcdhKey) : Prop where
  aes_key_eq : k.peer_key.aes_key = k'.peer_key.aes_key
  ec_pub_key_eq : k.own_key.ec_pub_key = k'.peer_key.ec_pub_key
  ec_pub_key_eq' : k'.own_key.ec_pub_key = k.peer_key.ec_pub_key

theorem KeysAgree.symm {k k' : EcdhKey} (h : KeysAgree k k') : KeysAgree k' k :=
  ⟨h.aes_key_eq.symm, h.ec_pub_key_eq', h.ec_pub_key_eq⟩

/-- After an exchange in which the side that answers got a key pair, both sides hold the same key. -/
theorem exchange_keysAgree {asking answering : Party c} {keyAsking keyAnswering : EcdhKey}
    (h : exchange asking answering = .ok (keyAsking, keyAnswering))
    (hgen : answering.generated = true) : KeysAgree keyAsking keyAnswering := by
  obtain ⟨hasked, ⟨peer, hpeer, rfl⟩, ⟨peer', hpeer', rfl⟩⟩ := exchange_eq_ok h
  obtain ⟨d, hd, hd', hpub, hpriv⟩ := Party.ownKey_of_generated hasked
  obtain ⟨e, he, he', hpub', hpriv'⟩ := Party.ownKey_of_generated hgen
  have hpoint : c.oct2point asking.ownKey.ec_pub_key = true := by
    rw [hpub]
    exact c.oct2point_pubOf d hd hd'
  have hpoint' : c.oct2point answering.ownKey.ec_pub_key = true := by
    rw [hpub']
    exact c.oct2point_pubOf e he he'
  obtain ⟨secret, hsecret, rfl⟩ := keyCalculate_of_points hpoint' hpoint hpeer
  obtain ⟨secret', hsecret', rfl⟩ := keyCalculate_of_points hpoint hpoint' hpeer'
  have hsame : secret' = secret := by
    rw [hpriv, hpub', c.ecdh_comm d e hd hd' he he'] at hsecret'
    rw [hpriv', hpub] at hsecret
    exact Option.some.inj (hsecret'.symm.trans hsecret)
  refine ⟨?_, rfl, rfl⟩
  simp only [hsame, bytesXor_comm asking.ownKey.salt]

/-! ### A sample -/

/-- The lowest bytes of a number. -/
def sampleBytes (len n : ℕ) : Str := (List.range len).map fun i => UInt8.ofNat (n / 256 ^ i)

/-- The number of such bytes. -/
def sampleNumber (bytes : Str) : ℕ := Nat.ofDigits 256 (bytes.map UInt8.toNat)

theorem sampleNumber_bytes : ∀ len n : ℕ, sampleNumber (sampleBytes len n) = n % 256 ^ len
  | 0, n => by simp [sampleNumber, sampleBytes, Nat.mod_one]
  | len + 1, n => by
    have hrec := sampleNumber_bytes len (n / 256)
    have hcons : sampleBytes (len + 1) n = UInt8.ofNat n :: sampleBytes len (n / 256) := by
      simp only [sampleBytes, List.range_succ_eq_map, List.map_cons, List.map_map, pow_zero, Nat.div_one]
      congr 2
      funext i
      simp [pow_succ', Nat.div_div_eq_div_mul]
    have hmod : n % 256 ^ (len + 1) = n % 256 + 256 * (n / 256 % 256 ^ len) := by
      rw [pow_succ', Nat.mod_mul]
    rw [hcons, hmod, ← hrec]
    simp [sampleNumber, Nat.ofDigits_cons]

/-- Diffie-Hellman in the numbers modulo `2 ^ 256`, a hash that forgets nothing, and a cipher that hides
    nothing. -/
def sampleCrypto : Crypto where
  order := 2 ^ 256
  pubOf d := sampleBytes 65 d
  oct2point _ := true
  ecdh d pub := some (sampleBytes 32 (d * sampleNumber pub))
  hmac key data := key ++ data
  aesEncrypt _ _ plaintext := some (plaintext, List.replicate 16 0)
  aesDecrypt _ _ _ ciphertext := some ciphertext
  pubOf_length d := by simp [sampleBytes, CRYPTO_EC_PUB_KEY_LEN]
  oct2point_pubOf _ _ _ := rfl
  ecdh_comm d e _ hd _ he := by
    have hlt : 2 ^ 256 < 256 ^ 65 := by decide
    rw [sampleNumber_bytes, sampleNumber_bytes, Nat.mod_eq_of_lt (he.trans hlt),
      Nat.mod_eq_of_lt (hd.trans hlt), Nat.mul_comm]
  aesEncrypt_length h := by
    cases h
    exact ⟨rfl, rfl⟩
  aesDecrypt_aesEncrypt h := by
    cases h
    rfl

/-- A side that draws the private key `d`; its arrays hold zeros before. -/
def sampleParty (d : ℕ) (h : 0 < d ∧ d < 2 ^ 256) : Party sampleCrypto where
  gen := some d
  pub := List.replicate 65 0
  priv := List.replicate 32 0
  saltDrawn := true
  salt := List.replicate 32 7
  shared := []
  gen_valid e he := by
    cases he
    exact h
  pub_length := by simp [CRYPTO_EC_PUB_KEY_LEN]
  priv_length := by simp [CRYPTO_EC_PRIV_KEY_LEN]
  salt_length := by simp [CRYPTO_SALT_LEN]

/-- The side that answers draws a private key of one byte, `generate_ecdh_keys` fails, and both sides
    succeed with different keys. -/
theorem exchange_keys_differ : ¬ ∀ (c : Crypto) (asking answering : Party c)
    (keyAsking keyAnswering : EcdhKey), exchange asking answering = .ok (keyAsking, keyAnswering) →
      keyAsking.peer_key.aes_key = keyAnswering.peer_key.aes_key := by
  intro h
  have hrun : (exchange (sampleParty (2 ^ 255) (by decide)) (sampleParty 1 (by decide))).toOption.map
      (fun keys => keys.1.peer_key.aes_key == keys.2.peer_key.aes_key) = some false := by
    decide +kernel
  obtain ⟨⟨keyAsking, keyAnswering⟩, hok, hne⟩ := ok_of_eval hrun
  simp only [beq_eq_false_iff_ne] at hne
  exact hne (h _ _ _ _ _ hok)

end Tfs.Net
