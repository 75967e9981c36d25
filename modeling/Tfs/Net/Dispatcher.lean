import Mathlib
import Tfs.Basic
import Tfs.Net.SocketBuf
import Tfs.Net.Compress
import Tfs.Net.KeyExchange

/-! A message from its sender to the task that handles it (`Pack::InitCommonMsg` in `net/pack.h`, the
    encryption of `net/key_exchange.cpp`, and `ProtobufDispatcher::Handle` in `net/dispatcher.cpp`).

    The sender serialises a message, encrypts it when it has a key for the connection, compresses it
    when it is asked to and the stream is not longer, and puts it into a `CommonMsg`. The receiver takes
    these steps back and commits the message to the pool its type is registered with. Messages of a
    key exchange are never decrypted.

    The serialisation is protobuf's; the code relies on what `Protobuf` says. -/

namespace Tfs.Net

/-- `Token`. -/
structure Token where
  salt_3bytes : Str := []
  hmac_3bytes : Str := []
  deriving DecidableEq, Repr

/-- `Ciphertext`. -/
structure Ciphertext where
  cipher_version : ℤ := 0
  aes_iv_12bytes : Str := []
  ciphertext_nbytes : Str := []
  aes_tag_16bytes : Str := []
  token : Token := {}
  deriving DecidableEq, Repr

/-- `CommonMsg`, the fields that are used. -/
structure CommonMsg where
  version : Str
  type : Str
  encrypt : ℤ
  compress : ℤ
  data : Str
  deriving DecidableEq, Repr

/-- The types whose messages are not decrypted. -/
def isKeyExchange (type : Str) : Bool :=
  type == str "KeyExchangeRequest" || type == str "KeyExchangeResponse"

/-- protobuf and the message types of the program. No field is required, so nothing at all is a
    message; a zero is no tag, so zeros are none. -/
structure Protobuf where
  serializeCommonMsg : CommonMsg → Str
  parseCommonMsg : Str → Option CommonMsg
  serializeCiphertext : Ciphertext → Str
  parseCiphertext : Str → Option Ciphertext
  findMessageTypeByName : Str → Bool
  getPrototype : Str → Bool
  parseFromString : Str → Str → Bool
  parse_serializeCommonMsg : ∀ msg, parseCommonMsg (serializeCommonMsg msg) = some msg
  parse_serializeCiphertext : ∀ ct, parseCiphertext (serializeCiphertext ct) = some ct
  serializeCiphertext_length : ∀ ct, ct.aes_iv_12bytes ≠ [] →
    ct.ciphertext_nbytes.length < (serializeCiphertext ct).length
  parseCiphertext_nil : parseCiphertext [] = some {}
  parseCiphertext_zeros : ∀ n, parseCiphertext (List.replicate (n + 1) 0) = none
  findMessageTypeByName_keyExchange : ∀ type, isKeyExchange type = true →
    findMessageTypeByName type = true ∧ getPrototype type = true
  parseFromString_nil : ∀ type, findMessageTypeByName type = true → parseFromString type [] = true
  parseFromString_zeros : ∀ type n, parseFromString type (List.replicate (n + 1) 0) = false

/-- A message of the program: its type and what it is serialised to. -/
structure SubMsg (pb : Protobuf) where
  type : Str
  bytes : Str
  type_ne_nil : type ≠ []
  known : pb.findMessageTypeByName type = true ∧ pb.getPrototype type = true
  parses : pb.parseFromString type bytes = true

/-- The pools of tasks, in the order in which `Handle` looks for a callback. -/
inductive Pool where
  | block | saveBlock | broadcast | ca | net | tx | syncBlock
  deriving DecidableEq, Repr

/-- The libraries, the version of the program, and the callbacks registered (`net/interface.h` registers
    those of the key exchange). -/
structure Program where
  z : Zlib
  pb : Protobuf
  c : Crypto
  kNetVersion : Str
  callbacks : Pool → Str → Bool
  keyExchange_registered : ∀ type, isKeyExchange type = true → callbacks .net type = true

variable (pg : Program)

/-! ### The sender -/

/-- `encrypt_plaintext`; `iv` is what `rand_salt` draws, `none` when it fails. -/
def encryptPlaintext (c : Crypto) (peerkey : PeerKey) (plaintext : Str) (iv : Option Str) :
    Option Ciphertext := do
  let iv ← iv
  let (ciphertext, tag) ← c.aesEncrypt peerkey.aes_key iv plaintext
  some { cipher_version := CRYPTO_VERSION, aes_iv_12bytes := iv, ciphertext_nbytes := ciphertext
         aes_tag_16bytes := tag }

/-- `generate_token`; `salt` is what `rand_salt` draws. -/
def generateToken (c : Crypto) (ecdhPubKey : Str) (salt : Option Str) : Option Token := do
  let salt ← salt
  some { salt_3bytes := salt, hmac_3bytes := (c.hmac salt ecdhPubKey).take 3 }

/-- The end of both `InitCommonMsg`: the bytes, compressed when that is asked for and not longer. -/
def compressInto (mem : Bool) (type : Str) (encrypt compress : ℤ) (bytes : Str) : CommonMsg :=
  let plain : CommonMsg :=
    { version := pg.kNetVersion, type := type, encrypt := encrypt, compress := 0, data := bytes }
  if compress ≠ 0 then
    let compressData := compressFunc pg.z mem bytes
    if compressData.length > bytes.length then plain
    else { plain with compress := compress, data := compressData }
  else plain

variable {pg}

/-- `Pack::InitCommonMsg` without a key. -/
def initCommonMsg (mem : Bool) (submsg : SubMsg pg.pb) (encrypt compress : ℤ) : CommonMsg :=
  compressInto pg mem submsg.type encrypt compress submsg.bytes

/-- The encrypted message of `Pack::InitCommonMsg` with a key. -/
def encryptSubMsg (submsg : SubMsg pg.pb) (key : EcdhKey) (iv tokenSalt : Option Str) : Option Str := do
  let ciphertext ← encryptPlaintext pg.c key.peer_key submsg.bytes iv
  let token ← generateToken pg.c key.own_key.ec_pub_key tokenSalt
  some (pg.pb.serializeCiphertext { ciphertext with token := token })

/-- `Pack::InitCommonMsg` with a key: `none` where it returns `false`. -/
def initCommonMsgWithKey (mem : Bool) (submsg : SubMsg pg.pb) (key : EcdhKey) (iv tokenSalt : Option Str)
    (encrypt compress : ℤ) : Option CommonMsg :=
  (encryptSubMsg submsg key iv tokenSalt).map (compressInto pg mem submsg.type encrypt compress)

/-! ### The receiver -/

variable (pg)

/-- The receiving node: the keys of its connections, and whether its calls of `uncompress` find the
    memory they need. -/
structure Receiver where
  keys : ℤ → Option EcdhKey
  mem : ℕ → Bool

/-- A task committed to a pool. -/
structure Task where
  pool : Pool
  type : Str
  plaintext : Str
  deriving DecidableEq, Repr

/-- `verify_token`. -/
def verifyToken (c : Crypto) (ecdhPubKey : Str) (token : Token) : Bool :=
  token.hmac_3bytes.take 3 == (c.hmac token.salt_3bytes ecdhPubKey).take 3

/-- The bytes `Handle` takes a message from: decompressed where the sender compressed, and `none` where
    that throws. -/
def subSerializeMsg (r : Receiver) (msg : CommonMsg) : Option Str :=
  if msg.compress ≠ 0 then uncompressFunc pg.z r.mem msg.data (msg.data.length * 10) else some msg.data

/-- The part of `Handle` that decrypts. -/
def strPlaintext (r : Receiver) (fd : ℤ) (type sub : Str) : Except ℤ Str :=
  if ! isKeyExchange type then
    match pg.pb.parseCiphertext sub with
    | none => .error (-6)
    | some ciphertext =>
      if ciphertext.aes_iv_12bytes.length ≠ CRYPTO_AES_IV_LEN
          ∨ ciphertext.aes_tag_16bytes.length ≠ CRYPTO_AES_TAG_LEN then .error (-7)
      else match r.keys fd with
        | none => .error (-8)
        | some key =>
          if ! verifyToken pg.c key.peer_key.ec_pub_key ciphertext.token then .error (-9)
          else match pg.c.aesDecrypt key.peer_key.aes_key ciphertext.aes_iv_12bytes
              ciphertext.aes_tag_16bytes ciphertext.ciphertext_nbytes with
            | none => .error (-10)
            | some plaintext => .ok plaintext
  else .ok sub

/-- The end of `Handle`: the task is committed to the pool of its type. A block to be saved is committed
    and looked for in the other pools as well. -/
def commitTask (type plaintext : Str) : ℤ × List Task :=
  if pg.callbacks .block type then (0, [⟨.block, type, plaintext⟩])
  else
    let saved := if pg.callbacks .saveBlock type then [⟨.saveBlock, type, plaintext⟩] else []
    match [Pool.broadcast, .ca, .net, .tx, .syncBlock].find? fun pool => pg.callbacks pool type with
    | some pool => (0, saved ++ [⟨pool, type, plaintext⟩])
    | none => (-12, saved)

/-- `Handle` behind the decompression. -/
def handleSub (r : Receiver) (fd : ℤ) (type sub : Str) : ℤ × List Task :=
  match strPlaintext pg r fd type sub with
  | .error code => (code, [])
  | .ok plaintext =>
    if ! pg.pb.parseFromString type plaintext then (-11, [])
    else commitTask pg type plaintext

/-- `ProtobufDispatcher::Handle`: what it returns and the tasks it commits; `none` where an exception
    leaves it, which ends the node. -/
def handle (r : Receiver) (data : MsgData) : Option (ℤ × List Task) :=
  match pg.pb.parseCommonMsg data.pack.data with
  | none => some (-1, [])
  | some msg =>
    if msg.version ≠ pg.kNetVersion then some (-2, [])
    else if msg.type.length = 0 then some (-3, [])
    else if ! pg.pb.findMessageTypeByName msg.type then some (-4, [])
    else if ! pg.pb.getPrototype msg.type then some (-5, [])
    else (subSerializeMsg pg r msg).map (handleSub pg r data.fd msg.type)

/-! ### Messages that were damaged on the way -/

variable {pg}

/-- A message of a known type reaches the decryption. -/
theorem handle_eq (submsg : SubMsg pg.pb) (r : Receiver) {data : MsgData} {msg : CommonMsg}
    (hdata : data.pack.data = pg.pb.serializeCommonMsg msg) (hversion : msg.version = pg.kNetVersion)
    (htype : msg.type = submsg.type) :
    handle pg r data = (subSerializeMsg pg r msg).map (handleSub pg r data.fd submsg.type) := by
  simp [handle, hdata, pg.pb.parse_serializeCommonMsg, hversion, htype, submsg.type_ne_nil, submsg.known]

/-- Zeros are refused. -/
theorem handleSub_zeros (r : Receiver) (fd : ℤ) (type : Str) (n : ℕ) :
    (handleSub pg r fd type (List.replicate (n + 1) 0)).1 < 0 ∧
      (handleSub pg r fd type (List.replicate (n + 1) 0)).2 = [] := by
  cases hkx : isKeyExchange type with
  | false => simp [handleSub, strPlaintext, hkx, pg.pb.parseCiphertext_zeros]
  | true => simp [handleSub, strPlaintext, hkx, pg.pb.parseFromString_zeros]

/-- Nothing is refused where a ciphertext is expected. -/
theorem handleSub_nil (r : Receiver) (fd : ℤ) {type : Str} (h : isKeyExchange type = false) :
    handleSub pg r fd type [] = (-7, []) := by
  simp [handleSub, strPlaintext, h, pg.pb.parseCiphertext_nil, CRYPTO_AES_IV_LEN]

/-- Where no ciphertext is expected, nothing is taken for a message. -/
theorem handleSub_nil_keyExchange (r : Receiver) (fd : ℤ) {type : Str} (h : isKeyExchange type = true) :
    handleSub pg r fd type [] = commitTask pg type [] := by
  simp [handleSub, strPlaintext, h,
    pg.pb.parseFromString_nil type (pg.pb.findMessageTypeByName_keyExchange type h).1]

/-- A message of a key exchange that gets so far is committed. -/
theorem commitTask_keyExchange {type : Str} (plaintext : Str) (h : isKeyExchange type = true) :
    (commitTask pg type plaintext).1 = 0 ∧
      ∃ task ∈ (commitTask pg type plaintext).2, task.plaintext = plaintext := by
  have hnet := pg.keyExchange_registered type h
  rw [commitTask]
  split
  · simp
  · have hsome : ([Pool.broadcast, .ca, .net, .tx, .syncBlock].find?
        fun pool => pg.callbacks pool type).isSome = true := by
      simp [hnet]
    obtain ⟨pool, hpool⟩ := Option.isSome_iff_exists.mp hsome
    simp [hpool]

theorem plaintext_of_mem_commitTask {type plaintext : Str} {task : Task}
    (h : task ∈ (commitTask pg type plaintext).2) : task.plaintext = plaintext := by
  have hsaved : ∀ {t : Task}, t ∈ (if pg.callbacks .saveBlock type then
      [(⟨.saveBlock, type, plaintext⟩ : Task)] else []) → t.plaintext = plaintext := by
    intro t ht
    split at ht
    · rw [List.mem_singleton.mp ht]
    · cases ht
  rw [commitTask] at h
  split at h
  · rw [List.mem_singleton.mp h]
  · simp only at h
    split at h
    · rcases List.mem_append.mp h with h | h
      · exact hsaved h
      · rw [List.mem_singleton.mp h]
    · exact hsaved h

variable (pg)

@[simp] theorem compressInto_version (mem : Bool) (type : Str) (encrypt compress : ℤ) (bytes : Str) :
    (compressInto pg mem type encrypt compress bytes).version = pg.kNetVersion := by
  simp only [compressInto]
  split
  · split <;> rfl
  · rfl

@[simp] theorem compressInto_type (mem : Bool) (type : Str) (encrypt compress : ℤ) (bytes : Str) :
    (compressInto pg mem type encrypt compress bytes).type = type := by
  simp only [compressInto]
  split
  · split <;> rfl
  · rfl

/-- The receiver gets the bytes themselves, or what is left of them behind zlib. -/
theorem subSerializeMsg_compressInto (r : Receiver) (mem : Bool) (type : Str) (encrypt compress : ℤ)
    (bytes : Str) : subSerializeMsg pg r (compressInto pg mem type encrypt compress bytes) =
      if (compressInto pg mem type encrypt compress bytes).compress ≠ 0
      then throughZlib pg.z mem r.mem bytes else some bytes := by
  simp only [subSerializeMsg, compressInto]
  split
  · split
    · simp
    · simp [throughZlib]
  · simp

variable {pg}

/-! ### Compression -/

/-- Compression is chosen for a message that is not empty, as no stream is. -/
theorem bytes_ne_nil_of_chosen {type bytes : Str} {encrypt compress : ℤ}
    (h : (compressInto pg true type encrypt compress bytes).compress ≠ 0) : bytes ≠ [] := by
  rintro rfl
  refine h ?_
  have hstream := List.length_pos_of_ne_nil (pg.z.deflate_ne_nil [])
  simp [compressInto, compressFunc_of_mem, hstream]

/-- A message for which `InitCommonMsg` chose compression comes back as it was, or `Handle` reports an
    error and commits nothing, except when zlib ran out of memory at the sender, which ends the receiver, or
    when it did at the receiver and the message belongs to a key exchange. -/
theorem initCommonMsg_roundtrip_iff (submsg : SubMsg pg.pb) (mem : Bool) (encrypt compress : ℤ)
    (hchosen : (initCommonMsg mem submsg encrypt compress).compress ≠ 0) (r : Receiver) (data : MsgData)
    (hdata : data.pack.data = pg.pb.serializeCommonMsg (initCommonMsg mem submsg encrypt compress)) :
    (subSerializeMsg pg r (initCommonMsg mem submsg encrypt compress) = some submsg.bytes ∨
      ∃ ret, handle pg r data = some ret ∧ ret.1 < 0 ∧ ret.2 = []) ↔
    mem = true ∧ ¬ (isKeyExchange submsg.type = true ∧ OutOfMemory pg.z r.mem submsg.bytes) := by
  have hsub : subSerializeMsg pg r (initCommonMsg mem submsg encrypt compress)
      = throughZlib pg.z mem r.mem submsg.bytes := by
    rw [initCommonMsg, subSerializeMsg_compressInto]
    exact if_pos hchosen
  have hhandle := handle_eq submsg r hdata (compressInto_version ..) (compressInto_type ..)
  rw [hhandle, hsub]
  rcases throughZlib_cases pg.z mem r.mem submsg.bytes with
    ⟨rfl, h⟩ | ⟨rfl, hmem, h⟩ | ⟨hgood, h⟩ | ⟨rfl, hmem, -, n, h⟩
  · rw [h]
    exact iff_of_false (by simp) (by simp)
  · rw [h]
    have hne := bytes_ne_nil_of_chosen hchosen
    cases hkx : isKeyExchange submsg.type with
    | false => simp [handleSub_nil r data.fd hkx]
    | true =>
      have hzero := (@commitTask_keyExchange pg submsg.type [] hkx).1
      simp [handleSub_nil_keyExchange r data.fd hkx, hzero, hmem, hne.symm]
  · exact iff_of_true (.inl h) ⟨hgood.1, fun hbad => hgood.2.1 hbad.2⟩
  · rw [h]
    refine iff_of_true (.inr ⟨_, rfl, handleSub_zeros r data.fd submsg.type n⟩) ⟨rfl, fun hbad => hmem hbad.2⟩

/-! ### Encryption -/

/-- The encrypted message: a ciphertext with its initialisation vector, its tag and a token. -/
theorem encryptSubMsg_eq_some {key : EcdhKey} {submsg : SubMsg pg.pb} {iv tokenSalt : Option Str}
    {sub : Str} (h : encryptSubMsg submsg key iv tokenSalt = some sub) :
    ∃ v salt text tag, iv = some v ∧
      pg.c.aesEncrypt key.peer_key.aes_key v submsg.bytes = some (text, tag) ∧
      sub = pg.pb.serializeCiphertext ⟨CRYPTO_VERSION, v, text, tag,
        ⟨salt, (pg.c.hmac salt key.own_key.ec_pub_key).take 3⟩⟩ := by
  obtain ⟨ciphertext, hciphertext, hsub⟩ := Option.bind_eq_some_iff.mp h
  obtain ⟨token, htoken, hsub⟩ := Option.bind_eq_some_iff.mp hsub
  obtain ⟨v, hv, hciphertext⟩ := Option.bind_eq_some_iff.mp hciphertext
  obtain ⟨⟨text, tag⟩, haes, hciphertext⟩ := Option.bind_eq_some_iff.mp hciphertext
  obtain ⟨salt, -, htoken⟩ := Option.bind_eq_some_iff.mp htoken
  cases hciphertext
  cases htoken
  exact ⟨v, salt, text, tag, hv, haes, (Option.some.inj hsub).symm⟩

/-- What the sender encrypted, the other side of the connection decrypts. -/
theorem strPlaintext_encryptSubMsg {key key' : EcdhKey} (hagree : KeysAgree key key')
    {submsg : SubMsg pg.pb} {iv tokenSalt : Option Str} {sub : Str}
    (hiv : ∀ v ∈ iv, v.length = CRYPTO_AES_IV_LEN)
    (h : encryptSubMsg submsg key iv tokenSalt = some sub) {r : Receiver} {fd : ℤ}
    (hkey : r.keys fd = some key') (hkx : isKeyExchange submsg.type = false) :
    strPlaintext pg r fd submsg.type sub = .ok submsg.bytes := by
  obtain ⟨v, salt, text, tag, hv, haes, rfl⟩ := encryptSubMsg_eq_some h
  have hverify : verifyToken pg.c key'.peer_key.ec_pub_key
      ⟨salt, (pg.c.hmac salt key.own_key.ec_pub_key).take 3⟩ = true := by
    simp [verifyToken, hagree.ec_pub_key_eq, List.take_take]
  have hdecrypt : pg.c.aesDecrypt key'.peer_key.aes_key v tag text = some submsg.bytes := by
    rw [← hagree.aes_key_eq]
    exact pg.c.aesDecrypt_aesEncrypt haes
  simp [strPlaintext, hkx, pg.pb.parse_serializeCiphertext, hkey, hverify, hdecrypt, hiv v hv,
    (pg.c.aesEncrypt_length haes).2]

/-- The encrypted message is longer than the message. -/
theorem encryptSubMsg_ne {key : EcdhKey} {submsg : SubMsg pg.pb} {iv tokenSalt : Option Str} {sub : Str}
    (hiv : ∀ v ∈ iv, v.length = CRYPTO_AES_IV_LEN)
    (h : encryptSubMsg submsg key iv tokenSalt = some sub) : sub ≠ submsg.bytes := by
  obtain ⟨v, salt, text, tag, hv, haes, rfl⟩ := encryptSubMsg_eq_some h
  have hvne : v ≠ [] := by
    intro hnil
    have hlen := hiv v hv
    simp [hnil, CRYPTO_AES_IV_LEN] at hlen
  have hlong := pg.pb.serializeCiphertext_length ⟨CRYPTO_VERSION, v, text, tag,
    ⟨salt, (pg.c.hmac salt key.own_key.ec_pub_key).take 3⟩⟩ hvne
  intro heq
  rw [heq, ← (pg.c.aesEncrypt_length haes).1] at hlong
  exact lt_irrefl _ hlong

/-- When a message comes out as it went in: it survived the compression, if there was any. A message of a
    key exchange never does, unless it is empty and the receiver's zlib lost the ciphertext. -/
def Delivered (submsg : SubMsg pg.pb) (mem : Bool) (key : EcdhKey) (iv tokenSalt : Option Str)
    (msg : CommonMsg) (r : Receiver) : Prop :=
  if isKeyExchange submsg.type then
    submsg.bytes = [] ∧ msg.compress ≠ 0 ∧ mem = true ∧
      ∀ sub ∈ encryptSubMsg submsg key iv tokenSalt, OutOfMemory pg.z r.mem sub
  else msg.compress ≠ 0 → ∀ sub ∈ encryptSubMsg submsg key iv tokenSalt, Recovered pg.z mem r.mem sub

theorem handleSub_keyExchange_iff (r : Receiver) (fd : ℤ) {submsg : SubMsg pg.pb}
    (hkx : isKeyExchange submsg.type = true) (sub : Str) :
    handleSub pg r fd submsg.type sub = commitTask pg submsg.type submsg.bytes ↔
      sub = submsg.bytes := by
  constructor
  · intro h
    obtain ⟨hzero, task, htask, hbytes⟩ := @commitTask_keyExchange pg submsg.type submsg.bytes hkx
    rw [← h] at hzero htask
    rw [handleSub, strPlaintext] at hzero htask
    simp only [hkx, Bool.not_true, Bool.false_eq_true, if_false] at hzero htask
    split at hzero
    · simp at hzero
    · rename_i hparse
      rw [if_neg hparse] at htask
      rw [← plaintext_of_mem_commitTask htask, hbytes]
  · rintro rfl
    simp [handleSub, strPlaintext, hkx, submsg.parses]

theorem handleSub_encrypted_iff {key key' : EcdhKey} (hagree : KeysAgree key key')
    {submsg : SubMsg pg.pb} {iv tokenSalt : Option Str} {sub : Str}
    (hiv : ∀ v ∈ iv, v.length = CRYPTO_AES_IV_LEN)
    (hsub : encryptSubMsg submsg key iv tokenSalt = some sub) {r : Receiver} {fd : ℤ}
    (hkey : r.keys fd = some key') (hkx : isKeyExchange submsg.type = false) (mem : Bool) :
    (throughZlib pg.z mem r.mem sub).map (handleSub pg r fd submsg.type)
        = some (commitTask pg submsg.type submsg.bytes) ↔ Recovered pg.z mem r.mem sub := by
  have hcode : ∀ code : ℤ, code ≠ 0 → code ≠ -12 →
      ((code, []) : ℤ × List Task) ≠ commitTask pg submsg.type submsg.bytes := by
    intro code hzero htwelve heq
    have hfst := congrArg Prod.fst heq
    rw [commitTask] at hfst
    split at hfst
    · exact hzero hfst
    · simp only at hfst
      split at hfst
      · exact hzero hfst
      · exact htwelve hfst
  rcases throughZlib_cases pg.z mem r.mem sub with
    ⟨rfl, hnone⟩ | ⟨rfl, hmem, hnil⟩ | ⟨hgood, hsame⟩ | ⟨rfl, -, hbad, n, hzeros⟩
  · rw [hnone]
    exact iff_of_false (by simp) fun h => absurd h.1 (by decide)
  · rw [hnil, Option.map_some, handleSub_nil r fd hkx, Option.some.injEq]
    exact iff_of_false (hcode _ (by decide) (by decide)) fun h => h.2.1 hmem
  · rw [hsame]
    refine iff_of_true ?_ hgood
    simp [handleSub, strPlaintext_encryptSubMsg hagree hiv hsub hkey hkx, submsg.parses]
  · have hrefused : handleSub pg r fd submsg.type (List.replicate (n + 1) 0) = (-6, []) := by
      simp [handleSub, strPlaintext, hkx, pg.pb.parseCiphertext_zeros]
    rw [hzeros, Option.map_some, hrefused, Option.some.injEq]
    exact iff_of_false (hcode _ (by decide) (by decide)) hbad

/-- Between two sides that hold the same key a message is accepted and decoded exactly when it is one that
    is delivered. -/
theorem handle_initCommonMsgWithKey_iff {key key' : EcdhKey} (hagree : KeysAgree key key')
    {submsg : SubMsg pg.pb} {mem : Bool} {iv tokenSalt : Option Str} {encrypt compress : ℤ}
    {msg : CommonMsg} (hiv : ∀ v ∈ iv, v.length = CRYPTO_AES_IV_LEN)
    (hmsg : initCommonMsgWithKey mem submsg key iv tokenSalt encrypt compress = some msg)
    {r : Receiver} {data : MsgData} (hkey : r.keys data.fd = some key')
    (hdata : data.pack.data = pg.pb.serializeCommonMsg msg) :
    handle pg r data = some (commitTask pg submsg.type submsg.bytes) ↔
      Delivered submsg mem key iv tokenSalt msg r := by
  obtain ⟨sub, hsub, rfl⟩ := Option.map_eq_some_iff.mp hmsg
  have hne := encryptSubMsg_ne hiv hsub
  rw [handle_eq submsg r hdata (compressInto_version ..) (compressInto_type ..),
    subSerializeMsg_compressInto, Delivered]
  simp only [hsub, Option.mem_def, Option.some.injEq, forall_eq']
  by_cases hcompress : (compressInto pg mem submsg.type encrypt compress sub).compress = 0
  · -- no compression: the ciphertext arrives as it is
    simp only [hcompress, ne_eq, not_true, if_false, false_and, and_false, false_imp_iff, Option.map_some,
      Option.some.injEq]
    cases hkx : isKeyExchange submsg.type with
    | true =>
      rw [handleSub_keyExchange_iff r data.fd hkx]
      simpa using hne
    | false =>
      simp [handleSub, strPlaintext_encryptSubMsg hagree hiv hsub hkey hkx, submsg.parses]
  · simp only [ne_eq, hcompress, not_false_eq_true, if_true, true_and, true_imp_iff]
    cases hkx : isKeyExchange submsg.type with
    | true =>
      rw [if_pos rfl]
      rcases throughZlib_cases pg.z mem r.mem sub with
        ⟨rfl, h⟩ | ⟨rfl, hmem, h⟩ | ⟨hgood, h⟩ | ⟨rfl, hmem, -, n, h⟩
      · rw [h]
        exact iff_of_false (by simp) fun hbad => absurd hbad.2.1 (by decide)
      · rw [h, Option.map_some, Option.some.injEq, handleSub_keyExchange_iff r data.fd hkx]
        exact ⟨fun hbytes => ⟨hbytes.symm, rfl, hmem⟩, fun hbytes => hbytes.1.symm⟩
      · rw [h, Option.map_some, Option.some.injEq, handleSub_keyExchange_iff r data.fd hkx]
        exact iff_of_false hne fun hbad => hgood.2.1 hbad.2.2
      · rw [h, Option.map_some, Option.some.injEq, handleSub_keyExchange_iff r data.fd hkx]
        refine iff_of_false (fun hbytes => ?_) fun hbad => hmem hbad.2.2
        have hparses := submsg.parses
        rw [← hbytes, pg.pb.parseFromString_zeros] at hparses
        cases hparses
    | false =>
      rw [handleSub_encrypted_iff hagree hiv hsub hkey hkx]
      simp

/-- After an exchange that succeeded on both sides, and in which the side that answered got a key pair, the
    AES keys are the same, and a message encoded on either side is accepted and decoded on the other exactly
    when it is one that is delivered. -/
theorem exchange_messages {asking answering : Party pg.c} {keyAsking keyAnswering : EcdhKey}
    (h : exchange asking answering = .ok (keyAsking, keyAnswering))
    (hgen : answering.generated = true) :
    keyAsking.peer_key.aes_key = keyAnswering.peer_key.aes_key ∧
      ∀ key key', (key, key') = (keyAsking, keyAnswering) ∨ (key, key') = (keyAnswering, keyAsking) →
        ∀ (submsg : SubMsg pg.pb) (mem : Bool) (iv tokenSalt : Option Str) (encrypt compress : ℤ)
          (msg : CommonMsg) (r : Receiver) (data : MsgData),
          (∀ v ∈ iv, v.length = CRYPTO_AES_IV_LEN) →
          initCommonMsgWithKey mem submsg key iv tokenSalt encrypt compress = some msg →
          r.keys data.fd = some key' → data.pack.data = pg.pb.serializeCommonMsg msg →
          (handle pg r data = some (commitTask pg submsg.type submsg.bytes) ↔
            Delivered submsg mem key iv tokenSalt msg r) := by
  have hagree := exchange_keysAgree h hgen
  refine ⟨hagree.aes_key_eq, ?_⟩
  intro key key' hkeys submsg mem iv tokenSalt encrypt compress msg r data hiv hmsg hkey hdata
  rcases hkeys with hkeys | hkeys
  · cases hkeys
    exact handle_initCommonMsgWithKey_iff hagree hiv hmsg hkey hdata
  · cases hkeys
    exact handle_initCommonMsgWithKey_iff hagree.symm hiv hmsg hkey hdata

/-! ### A sample -/

/-- A string of a known end. -/
def sampleEncode (s : Str) : Str := s.flatMap (fun b => [1, b]) ++ [0]

/-- The string in front, and what follows it. -/
def sampleDecode : Str → Option (Str × Str)
  | 0 :: rest => some ([], rest)
  | 1 :: b :: rest => (sampleDecode rest).map fun p => (b :: p.1, p.2)
  | _ => none

theorem sampleDecode_encode (s rest : Str) : sampleDecode (sampleEncode s ++ rest) = some (s, rest) := by
  induction s with
  | nil => rfl
  | cons b s ih =>
    have hcons : sampleEncode (b :: s) ++ rest = 1 :: b :: (sampleEncode s ++ rest) := by
      simp [sampleEncode]
    rw [hcons, sampleDecode, ih]
    rfl

/-- A number as a string. -/
def sampleOfInt (n : ℤ) : Str := List.replicate n.natAbs (if n < 0 then 2 else 1)

/-- The number of such a string. -/
def sampleToInt (s : Str) : ℤ := if s.head? = some 2 then -s.length else s.length

theorem sampleToInt_ofInt (n : ℤ) : sampleToInt (sampleOfInt n) = n := by
  rcases lt_or_ge n 0 with h | h
  · obtain ⟨k, hk⟩ : ∃ k, n.natAbs = k + 1 := Nat.exists_eq_succ_of_ne_zero (by omega)
    simp only [sampleOfInt, h, if_true, sampleToInt, hk, List.replicate_succ, List.head?_cons,
      List.length_cons, List.length_replicate]
    omega
  · have hhead : (List.replicate n.natAbs (1 : UInt8)).head? ≠ some 2 := by
      cases n.natAbs <;> simp [List.replicate_succ]
    simp only [sampleOfInt, Int.not_lt.mpr h, if_false, sampleToInt, hhead, List.length_replicate]
    omega

/-- A serialisation with what is asked of protobuf. -/
def samplePb : Protobuf where
  serializeCommonMsg msg := sampleEncode msg.version ++ (sampleEncode msg.type ++
    (sampleEncode (sampleOfInt msg.encrypt) ++ (sampleEncode (sampleOfInt msg.compress) ++ msg.data)))
  parseCommonMsg bytes := do
    let (version, bytes) ← sampleDecode bytes
    let (type, bytes) ← sampleDecode bytes
    let (encrypt, bytes) ← sampleDecode bytes
    let (compress, bytes) ← sampleDecode bytes
    some ⟨version, type, sampleToInt encrypt, sampleToInt compress, bytes⟩
  serializeCiphertext ct :=
    if ct = {} then []
    else 1 :: (sampleEncode (sampleOfInt ct.cipher_version) ++ (sampleEncode ct.aes_iv_12bytes ++
      (sampleEncode ct.aes_tag_16bytes ++ (sampleEncode ct.token.salt_3bytes ++
        (sampleEncode ct.token.hmac_3bytes ++ ct.ciphertext_nbytes)))))
  parseCiphertext
    | [] => some {}
    | 1 :: bytes => do
      let (version, bytes) ← sampleDecode bytes
      let (iv, bytes) ← sampleDecode bytes
      let (tag, bytes) ← sampleDecode bytes
      let (salt, bytes) ← sampleDecode bytes
      let (hmac, bytes) ← sampleDecode bytes
      some ⟨sampleToInt version, iv, bytes, tag, ⟨salt, hmac⟩⟩
    | _ => none
  findMessageTypeByName _ := true
  getPrototype _ := true
  parseFromString _ bytes := bytes.head? != some 0
  parse_serializeCommonMsg msg := by simp [sampleDecode_encode, sampleToInt_ofInt]
  parse_serializeCiphertext ct := by
    rcases eq_or_ne ct {} with rfl | h
    · simp
    · simp [h, sampleDecode_encode, sampleToInt_ofInt]
  serializeCiphertext_length ct hiv := by
    rw [if_neg (fun h => hiv (by rw [h]))]
    simp only [List.length_cons, List.length_append]
    omega
  parseCiphertext_nil := rfl
  parseCiphertext_zeros n := rfl
  findMessageTypeByName_keyExchange _ _ := ⟨rfl, rfl⟩
  parseFromString_nil _ _ := rfl
  parseFromString_zeros _ n := rfl

/-- A program with the sample libraries. -/
def sampleProgram : Program where
  z := sampleZlib
  pb := samplePb
  c := sampleCrypto
  kNetVersion := [49]
  callbacks pool _ := pool == .net
  keyExchange_registered _ _ := rfl

/-- The sample as a message of a key exchange, or of another type. -/
def sampleMsg (type : Str) (h : type ≠ []) : SubMsg sampleProgram.pb where
  type := type
  bytes := sampleRaw
  type_ne_nil := h
  known := ⟨rfl, rfl⟩
  parses := rfl

/-- A packet with a message. -/
def samplePacket (msg : CommonMsg) : MsgData :=
  { type := .E_WORK, fd := 1, port := 0, ip := 0, data := [], pack := { data := samplePb.serializeCommonMsg msg } }

/-- The sample as it is sent when there is memory to compress it. -/
theorem initCommonMsg_sample : initCommonMsg true (sampleMsg (str "KeyExchangeResponse") (by decide)) 0 1 =
    ⟨[49], str "KeyExchangeResponse", 0, 1, sampleStream⟩ := by
  rw [initCommonMsg, compressInto]
  simp only [compressFunc_of_mem]
  decide

/-- With enough memory the sample comes back. -/
theorem initCommonMsg_roundtrip_sample :
    let submsg := sampleMsg (str "KeyExchangeResponse") (by decide)
    let msg := initCommonMsg true submsg 0 1
    let r : Receiver := { keys := fun _ => none, mem := fun _ => true }
    msg.compress ≠ 0 ∧ (subSerializeMsg sampleProgram r msg = some sampleRaw ∨
      ∃ ret, handle sampleProgram r (samplePacket msg) = some ret ∧ ret.1 < 0 ∧ ret.2 = []) := by
  intro submsg msg r
  have hchosen : msg.compress ≠ 0 := by
    rw [show msg = _ from initCommonMsg_sample]
    decide
  refine ⟨hchosen, ?_⟩
  refine (initCommonMsg_roundtrip_iff submsg true 0 1 hchosen r (samplePacket msg) rfl).mpr ⟨rfl, ?_⟩
  rintro ⟨-, hmem⟩
  simp [OutOfMemory, r] at hmem

/-- Where the receiver's call runs out of memory, `Handle` goes on with an empty `KeyExchangeResponse`. -/
theorem initCommonMsg_roundtrip_fails : ¬ ∀ (pg : Program) (submsg : SubMsg pg.pb) (mem : Bool)
    (encrypt compress : ℤ) (r : Receiver) (data : MsgData),
    (initCommonMsg mem submsg encrypt compress).compress ≠ 0 →
    data.pack.data = pg.pb.serializeCommonMsg (initCommonMsg mem submsg encrypt compress) →
      (subSerializeMsg pg r (initCommonMsg mem submsg encrypt compress) = some submsg.bytes ∨
        ∃ ret, handle pg r data = some ret ∧ ret.1 < 0 ∧ ret.2 = []) := by
  intro h
  let submsg := sampleMsg (str "KeyExchangeResponse") (by decide)
  let r : Receiver := { keys := fun _ => none, mem := fun _ => false }
  have hbad := h sampleProgram submsg true 0 1 r (samplePacket (initCommonMsg true submsg 0 1))
    (by rw [initCommonMsg_sample]; decide) rfl
  rw [initCommonMsg_sample] at hbad
  have hsub : subSerializeMsg sampleProgram r ⟨[49], str "KeyExchangeResponse", 0, 1, sampleStream⟩ = some [] := by
    decide
  have hhandle : (handle sampleProgram r
      (samplePacket ⟨[49], str "KeyExchangeResponse", 0, 1, sampleStream⟩)).map Prod.fst = some 0 := by
    decide
  rcases hbad with hbad | ⟨ret, hret, hnegative, -⟩
  · rw [hsub] at hbad
    exact absurd hbad (by decide)
  · rw [hret, Option.map_some, Option.some.injEq] at hhandle
    omega

/-- An exchange, and a message from the side that asked to the side that answered. -/
theorem exchange_messages_sample : ∃ keyAsking keyAnswering msg,
    exchange (sampleParty (2 ^ 255) (by decide)) (sampleParty (2 ^ 255 + 1) (by decide))
      = .ok (keyAsking, keyAnswering) ∧
    keyAsking.peer_key.aes_key = keyAnswering.peer_key.aes_key ∧
    initCommonMsgWithKey true (sampleMsg (str "PingReq") (by decide)) keyAsking
      (some (List.replicate 12 3)) (some [4, 5, 6]) 1 0 = some msg ∧
    handle sampleProgram { keys := fun _ => some keyAnswering, mem := fun _ => true } (samplePacket msg)
      = some (commitTask sampleProgram (str "PingReq") sampleRaw) := by
  have hrun : (exchange (sampleParty (2 ^ 255) (by decide))
      (sampleParty (2 ^ 255 + 1) (by decide))).toOption.map (fun _ => ()) = some () := by
    decide
  obtain ⟨⟨keyAsking, keyAnswering⟩, hok, -⟩ := ok_of_eval hrun
  have hgen : (sampleParty (2 ^ 255 + 1) (by decide)).generated = true := by decide
  obtain ⟨hkeys, hmessages⟩ := @exchange_messages sampleProgram _ _ _ _ hok hgen
  refine ⟨keyAsking, keyAnswering, _, hok, hkeys, rfl, ?_⟩
  refine (hmessages keyAsking keyAnswering (.inl rfl) (sampleMsg (str "PingReq") (by decide)) true
    (some (List.replicate 12 3)) (some [4, 5, 6]) 1 0 _ _ _ ?_ rfl rfl rfl).mpr ?_
  · intro v hv
    cases hv
    rfl
  · -- the message is not compressed
    rw [Delivered, if_neg (by decide)]
    intro hcompress
    exact absurd rfl hcompress

end Tfs.Net
