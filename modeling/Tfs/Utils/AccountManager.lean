import Tfs.Lib.Rlp
import Tfs.Ca.Utxo

/-! The accounts of a node and their backup (`utils/account_manager.cpp`, `utils/hex_code.cpp`).

    An account is made from a seed of sixteen bytes: the seed's hash is the private key, the private
    key gives the public key, and that the address. A mnemonic is the seed in words. Exporting looks
    the account up and writes its seed, importing reads the seed and makes the account again. -/

namespace Tfs.Utils
open Tfs.Rlp

/-- `_seed`: `PrimeSeedNum` bytes. -/
abbrev Seed := {s : Str // s.length = 16}

/-- `uint8_t seed[16]={0}`. -/
def Seed.zero : Seed := ⟨List.replicate 16 0, rfl⟩

/-- What the accounts use from outside: OpenSSL, the derivation of addresses, the words of BIP 39 and
    the key files. -/
structure AccountEnv where
  /-- `EVP_PKEY`, Ed25519 -/
  PKey : Type
  /-- `sha256_hash` -/
  sha256 : Str → Str
  /-- `EVP_PKEY_new_raw_private_key`, `none` for a null pointer -/
  newRawPrivateKey : Str → Option PKey
  /-- `i2d_PUBKEY` -/
  i2dPubkey : PKey → Str
  /-- `EVP_PKEY_get_raw_private_key`, `none` where it fails -/
  getRawPrivateKey : PKey → Option Str
  /-- `GenerateAddr` -/
  generateAddr : Str → Str
  /-- `mnemonic_from_data`: the number of words, 0 where it fails, and the text -/
  mnemonicFromData : Str → ℤ × Str
  /-- `mnemonic_check`: the bytes the words stand for, `none` where it returns 0 -/
  mnemonicCheck : Str → Option Str
  /-- whether `SavePrivateKeyToFile` can write the file of an address -/
  writesKeyFile : Str → Bool

variable (env : AccountEnv)

/-- What is assumed of them: every hash is a private key, which can be read from the key again and is
    not empty, and the words of a seed are checked back to the seed. -/
structure AccountEnv.Lawful : Prop where
  newKey : ∀ seed : Seed, ∃ pkey, env.newRawPrivateKey (env.sha256 seed.1) = some pkey
  rawKey : ∀ pkey, ∃ raw, env.getRawPrivateKey pkey = some raw ∧ raw ≠ []
  words : ∀ seed : Seed, 0 < (env.mnemonicFromData seed.1).1
  check : ∀ seed : Seed, env.mnemonicCheck (env.mnemonicFromData seed.1).2 = some seed.1

/-! ### Accounts -/

/-- `Account`. -/
structure Account where
  pkey : Option env.PKey
  pubStr : Str
  priStr : Str
  addr : Str
  seed : Seed

/-- `Account()`. -/
def Account.empty : Account env := ⟨none, [], [], [], .zero⟩

variable {env}

/-- `Account::_GeneratePkey`, with the parts it calls. -/
def Account.generatePkey (acc : Account env) : Account env :=
  match env.newRawPrivateKey (env.sha256 acc.seed.1) with
  | none => { acc with pkey := none, addr := env.generateAddr acc.pubStr }
  | some pkeyPtr =>
    let pubStr := acc.pubStr ++ env.i2dPubkey pkeyPtr
    { acc with
      pkey := some pkeyPtr
      pubStr := pubStr
      priStr := (env.getRawPrivateKey pkeyPtr).getD acc.priStr
      addr := env.generateAddr pubStr }

variable (env)

/-- `Account(true)`, with the seed that `RAND_bytes` draws. -/
def Account.random (seed : Seed) : Account env := ({ Account.empty env with seed := seed }).generatePkey

/-- `AccountManager`: the accounts by address, and the default address. -/
structure AccountManager where
  defaultAddr : Str
  accountList : StdMap Str (Account env)
  keyed : ∀ {addr acc}, accountList addr = some acc → acc.addr = addr

/-- A manager without accounts. -/
def AccountManager.noAccounts : AccountManager env := ⟨[], .empty, fun h => by cases h⟩

namespace AccountManager
variable {env}

/-- `AccountManager::AddAccount`. -/
def addAccount (m : AccountManager env) (account : Account env) : ℤ × AccountManager env :=
  if (m.accountList account.addr).isSome then (-1, m)
  else (0, { m with
    accountList := m.accountList.set account.addr account
    keyed := by
      intro addr acc h
      by_cases haddr : addr = account.addr
      · rw [haddr, StdMap.set_self] at h
        cases h
        exact haddr.symm
      · rw [StdMap.set_ne _ _ haddr] at h
        exact m.keyed h })

theorem addAccount_new {m : AccountManager env} {account : Account env}
    (h : m.accountList account.addr = none) :
    (m.addAccount account).2.accountList = m.accountList.set account.addr account := by
  simp [addAccount, h]

theorem accountList_withDefault (m : AccountManager env) (addr : Str) :
    ({ m with defaultAddr := addr } : AccountManager env).accountList = m.accountList := rfl

/-- `AccountManager::IsExist`. -/
def isExist (m : AccountManager env) (addr : Str) : Bool := (m.accountList addr).isSome

/-- `AccountManager::FindAccount`: the account is assigned when it is found. -/
def findAccount (m : AccountManager env) (addr : Str) (account : Account env) : ℤ × Account env :=
  match m.accountList addr with
  | none => (-1, account)
  | some found => (0, found)

/-- `AccountManager::GetDefaultAccount`. -/
def getDefaultAccount (m : AccountManager env) (account : Account env) : ℤ × Account env :=
  match m.accountList m.defaultAddr with
  | none => (-1, account)
  | some found => (0, found)

/-- `AccountManager::GetMnemonic`: the value returned and the mnemonic, which is left as it was when the
    account has no private key. -/
def getMnemonic (m : AccountManager env) (randomSeed : Seed) (addr mnemonic : Str) : ℤ × Str :=
  let (ret, account) := m.findAccount addr (.random env randomSeed)
  -- `!FindAccount(…)`: zero is success, so the default account takes the place of one that was found
  let account := if ret = 0 then (m.getDefaultAccount (.empty env)).2 else account
  if account.priStr = [] then (0, mnemonic) else env.mnemonicFromData account.seed.1

end AccountManager

/-! ### Reading a seed -/

/-- The number in front of a text of hexadecimal digits. -/
def hexPrefix : Str → ℤ → ℤ
  | [], number => number
  | c :: rest, number => (fromHexChar c).elim number fun d => hexPrefix rest (16 * number + d.toNat)

/-- `strtol` in base sixteen, for the two characters it is called with: blanks and a sign are skipped
    (a `0x` has no digit behind it and counts as zero). -/
def strtol16 (s : Str) : ℤ :=
  match s.dropWhile Ca.isSpace with
  | 45 :: rest => -hexPrefix rest 0
  | 43 :: rest => hexPrefix rest 0
  | rest => hexPrefix rest 0

/-- `string_to_hex_array`: as many bytes as there are pairs of characters and room for them. -/
def stringToHexArray : Str → Str → Str
  | _ :: array, h :: l :: str => UInt8.ofInt (strtol16 [h, l]) :: stringToHexArray array str
  | array, _ => array

theorem length_stringToHexArray : ∀ array str : Str,
    (stringToHexArray array str).length = array.length
  | [], _ => rfl
  | _ :: _, [] => rfl
  | _ :: _, [_] => rfl
  | _ :: array, _ :: _ :: str => congrArg (· + 1) (length_stringToHexArray array str)

/-- The seed that a text of hexadecimal digits is read as. -/
def seedOfHex (str : Str) : Seed :=
  ⟨stringToHexArray Seed.zero.1 str, (length_stringToHexArray _ _).trans Seed.zero.2⟩

/-! ### Import -/

namespace AccountManager
variable {env}

/-- `AccountManager::ImportPrivateKeyHex` on the one manager there is. -/
def importPrivateKeyHex (m : AccountManager env) (inputSeed : Seed) : ℤ × AccountManager env :=
  match env.newRawPrivateKey (env.sha256 inputSeed.1) with
  | none => (-1, m)
  | some pkey =>
    let pubStr := env.i2dPubkey pkey
    match env.getRawPrivateKey pkey with
    | none => (-2, m)
    | some priStr =>
      let addr := env.generateAddr pubStr
      let acc : Account env := ⟨some pkey, pubStr, priStr, addr, inputSeed⟩
      let (_, m) := m.addAccount acc
      (if env.writesKeyFile acc.addr then 0 else -3, m)

/-- `AccountManager::ImportMnemonic`: what the import of the key returns is not looked at. -/
def importMnemonic (m : AccountManager env) (mnemonic : Str) : ℤ × AccountManager env :=
  match env.mnemonicCheck mnemonic with
  | none => (-1, m)
  | some out => (0, (m.importPrivateKeyHex (seedOfHex (toHex out))).2)

end AccountManager

/-! ### What is restored -/

/-- The address that a seed gives. -/
def addrOf (seed : Seed) : Str := (Account.random env seed).addr

variable {env}

/-- The backup law at one address: the mnemonic of an address that is held, imported into a manager
    without accounts, makes an account of that address, and for an address that is not held the
    number of words is none. -/
def Restores (m : AccountManager env) (randomSeed : Seed) (addr : Str) : Prop :=
  let exported := m.getMnemonic randomSeed addr []
  if m.isExist addr then
    0 < exported.1 ∧ ((AccountManager.noAccounts env).importMnemonic exported.2).2.isExist addr
  else exported.1 ≤ 0

/-- Reading a seed undoes writing it. -/
theorem stringToHexArray_toHex : ∀ array bytes : Str, array.length = bytes.length →
    stringToHexArray array (toHex bytes) = bytes
  | [], [], _ => rfl
  | _ :: array, b :: bytes, h => by
    have hpair : UInt8.ofInt (strtol16 [hexDigit (b / 16), hexDigit (b % 16)]) = b := by
      have hall : ∀ n : Fin 256, UInt8.ofInt (strtol16 [hexDigit (UInt8.ofNat n / 16),
          hexDigit (UInt8.ofNat n % 16)]) = UInt8.ofNat n := by decide +kernel
      simpa using hall ⟨b.toNat, b.toNat_lt⟩
    rw [toHex, stringToHexArray, hpair,
      stringToHexArray_toHex array bytes (by simpa using h)]

theorem seedOfHex_toHex (seed : Seed) : seedOfHex (toHex seed.1) = seed :=
  Subtype.ext (stringToHexArray_toHex _ _ (Seed.zero.2.trans seed.2.symm))

/-- An account made from a seed keeps it, and has a private key. -/
theorem random_priStr (h : env.Lawful) (seed : Seed) : (Account.random env seed).priStr ≠ [] := by
  obtain ⟨pkey, hkey⟩ := h.newKey seed
  obtain ⟨raw, hraw, hne⟩ := h.rawKey pkey
  simp [Account.random, Account.generatePkey, hkey, hraw, hne]

theorem random_seed (seed : Seed) : (Account.random env seed).seed = seed := by
  rw [Account.random, Account.generatePkey]
  split <;> rfl

/-- Importing a seed into a manager without accounts makes the account of the seed's address, and no
    other. -/
theorem importPrivateKeyHex_isExist (h : env.Lawful) (seed : Seed) (addr : Str) :
    ((AccountManager.noAccounts env).importPrivateKeyHex seed).2.isExist addr ↔
      addr = addrOf env seed := by
  obtain ⟨pkey, hkey⟩ := h.newKey seed
  obtain ⟨raw, hraw, -⟩ := h.rawKey pkey
  have haddr : addrOf env seed = env.generateAddr (env.i2dPubkey pkey) := by
    simp [addrOf, Account.random, Account.generatePkey, Account.empty, hkey]
  rw [haddr]
  by_cases heq : addr = env.generateAddr (env.i2dPubkey pkey)
  · simp [AccountManager.importPrivateKeyHex, AccountManager.addAccount, AccountManager.isExist,
      AccountManager.noAccounts, hkey, hraw, heq]
  · simp [AccountManager.importPrivateKeyHex, AccountManager.addAccount, AccountManager.isExist,
      AccountManager.noAccounts, hkey, hraw, heq, StdMap.set_ne]

/-- So the words of a seed restore the address the seed gives. -/
theorem importMnemonic_isExist (h : env.Lawful) (seed : Seed) (addr : Str) :
    ((AccountManager.noAccounts env).importMnemonic (env.mnemonicFromData seed.1).2).2.isExist addr
      ↔ addr = addrOf env seed := by
  rw [AccountManager.importMnemonic, h.check seed]
  simp only [seedOfHex_toHex]
  exact importPrivateKeyHex_isExist h seed addr

/-- What is exported for an address that is held: the seed of the default account, if there is one with a
    private key. -/
theorem getMnemonic_of_held {m : AccountManager env} {addr : Str} (h : m.isExist addr)
    (randomSeed : Seed) (mnemonic : Str) :
    m.getMnemonic randomSeed addr mnemonic = match m.accountList m.defaultAddr with
      | none => (0, mnemonic)
      | some acc => if acc.priStr = [] then (0, mnemonic) else env.mnemonicFromData acc.seed.1 := by
  obtain ⟨found, hfound⟩ := Option.isSome_iff_exists.mp h
  rw [AccountManager.getMnemonic, AccountManager.findAccount, hfound]
  simp only [if_true, AccountManager.getDefaultAccount]
  cases m.accountList m.defaultAddr <;> rfl

/-- What is exported for any other address: the seed that was just drawn. -/
theorem getMnemonic_of_not_held (h : env.Lawful) {m : AccountManager env} {addr : Str}
    (hnot : ¬ m.isExist addr) (randomSeed : Seed) (mnemonic : Str) :
    m.getMnemonic randomSeed addr mnemonic = env.mnemonicFromData randomSeed.1 := by
  have hnone : m.accountList addr = none := by simpa [AccountManager.isExist] using hnot
  rw [AccountManager.getMnemonic, AccountManager.findAccount, hnone]
  simp [random_priStr h, random_seed]

/-- An address is backed up exactly when it is held and the default account is held, has a private key
    and has the seed of that address. -/
theorem restores_iff_default (h : env.Lawful) (m : AccountManager env) (randomSeed : Seed)
    (addr : Str) : Restores m randomSeed addr ↔
      m.isExist addr ∧ ∃ acc, m.accountList m.defaultAddr = some acc ∧ acc.priStr ≠ []
        ∧ addrOf env acc.seed = addr := by
  by_cases hheld : m.isExist addr
  · rw [Restores, getMnemonic_of_held hheld]
    cases hdefault : m.accountList m.defaultAddr with
    | none => simp [hheld]
    | some acc =>
      by_cases hpri : acc.priStr = []
      · simp [hheld, hpri]
      · simp [hheld, hpri, h.words, importMnemonic_isExist h, eq_comm]
  · rw [Restores, getMnemonic_of_not_held h hheld]
    simp [hheld, h.words]

/-- Where every account has a private key and the address of its seed, the one address that is backed up
    is the default one. -/
theorem restores_iff_eq_default (h : env.Lawful) {m : AccountManager env}
    (hderived : ∀ addr acc, m.accountList addr = some acc →
      acc.priStr ≠ [] ∧ addrOf env acc.seed = addr) (randomSeed : Seed) (addr : Str) :
    Restores m randomSeed addr ↔ m.isExist addr ∧ addr = m.defaultAddr := by
  rw [restores_iff_default h]
  refine and_congr_right fun hheld => ⟨fun ⟨acc, hacc, _, haddr⟩ => ?_, fun heq => ?_⟩
  · rw [← haddr, (hderived _ _ hacc).2]
  · obtain ⟨acc, hacc⟩ := Option.isSome_iff_exists.mp hheld
    subst heq
    exact ⟨acc, hacc, hderived _ _ hacc⟩

/-! ### Two accounts -/

/-- The seeds of sixteen bytes `00` and of sixteen bytes `7f`. -/
def seed00 : Seed := .zero
def seed7f : Seed := ⟨List.replicate 16 0x7f, rfl⟩

/-- Their hashes, which are the private keys. -/
def hash00 : Str := fromHex (str "374708fff7719dd5979ec875d56cd2286f6d3cf7ec317a3b25632aab28ec37bb")
def hash7f : Str := fromHex (str "87dcde7fa6df23e15fa7ba9b2a1f31408eac832f4e615ea815ae92024e3d818b")

/-- Their public keys. -/
def pub00 : Str := fromHex (str
  "302a300506032b6570032100bfb8cfa9a9e3a6336cb5cf6a51dc1953fbd34aefe826383b4916cd37c4cc4629")
def pub7f : Str := fromHex (str
  "302a300506032b65700321001c1b12cc4a2e4a35e17f7ec880eddeb6d3cf693e022f0a91175e0b47cc3b0ee6")

/-- Their addresses. -/
def addr00 : Str := str "8598a0eF69546A2facE702fF68F57C37bfF0A706"
def addr7f : Str := str "6FC48F4FAb677181f4C21b4994BB254C6Fb0c09e"

/-- Their words. -/
def words00 : Str := str
  "abandon abandon abandon abandon abandon abandon abandon abandon abandon abandon abandon about"
def words7f : Str := str "legal winner thank year wave sausage worth useful legal winner thank yellow"

/-- The functions as they are on these two seeds; other seeds are their own words, in digits. -/
def sampleEnv : AccountEnv where
  PKey := {raw : Str // raw.length = 32}
  sha256 seed := if seed = seed00.1 then hash00 else if seed = seed7f.1 then hash7f else seed ++ seed
  newRawPrivateKey raw := if h : raw.length = 32 then some ⟨raw, h⟩ else none
  i2dPubkey pkey := if pkey.1 = hash00 then pub00 else if pkey.1 = hash7f then pub7f else pkey.1
  getRawPrivateKey pkey := some pkey.1
  generateAddr pubStr := if pubStr = pub00 then addr00 else if pubStr = pub7f then addr7f else pubStr
  mnemonicFromData seed :=
    (12, if seed = seed00.1 then words00 else if seed = seed7f.1 then words7f else toHex seed)
  mnemonicCheck mnemonic :=
    if mnemonic = words00 then some seed00.1
    else if mnemonic = words7f then some seed7f.1 else some (fromHex mnemonic)
  writesKeyFile _ := true

/-- The two rows of the table are apart. -/
theorem seed7f_ne : seed7f.1 ≠ seed00.1 := by decide

theorem hash7f_ne : hash7f ≠ hash00 := by
  rw [hash7f, hash00, str_ofList, str_ofList]
  decide

theorem pub7f_ne : pub7f ≠ pub00 := by
  rw [pub7f, pub00, str_ofList, str_ofList]
  decide

theorem addr7f_ne : addr7f ≠ addr00 := by
  rw [addr7f, addr00, str_ofList, str_ofList]
  decide

theorem words7f_ne : words7f ≠ words00 := by
  rw [words7f, words00, str_ofList, str_ofList]
  decide

/-- A hash is a private key. -/
theorem length_hash00 : hash00.length = 32 := by
  rw [hash00, str_ofList]
  decide

theorem length_hash7f : hash7f.length = 32 := by
  rw [hash7f, str_ofList]
  decide

/-- Words are not the digits of a seed. -/
theorem length_words00 : words00.length ≠ 32 := by
  rw [words00, str_ofList]
  decide

theorem length_words7f : words7f.length ≠ 32 := by
  rw [words7f, str_ofList]
  decide

theorem sampleEnv_lawful : sampleEnv.Lawful where
  newKey seed := by
    have hlen : (sampleEnv.sha256 seed.1).length = 32 := by
      simp only [sampleEnv]
      split_ifs
      · exact length_hash00
      · exact length_hash7f
      · rw [List.length_append, seed.2]
    exact ⟨⟨_, hlen⟩, dif_pos hlen⟩
  rawKey pkey := by
    refine ⟨pkey.1, rfl, fun hnil => ?_⟩
    have hlen := pkey.2
    rw [hnil] at hlen
    cases hlen
  words _ := by simp [sampleEnv]
  check seed := by
    have hlen : ∀ words : Str, words.length ≠ 32 → toHex seed.1 ≠ words := by
      rintro _ hne rfl
      exact hne (by rw [toHex_length, seed.2])
    by_cases h₀ : seed.1 = seed00.1
    · simp [sampleEnv, h₀]
    · by_cases h₁ : seed.1 = seed7f.1
      · simp [sampleEnv, h₁, seed7f_ne, words7f_ne]
      · simp only [sampleEnv, if_neg h₀, if_neg h₁]
        rw [if_neg (hlen _ length_words00), if_neg (hlen _ length_words7f), fromHex_toHex]

/-- The account of a seed. -/
abbrev sampleAccount (seed : Seed) : Account sampleEnv := .random sampleEnv seed

/-- A node with both accounts, the first its default. -/
def sampleManager : AccountManager sampleEnv :=
  { (((AccountManager.noAccounts sampleEnv).addAccount (sampleAccount seed00)).2.addAccount
      (sampleAccount seed7f)).2 with defaultAddr := addr00 }

/-- The address of a seed, step by step. -/
theorem addrOf_eq {seed : Seed} {pkey : env.PKey} {raw pub addr : Str} (hsha : env.sha256 seed.1 = raw)
    (hkey : env.newRawPrivateKey raw = some pkey) (hpub : env.i2dPubkey pkey = pub)
    (haddr : env.generateAddr pub = addr) : addrOf env seed = addr := by
  simp [addrOf, Account.random, Account.generatePkey, Account.empty, hsha, hkey, hpub, haddr]

theorem sampleEnv_sha256 (seed : Str) : sampleEnv.sha256 seed =
    if seed = seed00.1 then hash00 else if seed = seed7f.1 then hash7f else seed ++ seed := rfl

theorem sampleEnv_newRawPrivateKey {raw : Str} (h : raw.length = 32) :
    sampleEnv.newRawPrivateKey raw = some ⟨raw, h⟩ := dif_pos h

theorem sampleEnv_i2dPubkey (pkey : {raw : Str // raw.length = 32}) : sampleEnv.i2dPubkey pkey =
    if pkey.1 = hash00 then pub00 else if pkey.1 = hash7f then pub7f else pkey.1 := rfl

theorem sampleEnv_generateAddr (pubStr : Str) : sampleEnv.generateAddr pubStr =
    if pubStr = pub00 then addr00 else if pubStr = pub7f then addr7f else pubStr := rfl

theorem addrOf_seed00 : addrOf sampleEnv seed00 = addr00 := by
  have hsha : sampleEnv.sha256 seed00.1 = hash00 := by rw [sampleEnv_sha256, if_pos rfl]
  have hpub : sampleEnv.i2dPubkey ⟨hash00, length_hash00⟩ = pub00 := by rw [sampleEnv_i2dPubkey, if_pos rfl]
  have haddr : sampleEnv.generateAddr pub00 = addr00 := by rw [sampleEnv_generateAddr, if_pos rfl]
  exact addrOf_eq hsha (sampleEnv_newRawPrivateKey length_hash00) hpub haddr

theorem addrOf_seed7f : addrOf sampleEnv seed7f = addr7f := by
  have hsha : sampleEnv.sha256 seed7f.1 = hash7f := by rw [sampleEnv_sha256, if_neg seed7f_ne, if_pos rfl]
  have hpub : sampleEnv.i2dPubkey ⟨hash7f, length_hash7f⟩ = pub7f := by
    rw [sampleEnv_i2dPubkey, if_neg hash7f_ne, if_pos rfl]
  have haddr : sampleEnv.generateAddr pub7f = addr7f := by
    rw [sampleEnv_generateAddr, if_neg pub7f_ne, if_pos rfl]
  exact addrOf_eq hsha (sampleEnv_newRawPrivateKey length_hash7f) hpub haddr

/-- Both accounts are held, each under its address. -/
theorem sampleManager_accountList : sampleManager.accountList =
    ((StdMap.empty.set addr00 (sampleAccount seed00)).set addr7f (sampleAccount seed7f)) := by
  have h00 : (sampleAccount seed00).addr = addr00 := by rw [← addrOf_seed00, addrOf]
  have h7f : (sampleAccount seed7f).addr = addr7f := by rw [← addrOf_seed7f, addrOf]
  have hfirst : ((AccountManager.noAccounts sampleEnv).addAccount (sampleAccount seed00)).2.accountList =
      StdMap.empty.set addr00 (sampleAccount seed00) := by
    rw [AccountManager.addAccount_new rfl, h00]
    rfl
  have hfree : ((AccountManager.noAccounts sampleEnv).addAccount (sampleAccount seed00)).2.accountList
      (sampleAccount seed7f).addr = none := by
    rw [hfirst, h7f, StdMap.set_ne _ _ addr7f_ne, StdMap.empty_apply]
  have hlist : sampleManager.accountList = (((AccountManager.noAccounts sampleEnv).addAccount
      (sampleAccount seed00)).2.addAccount (sampleAccount seed7f)).2.accountList := by
    unfold sampleManager
    exact AccountManager.accountList_withDefault _ _
  rw [hlist, AccountManager.addAccount_new hfree, hfirst, h7f]

theorem sampleManager_defaultAddr : sampleManager.defaultAddr = addr00 := by
  rw [sampleManager]

/-- Its default address is backed up. -/
theorem restores_iff_default_first : Restores sampleManager seed7f addr00 := by
  have hheld : sampleManager.accountList addr00 = some (sampleAccount seed00) := by
    rw [sampleManager_accountList, StdMap.set_ne _ _ addr7f_ne.symm, StdMap.set_self]
  rw [restores_iff_default sampleEnv_lawful]
  constructor
  · rw [AccountManager.isExist, hheld, Option.isSome_some]
  · rw [sampleManager_defaultAddr, hheld]
    refine ⟨sampleAccount seed00, rfl, random_priStr sampleEnv_lawful seed00, ?_⟩
    rw [random_seed, addrOf_seed00]

/-- Its other address is not: the words of the default account come out, and they make that one. For an
    address it does not hold the words of a fresh seed come out. -/
theorem second_not_restored : sampleManager.isExist addr7f
    ∧ ¬ Restores sampleManager seed00 addr7f ∧ ¬ Restores sampleManager seed7f [] := by
  have hdefault : sampleManager.accountList sampleManager.defaultAddr = some (sampleAccount seed00) := by
    rw [sampleManager_defaultAddr, sampleManager_accountList, StdMap.set_ne _ _ addr7f_ne.symm, StdMap.set_self]
  have hheld : sampleManager.isExist addr7f := by
    rw [AccountManager.isExist, sampleManager_accountList, StdMap.set_self, Option.isSome_some]
  have hnil : ¬ sampleManager.isExist [] := by
    have h00 : ([] : Str) ≠ addr00 := by
      rw [addr00, str_ofList]
      decide
    have h7f : ([] : Str) ≠ addr7f := by
      rw [addr7f, str_ofList]
      decide
    rw [AccountManager.isExist, sampleManager_accountList, StdMap.set_ne _ _ h7f, StdMap.set_ne _ _ h00]
    decide
  refine ⟨hheld, ?_, ?_⟩
  · rw [Restores, getMnemonic_of_held hheld, hdefault]
    simp only [if_neg (random_priStr sampleEnv_lawful seed00), if_pos hheld]
    rintro ⟨-, hrestored⟩
    have haddr := (importMnemonic_isExist sampleEnv_lawful seed00 addr7f).mp hrestored
    rw [addrOf_seed00] at haddr
    exact addr7f_ne haddr
  · rw [Restores, getMnemonic_of_not_held sampleEnv_lawful hnil]
    simp only [if_neg hnil]
    exact not_le.mpr (sampleEnv_lawful.words seed7f)

end Tfs.Utils
