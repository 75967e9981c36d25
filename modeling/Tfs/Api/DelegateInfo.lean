import Tfs.Proto
import Tfs.Db.DbApi
import Tfs.Db.Schema
import Tfs.Lib.Word

/-! What the investors of a node have invested (`_ApiGetDelegateInfoReq` in
`api/interface/http_api.cpp` and `GetAllInvestAddressReqImpl` in `ca/interface.cpp`).
    The second adds up the invest outputs of every investor. The first inserts the value of each
    output into a map under the investor, and an insertion leaves an entry that is there as it is.
    -/

namespace Tfs.Api.DelegateInfo

open Tfs.Db

/-! ### Reads -/

/-- `DBReader::GetInvestAddrsByBonusAddr`. -/
def getInvestAddrsByBonusAddr (db : DBReader) (bonusAddr : Str) : Except DBStatus (List Str) :=
  (db.readData (kBonusAddr2InvestAddrKey ++ bonusAddr)).map fun value => splitString value underline

/-- `DBReader::GetBonusAddrInvestUtxosByBonusAddr`. -/
def getBonusAddrInvestUtxosByBonusAddr (db : DBReader) (addr address : Str) : Except DBStatus (List Str) :=
  (db.readData (kBonusAddrInvestAddr2InvestAddrUtxo ++ addr ++ [underline] ++ address)).map fun value =>
    splitString value underline

/-- `DBReader::GetTransactionByHash`. -/
def getTransactionByHash (db : DBReader) (txHash : Str) : Except DBStatus Str :=
  db.readData (kTransactionHash2TransactionRawKey ++ txHash)

/-- The address of the invest outputs, and what is used besides. -/
structure DelegateEnv where
  kVirtualInvestAddr : Str
  kVersion : Str
  isValidAddress : Str → Bool
  parseFromString : Str → Option CTransaction

variable (env : DelegateEnv) (db : DBReader)

/-! ### `_ApiGetDelegateInfoReq` -/

/-- `addHexPrefix`. -/
def addHexPrefix (hexStr : Str) : Str := if hexStr = [] then hexStr else str "0x" ++ hexStr

/-- `info.insert`: an entry that is there stays. -/
def insertNew (info : StdMap Str Str) (entry : Str × Str) : StdMap Str Str :=
  match info entry.1 with
  | some _ => info
  | none => info.set entry.1 entry.2

/-- `GetDelegateAck`. -/
structure GetDelegateAck where
  code : ℤ
  message : Str
  info : StdMap Str Str

/-- The loop over the outputs, which ends with the first one of the address. -/
def sumInvestAmount (tx : CTransaction) : UInt64 :=
  match tx.utxo.vout.find? (·.addr = env.kVirtualInvestAddr) with
  | none => 0
  | some vout => 0 + vout.value.toUInt64

/-- The loop over the UTXOs of an investor. A failure ends this loop only. -/
def insertUtxos (address : Str) : List Str → GetDelegateAck → GetDelegateAck
  | [], ack => ack
  | utxo :: utxos, ack =>
    match getTransactionByHash db utxo with
    | .error _ => { ack with code := -4, message := str "Database abnormal, Get transaction by hash failed!" }
    | .ok strTx =>
      match env.parseFromString strTx with
      | none => { ack with code := -5, message := str "Failed to parse transaction body!" }
      | some tx =>
        insertUtxos address utxos
          { ack with info := insertNew ack.info (addHexPrefix address,
            decimal (sumInvestAmount env tx).toNat) }

/-- The loop over the investors. -/
def insertInvestors (addr : Str) : List Str → GetDelegateAck → GetDelegateAck
  | [], ack => ack
  | address :: addresses, ack =>
    match getBonusAddrInvestUtxosByBonusAddr db addr address with
    | .error _ =>
      { ack with code := -3, message := str "Database abnormal, Get bonus addr invest utxos by bonusAddr failed!" }
    | .ok utxos => insertInvestors addr addresses (insertUtxos env db address utxos ack)

/-- The address of the request, without its prefix. -/
def bareAddr (addr : Str) : Str := if addr.take 2 = str "0x" then addr.drop 2 else addr

/-- The body of the `do`, which every failure outside the inner loop leaves. -/
def collectInfo (addr : Str) : GetDelegateAck :=
  let ack : GetDelegateAck := ⟨0, str "success", .empty⟩
  let collect := fun addresses : List Str =>
    if addresses.length + 1 > 999 then
      { ack with code := -2, message := str "The account number to be invested have been invested by 999 people!" }
    else insertInvestors env db addr addresses ack
  match getInvestAddrsByBonusAddr db addr with
  | .ok addresses => collect addresses
  | .error .notFound => collect []
  | .error _ => { ack with code := -1, message := str "Database abnormal, Get invest addrs by node failed!" }

/-- `_ApiGetDelegateInfoReq`. -/
def apiGetDelegateInfoReq (reqAddr : Str) : GetDelegateAck :=
  let ack := collectInfo env db (bareAddr reqAddr)
  if ack.code ≠ 0 then { ack with info := .empty } else ack

/-! ### `GetAllInvestAddressReqImpl` -/

/-- `InvestAddressItem`. -/
structure InvestAddressItem where
  addr : Str
  value : UInt64
  deriving DecidableEq

/-- `GetAllInvestAddressAck`. -/
structure GetAllInvestAddressAck where
  version : Str
  addr : Str
  list : List InvestAddressItem
  code : ℤ
  message : Str

/-- The loop over the outputs. -/
def addVouts (total : UInt64) (tx : CTransaction) : UInt64 :=
  tx.utxo.vout.foldl (fun total vout =>
    if vout.addr = env.kVirtualInvestAddr then total + vout.value.toUInt64 else total) total

/-- The loop over the UTXOs; the result of `ParseFromString` is not looked at. -/
def addUtxos : List Str → UInt64 → Option UInt64
  | [], total => some total
  | item :: utxos, total =>
    match getTransactionByHash db item with
    | .error _ => none
    | .ok strTxRaw => addUtxos utxos (addVouts env total ((env.parseFromString strTxRaw).getD .cleared))

/-- The loop over the investors. -/
def addItems (address : Str) : List Str → GetAllInvestAddressAck → ℤ × GetAllInvestAddressAck
  | [], ack => (0, { ack with code := 0, message := str "success" })
  | addr :: addresses, ack =>
    match getBonusAddrInvestUtxosByBonusAddr db address addr with
    | .error _ => (-4, ack)
    | .ok utxos =>
      match addUtxos env db utxos 0 with
      | none => (-5, ack)
      | some total => addItems address addresses { ack with list := ack.list ++ [⟨addr, total⟩] }

/-- `GetAllInvestAddressReqImpl`. -/
def getAllInvestAddressReqImpl (address : Str) : ℤ × GetAllInvestAddressAck :=
  let ack : GetAllInvestAddressAck := ⟨env.kVersion, [], [], 0, []⟩
  if address = [] ∨ !env.isValidAddress address then (-1, ack)
  else
    let ack := { ack with addr := address }
    match getInvestAddrsByBonusAddr db address with
    | .error _ => (-2, ack)
    | .ok addresses => if addresses.length = 0 then (-3, ack) else addItems env db address addresses ack

/-! ### A state in which all reads succeed -/

/-- What the reads for an address give; every transaction has one invest output. -/
structure Reads (addr : Str) where
  addresses : List Str
  utxos : Str → List Str
  tx : Str → CTransaction
  addresses_ok : getInvestAddrsByBonusAddr db addr = .ok addresses
  utxos_ok : ∀ a ∈ addresses, getBonusAddrInvestUtxosByBonusAddr db addr a = .ok (utxos a)
  tx_ok : ∀ a ∈ addresses, ∀ u ∈ utxos a, ∃ raw, getTransactionByHash db u = .ok raw ∧
    env.parseFromString raw = some (tx u)
  one_output : ∀ a ∈ addresses, ∀ u ∈ utxos a, ∃ vout,
    (tx u).utxo.vout.filter (·.addr = env.kVirtualInvestAddr) = [vout]

variable {env db} {addr : Str}

/-- The value of an invest UTXO. -/
def Reads.value (reads : Reads env db addr) (utxo : Str) : UInt64 := sumInvestAmount env (reads.tx utxo)

/-- The sum over the invest UTXOs of an investor, in words. -/
def Reads.total (reads : Reads env db addr) (address : Str) : UInt64 :=
  ((reads.utxos address).map reads.value).foldl (· + ·) 0

theorem addHexPrefix_injective : Function.Injective addHexPrefix := by
  intro s t h
  have hne : ∀ r : Str, str "0x" ++ r ≠ [] := fun r h => by
    exact absurd (List.append_eq_nil_iff.mp h).1 (by decide)
  simp only [addHexPrefix] at h
  split_ifs at h with hs ht ht
  · rw [hs, ht]
  · exact absurd (h.symm.trans hs) (hne t)
  · exact absurd (h.trans ht) (hne s)
  · exact List.append_cancel_left h

/-- The loop with the break and the loop without it agree on a transaction with one invest output. -/
theorem addVouts_eq {tx : CTransaction} {vout : CTxOutput}
    (h : tx.utxo.vout.filter (·.addr = env.kVirtualInvestAddr) = [vout])
    (total : UInt64) : addVouts env total tx = total + sumInvestAmount env tx := by
  have hfold : ∀ (vouts : List CTxOutput) (total : UInt64),
      vouts.foldl (fun total vout =>
          if vout.addr = env.kVirtualInvestAddr then total + vout.value.toUInt64 else total) total =
        (vouts.filter (·.addr = env.kVirtualInvestAddr)).foldl (fun total vout =>
          total + vout.value.toUInt64) total := by
    intro vouts
    induction vouts with
    | nil => exact fun _ => rfl
    | cons v vouts ih =>
      intro total
      rw [List.foldl_cons, ih, List.filter_cons]
      by_cases hv : v.addr = env.kVirtualInvestAddr <;> simp [hv]
  rw [addVouts, hfold, h, sumInvestAmount, ← List.head?_filter, h]
  simp

/-! ### The totals -/

theorem Reads.addUtxos_eq (reads : Reads env db addr) {a : Str} (ha : a ∈ reads.addresses) :
    ∀ {utxos : List Str},
    utxos ⊆ reads.utxos a → ∀ total, addUtxos env db utxos total =
      some ((utxos.map reads.value).foldl (· + ·) total)
  | [], _, _ => rfl
  | u :: utxos, hsub, total => by
    obtain ⟨hu, hutxos⟩ := List.cons_subset.mp hsub
    obtain ⟨raw, hread, hparse⟩ := reads.tx_ok a ha u hu
    obtain ⟨vout, hvout⟩ := reads.one_output a ha u hu
    rw [addUtxos, hread]
    dsimp only
    rw [hparse, Option.getD_some, addVouts_eq hvout, reads.addUtxos_eq ha hutxos]
    rfl

theorem Reads.addItems_eq (reads : Reads env db addr) : ∀ {addresses : List Str},
    addresses ⊆ reads.addresses →
    ∀ ack, addItems env db addr addresses ack = (0, { ack with
      list := ack.list ++ addresses.map fun a => ⟨a, reads.total a⟩, code := 0, message := str "success" })
  | [], _, ack => by rw [addItems, List.map_nil, List.append_nil]
  | a :: addresses, hsub, ack => by
    obtain ⟨ha, haddresses⟩ := List.cons_subset.mp hsub
    rw [addItems, reads.utxos_ok a ha]
    dsimp only
    rw [reads.addUtxos_eq ha (List.Subset.refl _)]
    dsimp only
    rw [reads.addItems_eq haddresses, List.append_assoc]
    rfl

/-- The totals that `GetAllInvestAddressReqImpl` gives. -/
theorem Reads.getAll_eq (reads : Reads env db addr) (hvalid : env.isValidAddress addr) (haddr : addr ≠ [])
    (hsome : reads.addresses ≠ []) :
    (getAllInvestAddressReqImpl env db addr).1 = 0 ∧
      (getAllInvestAddressReqImpl env db addr).2.list = reads.addresses.map fun a => ⟨a, reads.total a⟩ := by
  have hbad : ¬ (addr = [] ∨ !env.isValidAddress addr) := by simp [haddr, hvalid]
  rw [getAllInvestAddressReqImpl, if_neg hbad, reads.addresses_ok]
  dsimp only
  rw [if_neg (by simpa using hsome), reads.addItems_eq (List.Subset.refl _)]
  exact ⟨rfl, List.nil_append _⟩

/-! ### What is reported -/

/-- The first entry of a key is the one that stays. -/
theorem foldl_insertNew (entries : List (Str × Str)) : ∀ (info : StdMap Str Str) (key : Str),
    entries.foldl insertNew info key = (info key).or ((entries.find? (·.1 = key)).map Prod.snd) := by
  induction entries with
  | nil => simp
  | cons entry entries ih =>
    intro info key
    rw [List.foldl_cons, ih, insertNew, List.find?_cons]
    by_cases heq : entry.1 = key
    · subst heq
      cases hinfo : info entry.1 with
      | none => simp
      | some value => simp [hinfo]
    · cases hinfo : info entry.1 with
      | none => simp [heq, StdMap.set_ne info entry.2 (Ne.symm heq)]
      | some value => simp [heq]

/-- The entries that are inserted for an investor. -/
def Reads.entriesOf (reads : Reads env db addr) (utxos : List Str) (address : Str) : List (Str × Str) :=
  utxos.map fun u => (addHexPrefix address, decimal (reads.value u).toNat)

theorem Reads.insertUtxos_eq (reads : Reads env db addr) {a : Str} (ha : a ∈ reads.addresses) :
    ∀ {utxos : List Str},
    utxos ⊆ reads.utxos a → ∀ ack, insertUtxos env db a utxos ack =
      { ack with info := (reads.entriesOf utxos a).foldl insertNew ack.info }
  | [], _, _ => rfl
  | u :: utxos, hsub, ack => by
    obtain ⟨hu, hutxos⟩ := List.cons_subset.mp hsub
    obtain ⟨raw, hread, hparse⟩ := reads.tx_ok a ha u hu
    rw [insertUtxos, hread]
    dsimp only
    rw [hparse]
    dsimp only
    rw [reads.insertUtxos_eq ha hutxos]
    rfl

theorem Reads.insertInvestors_eq (reads : Reads env db addr) : ∀ {addresses : List Str},
    addresses ⊆ reads.addresses →
    ∀ ack, insertInvestors env db addr addresses ack =
      { ack with info := (addresses.flatMap fun a =>
        reads.entriesOf (reads.utxos a) a).foldl insertNew ack.info }
  | [], _, _ => rfl
  | a :: addresses, hsub, ack => by
    obtain ⟨ha, haddresses⟩ := List.cons_subset.mp hsub
    rw [insertInvestors, reads.utxos_ok a ha]
    dsimp only
    rw [reads.insertUtxos_eq ha (List.Subset.refl _), reads.insertInvestors_eq haddresses, List.flatMap_cons,
      List.foldl_append]

/-- Of the entries of an investor the first is that of his first UTXO. -/
theorem Reads.find_entries (reads : Reads env db addr) {a : Str} : ∀ {addresses : List Str}, a ∈ addresses →
    ((addresses.flatMap fun a => reads.entriesOf (reads.utxos a) a).find?
      (·.1 = addHexPrefix a)).map Prod.snd =
      (reads.utxos a).head?.map fun u => decimal (reads.value u).toNat := by
  intro addresses
  have hsame : (reads.entriesOf (reads.utxos a) a).find? (·.1 = addHexPrefix a) =
    (reads.entriesOf (reads.utxos a) a).head? := by
    rw [Reads.entriesOf]
    cases reads.utxos a <;> simp
  have hother : ∀ b, b ≠ a → (reads.entriesOf (reads.utxos b) b).find? (·.1 = addHexPrefix a) = none := by
    intro b hne
    rw [List.find?_eq_none, Reads.entriesOf]
    simp only [List.mem_map, decide_eq_true_eq]
    rintro entry ⟨u, -, rfl⟩ heq
    exact hne (addHexPrefix_injective heq)
  induction addresses with
  | nil => exact nofun
  | cons b addresses ih =>
    intro hmem
    rw [List.flatMap_cons, List.find?_append]
    rcases eq_or_ne b a with rfl | hne
    · rw [hsame]
      cases hutxos : reads.utxos b with
      | cons u utxos => simp [Reads.entriesOf]
      | nil =>
        -- without a UTXO there is no entry, here or later
        have hnone : ∀ {addresses : List Str},
            (addresses.flatMap fun a => reads.entriesOf (reads.utxos a) a).find?
              (·.1 = addHexPrefix b) = none := by
          intro addresses
          rw [List.find?_eq_none]
          simp only [List.mem_flatMap, decide_eq_true_eq]
          rintro entry ⟨c, -, hentry⟩ heq
          obtain ⟨u, hu, rfl⟩ := List.mem_map.mp hentry
          obtain rfl := addHexPrefix_injective heq
          rw [hutxos] at hu
          cases hu
        rw [hnone]
        rfl
    · rw [hother b hne, Option.none_or]
      exact ih ((List.mem_cons.mp hmem).resolve_left (Ne.symm hne))

/-- The answer where all reads succeed. -/
theorem Reads.api_eq {reqAddr : Str} (reads : Reads env db (bareAddr reqAddr))
    (hfew : reads.addresses.length < 999) :
    (apiGetDelegateInfoReq env db reqAddr).code = 0 ∧ ∀ a ∈ reads.addresses,
      (apiGetDelegateInfoReq env db reqAddr).info (addHexPrefix a) =
        (reads.utxos a).head?.map fun u => decimal (reads.value u).toNat := by
  have hmany : ¬ reads.addresses.length + 1 > 999 := by omega
  have hrun : collectInfo env db (bareAddr reqAddr) =
      ⟨0, str "success", (reads.addresses.flatMap fun a =>
        reads.entriesOf (reads.utxos a) a).foldl insertNew .empty⟩ := by
    rw [collectInfo, reads.addresses_ok]
    dsimp only
    rw [if_neg hmany, reads.insertInvestors_eq (List.Subset.refl _)]
  have hapi : apiGetDelegateInfoReq env db reqAddr = collectInfo env db (bareAddr reqAddr) := by
    rw [apiGetDelegateInfoReq, hrun]
    rfl
  rw [hapi, hrun]
  refine ⟨rfl, fun a ha => ?_⟩
  dsimp only
  rw [foldl_insertNew, StdMap.empty_apply, Option.none_or, reads.find_entries ha]

/-- The first UTXO has the total when the others add up to nothing, in words. -/
theorem Reads.total_eq_first_iff (reads : Reads env db addr) {a u : Str} {utxos : List Str}
    (h : reads.utxos a = u :: utxos) :
    decimal (reads.value u).toNat = decimal (reads.total a).toNat ↔
      (utxos.map fun u => (reads.value u).toNat).sum % 2 ^ 64 = 0 := by
  have htotal : (reads.total a).toNat =
      ((reads.value u).toNat + (utxos.map fun u => (reads.value u).toNat).sum) % 2 ^ 64 := by
    rw [Reads.total, Word.foldl_add_toNat, h, List.map_map, List.map_cons, List.sum_cons,
      UInt64.toNat_zero, Nat.zero_add]
    rfl
  have hlt := (reads.value u).toNat_lt
  rw [decimal_injective.eq_iff, htotal]
  omega

/-- For every investor the report has the total. -/
def Complete {reqAddr : Str} (reads : Reads env db (bareAddr reqAddr)) : Prop :=
  (apiGetDelegateInfoReq env db reqAddr).code = 0 ∧ ∀ a ∈ reads.addresses,
    (apiGetDelegateInfoReq env db reqAddr).info (addHexPrefix a) = some (decimal (reads.total a).toNat)

/-- The investor has UTXOs, and those behind the first add up to nothing, in words. -/
def FirstIsAll (reads : Reads env db addr) (a : Str) : Prop :=
  ∃ first others, reads.utxos a = first :: others ∧
    (others.map fun u => (reads.value u).toNat).sum % 2 ^ 64 = 0

theorem Reads.complete_iff {reqAddr : Str} (reads : Reads env db (bareAddr reqAddr))
    (hfew : reads.addresses.length < 999) :
    Complete reads ↔ ∀ a ∈ reads.addresses, FirstIsAll reads a := by
  obtain ⟨hcode, hinfo⟩ := reads.api_eq hfew
  rw [Complete, and_iff_right hcode]
  refine forall₂_congr fun a ha => ?_
  rw [hinfo a ha, FirstIsAll]
  cases hutxos : reads.utxos a with
  | nil => simp
  | cons u utxos =>
    rw [List.head?_cons, Option.map_some, Option.some_inj, reads.total_eq_first_iff hutxos]
    constructor
    · exact fun h => ⟨u, utxos, rfl, h⟩
    · rintro ⟨first, others, heq, h⟩
      obtain ⟨rfl, rfl⟩ := List.cons.inj heq
      exact h

/-- Where all reads succeed the report is complete exactly when the first UTXO of every investor is
    all there is; the totals are those of `GetAllInvestAddressReqImpl`. -/
theorem report_complete_iff {env : DelegateEnv} {db : DBReader} {reqAddr : Str}
    (reads : Reads env db (bareAddr reqAddr))
    (hfew : reads.addresses.length < 999) :
    (Complete reads ↔ ∀ a ∈ reads.addresses, FirstIsAll reads a) ∧
      (env.isValidAddress (bareAddr reqAddr) → bareAddr reqAddr ≠ [] → reads.addresses ≠ [] →
        (getAllInvestAddressReqImpl env db (bareAddr reqAddr)).1 = 0 ∧
          (getAllInvestAddressReqImpl env db (bareAddr reqAddr)).2.list = reads.addresses.map fun a =>
            ⟨a, reads.total a⟩) :=
  ⟨reads.complete_iff hfew, reads.getAll_eq⟩

/-- A transaction is one byte, the value of its invest output. -/
def sampleEnv : DelegateEnv where
  kVirtualInvestAddr := [0]
  kVersion := []
  isValidAddress := fun _ => true
  parseFromString := fun raw => raw.head?.map fun (b : UInt8) =>
    { CTransaction.cleared with utxo := { CTxUtxo.cleared with vout := [⟨[0], Int64.ofNat b.toNat⟩] } }

/-- The investor `i` of the node `n`, with the UTXOs of the given text; every transaction invests 10. -/
def sampleDb (utxos : Str) : DBReader := ⟨fun key =>
  if key = kBonusAddr2InvestAddrKey ++ str "n" then .found (str "i")
  else if key = kBonusAddrInvestAddr2InvestAddrUtxo ++ str "n_i" then .found utxos
  else .found [10]⟩

/-- The key of a transaction is no other key. -/
theorem sampleDb_transaction (utxos u : Str) : getTransactionByHash (sampleDb utxos) u = .ok [10] := by
  have hkey : ∀ other : Str, other.head? ≠ some 116 → kTransactionHash2TransactionRawKey ++ u ≠ other := by
    rintro _ hother rfl
    exact hother rfl
  have hlookup : (sampleDb utxos).lookup (kTransactionHash2TransactionRawKey ++ u) = .found [10] := by
    rw [sampleDb]
    dsimp only
    rw [if_neg (hkey _ (by decide)), if_neg (hkey _ (by decide))]
  rw [getTransactionByHash, DBReader.readData, if_neg (hkey [] (by decide)), hlookup]

/-- The reads of the node `n`. -/
def sampleReads (utxos : Str) : Reads sampleEnv (sampleDb utxos) (bareAddr (str "n")) where
  addresses := [str "i"]
  utxos := fun _ => splitString utxos underline
  tx := fun _ => { CTransaction.cleared with utxo := { CTxUtxo.cleared with vout := [⟨[0], 10⟩] } }
  addresses_ok := rfl
  utxos_ok := fun a ha => by
    obtain rfl := List.mem_singleton.mp ha
    rfl
  tx_ok := fun _ _ u _ => ⟨[10], sampleDb_transaction utxos u, rfl⟩
  one_output := fun _ _ _ _ => ⟨⟨[0], 10⟩, rfl⟩

/-- One investment: the report is complete. -/
theorem report_complete_one : Complete (sampleReads (str "u")) := by
  refine (report_complete_iff (sampleReads (str "u")) (by decide)).1.mpr fun a _ => ⟨str "u", [], ?_, rfl⟩
  show splitString (str "u") underline = [str "u"]
  decide

/-- Two investments of 10: the report says 10, and the total is 20. -/
theorem second_investment_missing : ¬ ∀ (env : DelegateEnv) (db : DBReader) (reqAddr : Str)
    (reads : Reads env db (bareAddr reqAddr)), reads.addresses.length < 999 → Complete reads := by
  intro h
  have hcomplete := h _ _ (str "n") (sampleReads (str "u_v")) (by decide)
  rw [Reads.complete_iff _ (by decide)] at hcomplete
  obtain ⟨first, others, hutxos, hzero⟩ := hcomplete (str "i") (List.mem_singleton.mpr rfl)
  have htwo : (sampleReads (str "u_v")).utxos (str "i") = [str "u", str "v"] := by
    show splitString (str "u_v") underline = [str "u", str "v"]
    decide
  obtain ⟨-, rfl⟩ := List.cons.inj (htwo.symm.trans hutxos)
  exact absurd hzero (by decide)

end Tfs.Api.DelegateInfo
