import Tfs.Proto
import Tfs.Db.DbApi
import Tfs.Lib.Word

/-! Selection of unspent outputs (`TxHelper::FindUtxo`) and the value carried by inputs and outputs.

    All outputs of the given addresses are collected, sorted by descending value and taken from the
    front, at most `needUtxoAmount` of them, into a multiset ordered by ascending value; `total` is
    the sum of the taken values in 64-bit words. The theorems say what was taken and what `total`
    is worth in the natural numbers. -/

namespace Tfs.Ca
open Tfs.Db

/-- `TxHelper::Utxo`. -/
structure Utxo where
  value : UInt64
  addr : Str
  hash : Str
  n : UInt32
  deriving DecidableEq, Repr

/-- `TxHelper::kMaxVinSize`. -/
def kMaxVinSize : ℕ := 1000

def isSpace (b : UInt8) : Bool := b = 32 || (9 ≤ b && b ≤ 13)

def isDigit (b : UInt8) : Bool := 48 ≤ b && b ≤ 57

def digitsToNat (s : Str) : ℕ := s.foldl (fun acc b => 10 * acc + (b.toNat - 48)) 0

/-- `std::stol` in base ten: leading blanks and one sign are skipped, the number ends at the first
    other character. `none` is an exception (`invalid_argument` or `out_of_range`). -/
def stol (s : Str) : Option Int64 :=
  let body := s.dropWhile isSpace
  let (negative, digits) := match body with
    | 45 :: rest => (true, rest.takeWhile isDigit)
    | 43 :: rest => (false, rest.takeWhile isDigit)
    | rest => (false, rest.takeWhile isDigit)
  let value : ℤ := if negative then -digitsToNat digits else digitsToNat digits
  if digits = [] then none
  else if value < -2 ^ 63 ∨ 2 ^ 63 ≤ value then none
  else some (Int64.ofInt value)

/-- The value of an output as stored: one number, or several joined by `_` that are added up. -/
def parseUtxoValue (balance : Str) : Option UInt64 :=
  if underline ∈ balance then
    (splitString balance underline).foldlM (fun acc s => (stol s).map fun v => acc + v.toUInt64) 0
  else (stol balance).map Int64.toUInt64

/-- The value of output `hash` of `addr`, `none` if it is not in the store or not a number. -/
def utxoValue (db : DBReader) (addr hash : Str) : Option UInt64 :=
  (db.getUtxoValueByUtxoHashs hash addr).toOption.bind parseUtxoValue

/-- The inner loop of `FindUtxo`: the outputs of one address; unreadable ones are skipped. -/
def utxosOf (db : DBReader) (addr : Str) : List Str → Except Exit (List Utxo)
  | [] => .ok []
  | hash :: rest =>
    match db.getUtxoValueByUtxoHashs hash addr with
    | .error _ => utxosOf db addr rest
    | .ok balance =>
      match parseUtxoValue balance with
      | none => .error .exception
      | some value => do
        let more ← utxosOf db addr rest
        .ok (⟨value, addr, hash, 0⟩ :: more)

/-- The outer loop of `FindUtxo`: all outputs of all addresses. -/
def allUtxos (db : DBReader) : List Str → Except Exit (List Utxo)
  | [] => .ok []
  | addr :: rest =>
    match db.getUtxoHashsByAddress addr with
    | .error _ => .error (.ret (-1))
    | .ok vecUtxoHashs => do
      let here ← utxosOf db addr (sortedSet vecUtxoHashs)
      let more ← allUtxos db rest
      .ok (here ++ more)

/-- `std::sort` by descending value. It is not stable, so any sorted permutation will do. -/
structure UtxoSort where
  sort : List Utxo → List Utxo
  perm : ∀ l, (sort l).Perm l
  sorted : ∀ l, (sort l).Pairwise fun u1 u2 => u2.value ≤ u1.value

/-- One such order: insertion sort. -/
def UtxoSort.insertion : UtxoSort where
  sort l := l.insertionSort fun u1 u2 => u2.value ≤ u1.value
  perm l := List.perm_insertionSort _ l
  sorted l :=
    have : Std.Total fun u1 u2 : Utxo => u2.value ≤ u1.value := ⟨fun _ _ => UInt64.le_total _ _⟩
    have : IsTrans Utxo fun u1 u2 => u2.value ≤ u1.value := ⟨fun _ _ _ h h' => UInt64.le_trans h' h⟩
    List.pairwise_insertionSort _ l

/-- `setOutUtxos.insert`: behind the elements of equal value, as `std::multiset` does. -/
def insertUtxo (u : Utxo) (set : List Utxo) : List Utxo :=
  set.orderedInsert (fun u1 u2 => u1.value < u2.value) u

/-- The filling loop of `FindUtxo` over the sorted outputs, with `total` so far. -/
def fillUtxos (needUtxoAmount : ℕ) : List Utxo → UInt64 → List Utxo → UInt64 × List Utxo
  | [], total, setOutUtxos => (total, setOutUtxos)
  | it :: rest, total, setOutUtxos =>
    if setOutUtxos.length = needUtxoAmount then (total, setOutUtxos)
    else fillUtxos needUtxoAmount rest (total + it.value) (insertUtxo it setOutUtxos)

/-- What `FindUtxo` uses besides its arguments: the store, the order `std::sort` leaves, and the
    answer of the network to `SendConfirmUtxoHashReq`. -/
structure UtxoEnv where
  db : DBReader
  sortUtxos : UtxoSort
  sendConfirmUtxoHashReq : List Utxo → ℤ

/-- `TxHelper::FindUtxo`, called with an empty output set: the total and the outputs taken. -/
def findUtxo (env : UtxoEnv) (fromAddr : List Str) (needUtxoAmount : ℕ) (isFindUtxo : Bool) :
    Except Exit (UInt64 × List Utxo) := do
  let utxos ← allUtxos env.db fromAddr
  let found :=
    if 0 < needUtxoAmount then fillUtxos needUtxoAmount (env.sortUtxos.sort utxos) 0 [] else (0, [])
  Exit.when (isFindUtxo && env.sendConfirmUtxoHashReq found.2 != 0) (-2)
  .ok found

/-! ### The value of inputs and outputs -/

/-- The previous outputs listed in the input of `owner`. -/
def prevOutsOf (utxos : List Utxo) (owner : Str) : List CTxPrevOutput :=
  (utxos.filter fun utxo => utxo.addr = owner).map fun utxo => ⟨utxo.hash, utxo.n⟩

/-- `setTxowners`: the owners of the outputs taken. -/
def txOwners (utxos : List Utxo) : List Str := sortedSet (utxos.map Utxo.addr)

/-- The value of the outputs referenced by inputs, each input read with its owner. -/
def inputValue (db : DBReader) (owners : List Str) (vins : List CTxInput) : ℕ :=
  ((owners.zip vins).map fun p =>
    (p.2.prevOut.map fun o => ((utxoValue db p.1 o.hash).getD 0).toNat).sum).sum

/-- The outputs carry exactly the value of the inputs, counted in the natural numbers: no output is
    negative and the sums agree. -/
def Conserves (db : DBReader) (owners : List Str) (vins : List CTxInput) (vouts : List CTxOutput) :
    Prop :=
  (∀ o ∈ vouts, 0 ≤ o.value.toInt) ∧
    (vouts.map fun o => o.value.toInt).sum = (inputValue db owners vins : ℤ)

instance (db : DBReader) (owners : List Str) (vins : List CTxInput) (vouts : List CTxOutput) :
    Decidable (Conserves db owners vins vouts) :=
  inferInstanceAs (Decidable (_ ∧ _))

theorem inputValue_append {db : DBReader} {owners owners' : List Str} {vins vins' : List CTxInput}
    (h : owners.length = vins.length) :
    inputValue db (owners ++ owners') (vins ++ vins')
      = inputValue db owners vins + inputValue db owners' vins' := by
  simp [inputValue, List.zip_append h]

/-- Outputs that were written as unsigned words conserve value exactly when no word reaches `2 ^ 63`
    and the words add up to the inputs. -/
theorem conserves_iff_words {db : DBReader} {owners : List Str} {vins : List CTxInput}
    {vouts : List CTxOutput} {ws : List UInt64}
    (h : vouts.map CTxOutput.value = ws.map UInt64.toInt64) :
    Conserves db owners vins vouts ↔
      (∀ w ∈ ws, w.toNat < 2 ^ 63) ∧ (ws.map UInt64.toNat).sum = inputValue db owners vins := by
  have hall : (∀ o ∈ vouts, 0 ≤ o.value.toInt) ↔ ∀ w ∈ ws, w.toNat < 2 ^ 63 := by
    rw [← List.forall_mem_map (P := fun v : Int64 => 0 ≤ v.toInt) (f := CTxOutput.value), h,
      List.forall_mem_map]
    simp only [Word.toInt64_nonneg_iff]
  rw [Conserves, hall]
  refine and_congr_right fun hlt => ?_
  have hsum : (vouts.map fun o => o.value.toInt).sum = ((ws.map UInt64.toNat).sum : ℤ) := by
    have hmap : (vouts.map fun o => o.value.toInt) = ws.map fun w => (w.toNat : ℤ) := by
      have := congrArg (List.map Int64.toInt) h
      rw [List.map_map, List.map_map] at this
      exact this.trans (List.map_congr_left fun w hw => Word.toInt64_of_lt (hlt w hw))
    rw [hmap]
    clear hmap h hall hlt
    induction ws with
    | nil => rfl
    | cons w ws ih => simp [ih]
  rw [hsum]
  exact Int.natCast_inj

/-- The value of a set of outputs in the natural numbers. -/
def utxosValue (utxos : List Utxo) : ℕ := (utxos.map fun u => u.value.toNat).sum

/-! ### What `FindUtxo` selects -/

theorem utxosOf_value (db : DBReader) (addr : Str) : ∀ (hashs : List Str) {us : List Utxo},
    utxosOf db addr hashs = .ok us →
      ∀ u ∈ us, u.addr = addr ∧ utxoValue db u.addr u.hash = some u.value
  | [], us, h => by
    cases h
    simp
  | hash :: rest, us, h => by
    simp only [utxosOf] at h
    split at h
    · exact utxosOf_value db addr rest h
    · rename_i balance hbal
      split at h
      · cases h
      · rename_i value hval
        obtain ⟨more, hmore, h⟩ := bind_eq_ok.mp h
        cases h
        intro u hu
        rcases List.mem_cons.mp hu with rfl | hu
        · exact ⟨rfl, by simp [utxoValue, hbal, Except.toOption, hval]⟩
        · exact utxosOf_value db addr rest hmore u hu

theorem allUtxos_value (db : DBReader) : ∀ (addrs : List Str) {us : List Utxo},
    allUtxos db addrs = .ok us →
      ∀ u ∈ us, u.addr ∈ addrs ∧ utxoValue db u.addr u.hash = some u.value
  | [], us, h => by
    cases h
    simp
  | addr :: rest, us, h => by
    simp only [allUtxos] at h
    split at h
    · cases h
    · rename_i hashs _
      obtain ⟨here, hhere, h⟩ := bind_eq_ok.mp h
      obtain ⟨more, hmore, h⟩ := bind_eq_ok.mp h
      cases h
      intro u hu
      rcases List.mem_append.mp hu with hu | hu
      · obtain ⟨ha, hv⟩ := utxosOf_value db addr _ hhere u hu
        exact ⟨by rw [ha]; exact List.mem_cons_self, hv⟩
      · obtain ⟨ha, hv⟩ := allUtxos_value db rest hmore u hu
        exact ⟨List.mem_cons_of_mem _ ha, hv⟩

theorem insertUtxo_perm (u : Utxo) (set : List Utxo) : (insertUtxo u set).Perm (u :: set) :=
  List.perm_orderedInsert _ u set

theorem utxosValue_perm {us us' : List Utxo} (h : us.Perm us') : utxosValue us = utxosValue us' :=
  (h.map _).sum_eq

theorem utxosValue_cons (u : Utxo) (us : List Utxo) :
    utxosValue (u :: us) = u.value.toNat + utxosValue us := by simp [utxosValue]

/-- The filling loop takes its outputs from the list and keeps `total` equal to their value modulo
    `2 ^ 64`. -/
theorem fillUtxos_spec (need : ℕ) : ∀ (us : List Utxo) (total : UInt64) (set : List Utxo),
    total.toNat = utxosValue set % 2 ^ 64 →
      (fillUtxos need us total set).1.toNat = utxosValue (fillUtxos need us total set).2 % 2 ^ 64 ∧
        ∀ u ∈ (fillUtxos need us total set).2, u ∈ us ∨ u ∈ set
  | [], total, set, h => ⟨h, fun _ hu => .inr hu⟩
  | it :: rest, total, set, h => by
    rw [fillUtxos]
    split_ifs with hfull
    · exact ⟨h, fun _ hu => .inr hu⟩
    · have hnext : (total + it.value).toNat = utxosValue (insertUtxo it set) % 2 ^ 64 := by
        rw [utxosValue_perm (insertUtxo_perm it set), utxosValue_cons, UInt64.toNat_add, h]
        omega
      obtain ⟨htotal, hmem⟩ := fillUtxos_spec need rest _ _ hnext
      refine ⟨htotal, fun u hu => ?_⟩
      rcases hmem u hu with hu | hu
      · exact .inl (List.mem_cons_of_mem _ hu)
      · rcases List.mem_cons.mp ((insertUtxo_perm it set).mem_iff.mp hu) with rfl | hu
        · exact .inl List.mem_cons_self
        · exact .inr hu

/-- `FindUtxo` returns outputs of the given addresses with their stored values, and their value
    modulo `2 ^ 64` as `total`. -/
theorem findUtxo_spec {env : UtxoEnv} {fromAddr : List Str} {need : ℕ} {isFindUtxo : Bool}
    {total : UInt64} {set : List Utxo}
    (h : findUtxo env fromAddr need isFindUtxo = .ok (total, set)) :
    total.toNat = utxosValue set % 2 ^ 64 ∧
      ∀ u ∈ set, u.addr ∈ fromAddr ∧ utxoValue env.db u.addr u.hash = some u.value := by
  obtain ⟨utxos, hutxos, h⟩ := bind_eq_ok.mp h
  obtain ⟨-, -, h⟩ := bind_eq_ok.mp h
  have hpair := Except.ok.inj h
  split_ifs at hpair with hneed
  · obtain ⟨htotal, hmem⟩ := fillUtxos_spec need (env.sortUtxos.sort utxos) 0 [] rfl
    rw [hpair] at htotal hmem
    refine ⟨htotal, fun u hu => ?_⟩
    rcases hmem u hu with hu | hu
    · exact allUtxos_value env.db fromAddr hutxos u ((env.sortUtxos.perm utxos).mem_iff.mp hu)
    · cases hu
  · simp only [Prod.mk.injEq] at hpair
    obtain ⟨rfl, rfl⟩ := hpair
    exact ⟨rfl, by simp⟩

/-! ### Inputs built from a selection -/

/-- Summing over owners, and for each over its outputs, is summing over all outputs. -/
theorem sum_by_owner (f : Utxo → ℕ) {owners : List Str} (hnodup : owners.Nodup) :
    ∀ utxos : List Utxo, (∀ u ∈ utxos, u.addr ∈ owners) →
      (owners.map fun o => ((utxos.filter fun u => u.addr = o).map f).sum).sum = (utxos.map f).sum
  | [], _ => by simp
  | u :: us, hmem => by
    have hsplit : ∀ o, (((u :: us).filter fun u => u.addr = o).map f).sum
        = (if u.addr = o then f u else 0) + ((us.filter fun u => u.addr = o).map f).sum := by
      intro o
      by_cases ho : u.addr = o <;> simp [ho]
    have hone : (owners.map fun o => if u.addr = o then f u else 0).sum = f u := by
      rw [← List.sum_toFinset _ hnodup, Finset.sum_ite_eq,
        if_pos (List.mem_toFinset.mpr (hmem u List.mem_cons_self))]
    simp only [hsplit, List.sum_map_add, List.map_cons, List.sum_cons]
    rw [hone, sum_by_owner f hnodup us fun v hv => hmem v (List.mem_cons_of_mem _ hv)]

/-- Inputs that list, owner by owner, the outputs of a selection carry the selection's value. -/
theorem inputValue_of_selection {db : DBReader} {utxos : List Utxo} {vins : List CTxInput}
    (hval : ∀ u ∈ utxos, utxoValue db u.addr u.hash = some u.value)
    (hvins : vins.map CTxInput.prevOut = (txOwners utxos).map (prevOutsOf utxos)) :
    inputValue db (txOwners utxos) vins = utxosValue utxos := by
  have hzip : inputValue db (txOwners utxos) vins
      = ((txOwners utxos).map fun o =>
          ((utxos.filter fun u => u.addr = o).map fun u => u.value.toNat).sum).sum := by
    rw [inputValue]
    congr 1
    generalize txOwners utxos = owners at hvins ⊢
    induction owners generalizing vins with
    | nil => simp
    | cons o owners ih =>
      cases vins with
      | nil => simp at hvins
      | cons vin vins =>
        simp only [List.map_cons, List.cons.injEq] at hvins
        rw [List.zip_cons_cons, List.map_cons, List.map_cons, ih hvins.2]
        congr 2
        rw [hvins.1, prevOutsOf, List.map_map]
        refine List.map_congr_left fun u hu => ?_
        obtain ⟨hu, ho⟩ := List.mem_filter.mp hu
        simp [← of_decide_eq_true ho, hval u hu]
  have hnodup : (txOwners utxos).Nodup := sortedSet_nodup _
  rw [hzip, sum_by_owner _ hnodup utxos fun u hu => mem_sortedSet.mpr (List.mem_map_of_mem hu),
    utxosValue]

end Tfs.Ca
