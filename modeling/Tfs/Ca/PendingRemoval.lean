import Tfs.Ca.DoubleSpendCache
import Tfs.Lib.OrderedSet
import Tfs.Lib.Sorted

/-! How outputs in use are released (`DoubleSpendCache::Detection` and `CheckLoop` in
    `ca/double_spend_cache.cpp`).

    An entry is removed through its time: `Remove` is given a time and takes out every entry with this time, of
    whatever address. -/

namespace Tfs.Ca.PendingRemoval

/-- `_pending`. -/
abbrev Pending := SortedMap Str DoubleSpendsuc

/-! ### The functions -/

/-- `DoubleSpendCache::Remove`. -/
def remove (pending : Pending) (txtimeKey : UInt64) : Pending :=
  ⟨pending.entries.filter fun iter => iter.2.time ≠ txtimeKey, pending.sorted.filter _⟩

/-- The loop over `toRemove`. -/
def removeAll (pending : Pending) (toRemove : List UInt64) : Pending := toRemove.foldl remove pending

/-- The test of `CheckLoop`: a sum of 64 bits is compared. -/
def isExpired (time nowTime : UInt64) : Bool := time + 1000000 * 30 < nowTime

/-- `DoubleSpendCache::CheckLoop`, which reads the clock for every entry. -/
def checkLoop (clock : Str → UInt64) (pending : Pending) : Pending :=
  removeAll pending ((pending.entries.filter fun item => isExpired item.2.time (clock item.1)).map fun item => item.2.time)

/-- A transaction finds the entry of its first owner, with its own time. -/
def foundBy (pending : Pending) (tx : CTransaction) : Option UInt64 :=
  match tx.utxo.owner with
  | [] => none
  | owner :: _ =>
    match pending.find owner with
    | some found => if tx.time = found.time then some found.time else none
    | none => none

/-- `DoubleSpendCache::Detection`. -/
def detection (block : CBlock) (pending : Pending) : Pending :=
  removeAll pending (block.txs.filterMap (foundBy pending))

/-! ### What is removed -/

/-- An entry stays unless its time is in the list. -/
theorem mem_removeAll {e : Str × DoubleSpendsuc} : ∀ {toRemove : List UInt64} {pending : Pending},
    e ∈ (removeAll pending toRemove).entries ↔ e ∈ pending.entries ∧ e.2.time ∉ toRemove
  | [], _ => by simp [removeAll]
  | time :: toRemove, pending => by
    rw [removeAll, List.foldl_cons, ← removeAll, mem_removeAll, remove, List.mem_filter, List.mem_cons, and_assoc, not_or]
    simp

/-- The entry is older than 30 seconds when the loop comes to it. -/
def Old (clock : Str → UInt64) (e : Str × DoubleSpendsuc) : Prop := e.2.time.toNat + 30 * 1000000 < (clock e.1).toNat

/-- The entry is that of the first owner of a transaction of the block, with the same time. -/
def Spent (block : CBlock) (e : Str × DoubleSpendsuc) : Prop :=
  ∃ tx ∈ block.txs, tx.utxo.owner.head? = some e.1 ∧ tx.time = e.2.time

/-- Both functions remove what they are meant to remove and nothing else. -/
structure RemovesPrecisely (clock : Str → UInt64) (block : CBlock) (pending : Pending) : Prop where
  detection : ∀ e, e ∈ (detection block pending).entries ↔ e ∈ pending.entries ∧ ¬ Spent block e
  checkLoop : ∀ e, e ∈ (checkLoop clock pending).entries ↔ e ∈ pending.entries ∧ ¬ Old clock e

variable {clock : Str → UInt64} {block : CBlock} {pending : Pending}

/-- The test of the loop passes for an old entry; for others only where the sum wraps around. -/
theorem isExpired_of_old {e : Str × DoubleSpendsuc} (h : Old clock e) : isExpired e.2.time (clock e.1) := by
  have hlt := (clock e.1).toNat_lt
  rw [Old] at h
  simp only [isExpired, UInt64.lt_iff_toNat_lt, UInt64.toNat_add, UInt64.toNat_mul, UInt64.toNat_ofNat, decide_eq_true_eq]
  omega

/-- The times that a block finds are those of the entries it spends. -/
theorem mem_foundBy {time : UInt64} :
    time ∈ block.txs.filterMap (foundBy pending) ↔ ∃ e ∈ pending.entries, Spent block e ∧ e.2.time = time := by
  rw [List.mem_filterMap]
  constructor
  · rintro ⟨tx, htx, hfound⟩
    rw [foundBy] at hfound
    split at hfound
    · cases hfound
    · rename_i owner rest howner
      split at hfound
      · rename_i found hfind
        split_ifs at hfound with htime
        cases hfound
        exact ⟨(owner, found), SortedMap.mem_iff_find.mpr hfind, ⟨tx, htx, by rw [howner]; rfl, htime⟩, rfl⟩
      · cases hfound
  · rintro ⟨e, he, ⟨tx, htx, howner, htime⟩, rfl⟩
    obtain ⟨rest, howner⟩ := List.head?_eq_some_iff.mp howner
    refine ⟨tx, htx, ?_⟩
    rw [foundBy, howner]
    simp only [SortedMap.mem_iff_find.mp he, htime, if_true]

/-- An entry is removed with every other entry of its time. -/
theorem mem_detection {e : Str × DoubleSpendsuc} : e ∈ (detection block pending).entries ↔
    e ∈ pending.entries ∧ ∀ e' ∈ pending.entries, e'.2.time = e.2.time → ¬ Spent block e' := by
  rw [detection, mem_removeAll, mem_foundBy]
  push Not
  exact and_congr_right fun _ => forall₂_congr fun e' _ => forall_comm.trans (by rw [imp_not_comm])

theorem mem_checkLoop {e : Str × DoubleSpendsuc} : e ∈ (checkLoop clock pending).entries ↔
    e ∈ pending.entries ∧ ∀ e' ∈ pending.entries, e'.2.time = e.2.time → isExpired e'.2.time (clock e'.1) = false := by
  rw [checkLoop, mem_removeAll, List.mem_map]
  push Not
  simp only [List.mem_filter, and_imp]
  refine and_congr_right fun _ => forall₂_congr fun e' _ => ?_
  rw [← Bool.not_eq_true, imp_not_comm]

/-! ### Precise removal -/

variable (clock block pending)

/-- Only what was meant goes, when entries of one time are spent together, and found expired only when all of
    them are old. -/
theorem removes_precisely_iff : RemovesPrecisely clock block pending ↔
    (∀ e ∈ pending.entries, ∀ e' ∈ pending.entries, e'.2.time = e.2.time → Spent block e' → Spent block e) ∧
    (∀ e ∈ pending.entries, ∀ e' ∈ pending.entries, e'.2.time = e.2.time →
      isExpired e'.2.time (clock e'.1) → Old clock e) := by
  constructor
  · rintro ⟨hdetection, hcheckLoop⟩
    constructor
    · intro e he e' he' htime hspent'
      by_contra hspent
      exact (mem_detection.mp ((hdetection e).mpr ⟨he, hspent⟩)).2 e' he' htime hspent'
    · intro e he e' he' htime hexpired
      by_contra hold
      have hkept := (mem_checkLoop.mp ((hcheckLoop e).mpr ⟨he, hold⟩)).2 e' he' htime
      rw [hexpired] at hkept
      cases hkept
  · rintro ⟨hspent, hold⟩
    constructor
    · intro e
      rw [mem_detection]
      refine and_congr_right fun he => ?_
      exact ⟨fun hkept => hkept e he rfl, fun hnot e' he' htime hspent' => hnot (hspent e he e' he' htime hspent')⟩
    · intro e
      rw [mem_checkLoop]
      refine and_congr_right fun he => ⟨fun hkept hclock => ?_, fun hnot e' he' htime => ?_⟩
      · have hexpired := isExpired_of_old hclock
        rw [hkept e he rfl] at hexpired
        cases hexpired
      · exact Bool.not_eq_true _ ▸ fun hexpired => hnot (hold e he e' he' htime hexpired)

/-- Two addresses with outputs in use since the same time. -/
def twoPending : Pending := ⟨[([1], ⟨5, [[7]]⟩), ([2], ⟨5, [[8]]⟩)], by decide⟩

/-- The transaction of the first of them. -/
def firstSpent : CTransaction := { CTransaction.cleared with time := 5, utxo := { CTxUtxo.cleared with owner := [[1]] } }

/-- The entry of the second goes with that of the first. -/
theorem other_address_released : ¬ RemovesPrecisely (fun _ => 5) ⟨0, [], [], 0, [firstSpent], []⟩ twoPending := by
  intro h
  have hspent : ¬ Spent ⟨0, [], [], 0, [firstSpent], []⟩ ([2], ⟨5, [[8]]⟩) := by
    rintro ⟨tx, htx, howner, -⟩
    rw [List.mem_singleton.mp htx] at howner
    simp [firstSpent] at howner
  have hkept := (h.detection _).mpr ⟨List.mem_cons_of_mem _ List.mem_cons_self, hspent⟩
  refine (mem_detection.mp hkept).2 ([1], ⟨5, [[7]]⟩) List.mem_cons_self rfl ?_
  exact ⟨firstSpent, List.mem_singleton_self _, rfl, rfl⟩

end Tfs.Ca.PendingRemoval
