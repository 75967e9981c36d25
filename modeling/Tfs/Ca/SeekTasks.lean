import Tfs.Basic
import Tfs.Lib.OrderedSet
import Tfs.Lib.Sorted

/-! The tasks that look for a previous hash (`BlockStroage::CommitSeekTask` in `ca/block_stroage.cpp`).

    When the map has more than a hundred tasks, those below the top are dropped before a new one comes in.
    What is taken for the top is read behind the last entry, and the entry ten below it has to be there. -/

namespace Tfs.Ca.SeekTasks

/-! ### The function -/

section Function
variable {RetType : Type}

/-- A map made of the entries from `find(key)` to `end()`. -/
def fromFind (m : SortedMap UInt64 RetType) (key : UInt64) : SortedMap UInt64 RetType :=
  ⟨m.entries.dropWhile fun e => e.1 ≠ key, m.sorted.sublist (List.dropWhile_sublist _)⟩

/-- `BlockStroage::CommitSeekTask`. There is no entry at `_preHashMap.end()`, so `endHeight` is whatever its
    memory holds; where the header of the tree is followed by the number of its nodes, it is this number. -/
def commitSeekTask (endHeight : UInt64) (task : RetType) (preHashMap : SortedMap UInt64 RetType) (seekHeight : UInt64) :
    SortedMap UInt64 RetType :=
  if (preHashMap.find seekHeight).isSome then preHashMap
  else
    let preHashMap := if preHashMap.entries.length > 100 then fromFind preHashMap (endHeight - 10) else preHashMap
    preHashMap.upsert seekHeight fun _ => task

end Function

/-! ### What is left -/

section Trimming
variable {RetType : Type} {m : SortedMap UInt64 RetType} {key : UInt64}

/-- From an entry on, the entries with a key as large are left. -/
theorem fromFind_of_mem (hkey : (m.find key).isSome) :
    (fromFind m key).entries = m.entries.filter fun e => key ≤ e.1 := by
  obtain ⟨value, hfind⟩ := Option.isSome_iff_exists.mp hkey
  obtain ⟨before, behind, hsplit⟩ := List.append_of_mem (SortedMap.mem_iff_find.mpr hfind)
  have hsorted := m.sorted
  rw [hsplit, List.pairwise_append, List.pairwise_cons] at hsorted
  obtain ⟨-, ⟨hbehind, -⟩, hbefore⟩ := hsorted
  have hlow : before.filter (fun e => key ≤ e.1) = [] := by
    refine List.filter_eq_nil_iff.mpr fun a ha => ?_
    simpa using hbefore a ha _ List.mem_cons_self
  have hhigh : behind.filter (fun e => key ≤ e.1) = behind := by
    refine List.filter_eq_self.mpr fun a ha => ?_
    simpa using (hbehind a ha).le
  show (m.entries.dropWhile fun e => e.1 ≠ key) = _
  rw [hsplit, List.filter_append, hlow, List.nil_append, List.filter_cons_of_pos (by simp), hhigh,
    List.dropWhile_append_of_pos]
  · simp
  · intro a ha
    simpa using (hbefore a ha _ List.mem_cons_self).ne

/-- Where the entry is missing, nothing is left. -/
theorem fromFind_of_not_mem (hkey : ¬ (m.find key).isSome) : (fromFind m key).entries = [] := by
  show (m.entries.dropWhile fun e => e.1 ≠ key) = []
  rw [List.dropWhile_eq_nil_iff]
  intro e he
  simp only [ne_eq, decide_eq_true_eq]
  rintro rfl
  exact hkey (Option.isSome_iff_exists.mpr ⟨e.2, SortedMap.mem_iff_find.mp he⟩)

/-- A new entry is one more. -/
theorem length_upsertEntry (f : Option RetType → RetType) : ∀ {l : List (UInt64 × RetType)}, (∀ e ∈ l, e.1 ≠ key) →
    (SortedMap.upsertEntry key f l).length = l.length + 1
  | [], _ => rfl
  | e :: l, h => by
    obtain ⟨he, hl⟩ := List.forall_mem_cons.mp h
    rw [SortedMap.upsertEntry]
    split_ifs with hlt hgt
    · rfl
    · rw [List.length_cons, length_upsertEntry f hl, List.length_cons]
    · exact absurd (le_antisymm (not_lt.mp hlt) (not_lt.mp hgt)) he

/-- The entries after an assignment to a key that was missing. -/
theorem mem_upsert_of_missing (hkey : m.find key = none) (f : Option RetType → RetType) {e : UInt64 × RetType} :
    e ∈ (m.upsert key f).entries ↔ e = (key, f none) ∨ e ∈ m.entries := by
  obtain ⟨k, value⟩ := e
  rw [SortedMap.mem_iff_find, SortedMap.find_upsert, hkey, SortedMap.mem_iff_find, Prod.mk.injEq]
  split_ifs with hk
  · rw [hk, hkey, Option.some_inj, eq_comm]
    simp
  · simp [hk]

/-- An entry with the highest key. -/
theorem exists_highest (hm : m.entries ≠ []) : ∃ e ∈ m.entries, ∀ e' ∈ m.entries, e'.1 ≤ e.1 := by
  obtain ⟨init, e, hsplit⟩ := (List.eq_nil_or_concat m.entries).resolve_left hm
  rw [List.concat_eq_append] at hsplit
  have hsorted := m.sorted
  rw [hsplit, List.pairwise_append] at hsorted
  refine ⟨e, by simp [hsplit], fun e' he' => ?_⟩
  rw [hsplit] at he'
  rcases List.mem_append.mp he' with he' | he'
  · exact (hsorted.2.2 e' he' e (List.mem_singleton_self e)).le
  · rw [List.mem_singleton.mp he']

end Trimming

/-! ### Trimming to the top -/

section Top
variable {RetType : Type} (endHeight : UInt64) (task : RetType) (m : SortedMap UInt64 RetType) (seekHeight : UInt64)

/-- No height of the map is more than ten above this one. -/
def NearTop (height : UInt64) : Prop := ∀ e ∈ m.entries, e.1.toNat ≤ height.toNat + 10

/-- The tasks near the top stay, the map is small afterwards, and the height asked for has a task. -/
structure TrimsToTop : Prop where
  kept : ∀ e ∈ m.entries, NearTop m e.1 → e ∈ (commitSeekTask endHeight task m seekHeight).entries
  few : (commitSeekTask endHeight task m seekHeight).entries.length ≤ 100 + 1
  present : ((commitSeekTask endHeight task m seekHeight).find seekHeight).isSome

/-- The height that is looked up has a task, the tasks near the top are not below it, and there are not too many
    from it on. -/
structure CutsBelowTop : Prop where
  found : (m.find (endHeight - 10)).isSome
  below : ∀ e ∈ m.entries, NearTop m e.1 → endHeight - 10 ≤ e.1
  few : (m.entries.filter fun e => endHeight - 10 ≤ e.1).length ≤ 100

/-- What is left of the map before the new task comes in. -/
def trimmed : SortedMap UInt64 RetType :=
  if m.entries.length > 100 then fromFind m (endHeight - 10) else m

variable {endHeight task m seekHeight}

/-- A new task comes to what is left. -/
theorem trimsToTop_of_missing (hmissing : m.find seekHeight = none) : TrimsToTop endHeight task m seekHeight ↔
    (∀ e ∈ m.entries, NearTop m e.1 → e ∈ (trimmed endHeight m).entries) ∧ (trimmed endHeight m).entries.length ≤ 100 := by
  have hnot : ∀ e ∈ m.entries, e.1 ≠ seekHeight := by
    rintro e he rfl
    rw [SortedMap.mem_iff_find.mp he] at hmissing
    cases hmissing
  have hsub : ∀ e ∈ (trimmed endHeight m).entries, e ∈ m.entries := by
    intro e he
    rw [trimmed] at he
    split_ifs at he
    · exact (List.dropWhile_sublist _).mem he
    · exact he
  have hfind : (trimmed endHeight m).find seekHeight = none := by
    refine Option.eq_none_iff_forall_ne_some.mpr fun value hvalue => ?_
    exact hnot _ (hsub _ (SortedMap.mem_iff_find.mpr hvalue)) rfl
  have hcommit : commitSeekTask endHeight task m seekHeight = (trimmed endHeight m).upsert seekHeight fun _ => task := by
    rw [commitSeekTask, hmissing]
    rfl
  have hlength : (commitSeekTask endHeight task m seekHeight).entries.length = (trimmed endHeight m).entries.length + 1 := by
    rw [hcommit]
    exact length_upsertEntry _ fun e he => hnot e (hsub e he)
  have hmem : ∀ e ∈ m.entries, (e ∈ (commitSeekTask endHeight task m seekHeight).entries ↔ e ∈ (trimmed endHeight m).entries) := by
    intro e he
    rw [hcommit, mem_upsert_of_missing hfind]
    exact or_iff_right fun heq => hnot e he (congrArg Prod.fst heq)
  constructor
  · rintro ⟨hkept, hfew, -⟩
    exact ⟨fun e he hnear => (hmem e he).mp (hkept e he hnear), by omega⟩
  · rintro ⟨hkept, hfew⟩
    refine ⟨fun e he hnear => (hmem e he).mpr (hkept e he hnear), by omega, ?_⟩
    rw [hcommit, SortedMap.find_upsert, if_pos rfl]
    rfl

variable (endHeight task m seekHeight)

/-- A call trims to the top when there is nothing to add and the map is small, when there is nothing to drop, or
    when what is read behind the map leads to an entry below the top. -/
theorem trims_to_top_iff : TrimsToTop endHeight task m seekHeight ↔
    if (m.find seekHeight).isSome then m.entries.length ≤ 100 + 1
    else m.entries.length ≤ 100 ∨ CutsBelowTop endHeight m := by
  split_ifs with hpresent
  · have hsame : commitSeekTask endHeight task m seekHeight = m := if_pos hpresent
    constructor
    · rintro ⟨-, hfew, -⟩
      rwa [hsame] at hfew
    · intro hfew
      exact ⟨fun e he _ => by rwa [hsame], by rwa [hsame], by rwa [hsame]⟩
  · rw [trimsToTop_of_missing (Option.not_isSome_iff_eq_none.mp hpresent), trimmed]
    rcases le_or_gt m.entries.length 100 with hfew | hmany
    · rw [if_neg (by omega)]
      exact iff_of_true ⟨fun e he _ => he, hfew⟩ (.inl hfew)
    · rw [if_pos hmany, or_iff_right (by omega)]
      by_cases hfound : (m.find (endHeight - 10)).isSome
      · rw [fromFind_of_mem hfound]
        constructor
        · rintro ⟨hkept, hfew⟩
          exact ⟨hfound, fun e he hnear => by simpa using (List.mem_filter.mp (hkept e he hnear)).2, hfew⟩
        · rintro ⟨-, hbelow, hfew⟩
          exact ⟨fun e he hnear => List.mem_filter.mpr ⟨he, by simpa using hbelow e he hnear⟩, hfew⟩
      · -- the highest task is dropped with all others
        refine iff_of_false ?_ fun h => hfound h.found
        rintro ⟨hkept, -⟩
        obtain ⟨e, he, hmax⟩ := exists_highest fun hnil : m.entries = [] => by simp [hnil] at hmany
        have hin := hkept e he fun e' he' => (UInt64.le_iff_toNat_le.mp (hmax e' he')).trans (Nat.le_add_right _ _)
        rw [fromFind_of_not_mem hfound] at hin
        cases hin

end Top

/-- The tasks of the heights from 1000 to 1100. -/
def hundredAndOne : SortedMap UInt64 Unit where
  entries := (List.range 101).map fun i => (UInt64.ofNat (1000 + i), ())
  sorted := by
    refine List.pairwise_map.mpr (List.pairwise_lt_range.imp_of_mem fun {i j} hi hj hlt => ?_)
    rw [List.mem_range] at hi hj
    rw [UInt64.lt_iff_toNat_lt, UInt64.toNat_ofNat', UInt64.toNat_ofNat']
    omega

theorem mem_hundredAndOne {e : UInt64 × Unit} : e ∈ hundredAndOne.entries ↔ 1000 ≤ e.1.toNat ∧ e.1.toNat ≤ 1100 := by
  rw [hundredAndOne, List.mem_map]
  constructor
  · rintro ⟨i, hi, rfl⟩
    rw [List.mem_range] at hi
    rw [UInt64.toNat_ofNat']
    omega
  · rintro ⟨hlow, hhigh⟩
    have hkey : UInt64.ofNat (1000 + (e.1.toNat - 1000)) = e.1 := by
      rw [Nat.add_sub_cancel' hlow, UInt64.ofNat_toNat]
    exact ⟨e.1.toNat - 1000, List.mem_range.mpr (by omega), by rw [hkey]⟩

theorem find_hundredAndOne {key : UInt64} (h : key.toNat < 1000 ∨ 1100 < key.toNat) : hundredAndOne.find key = none := by
  refine Option.eq_none_iff_forall_ne_some.mpr fun value hvalue => ?_
  have hin : 1000 ≤ key.toNat ∧ key.toNat ≤ 1100 := mem_hundredAndOne.mp (SortedMap.mem_iff_find.mpr hvalue)
  omega

/-- The number of entries is read behind the map. There is no task for 91, and all 101 are dropped. -/
theorem top_dropped : ¬ TrimsToTop 101 () hundredAndOne 1101 := by
  rw [trimsToTop_of_missing (find_hundredAndOne (.inr (by decide)))]
  rintro ⟨hkept, -⟩
  have hin : (1100, ()) ∈ hundredAndOne.entries := mem_hundredAndOne.mpr (by decide)
  have hnear : NearTop hundredAndOne 1100 := fun e he => (mem_hundredAndOne.mp he).2.trans (Nat.le_add_right 1100 10)
  have hnone : hundredAndOne.find (101 - 10) = none := find_hundredAndOne (.inl (by decide))
  have hleft := hkept _ hin hnear
  rw [trimmed, if_pos (by rw [hundredAndOne, List.length_map, List.length_range]; omega),
    fromFind_of_not_mem (by rw [hnone]; exact Bool.false_ne_true)] at hleft
  cases hleft

end Tfs.Ca.SeekTasks
