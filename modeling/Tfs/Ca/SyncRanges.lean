import Tfs.Lib.OrderedSet

/-! The ranges that are synchronised (`SyncBlock::_GetSyncSumHashNode` in `ca/sync_block.cpp`, from the
    heights that need it to `needSyncHeights`).

    A loop over the sorted heights joins consecutive ones to a range. A height that does not continue the
    open range closes it and is dropped: only the next height opens another one. Afterwards two windows
    around the height of the chain are added, each under its first height, which gives way where a range
    starts there. -/

namespace Tfs.Ca.SyncRanges

/-! ### The ranges -/

/-- `needSyncHeights.insert`: a range that starts at the same height stays. -/
def insertRange (needSyncHeights : SortedMap ℕ ℕ) (start stop : UInt64) : SortedMap ℕ ℕ :=
  needSyncHeights.upsert start.toNat fun value => value.getD stop.toNat

/-- The loop over the heights: `start` and `end`, both -1 while no range is open. -/
structure RangeLoop where
  start : Int64
  stop : Int64
  needSyncHeights : SortedMap ℕ ℕ

/-- One round of the loop. -/
def RangeLoop.step (s : RangeLoop) (value : UInt64) : RangeLoop :=
  if -1 = s.start ∧ -1 = s.stop then { s with start := value.toInt64, stop := value.toInt64 }
  else if value ≠ (s.stop + 1).toUInt64 then
    ⟨-1, -1, insertRange s.needSyncHeights s.start.toUInt64 s.stop.toUInt64⟩
  else { s with stop := value.toInt64 }

/-- The range that is open at the end. -/
def RangeLoop.finish (s : RangeLoop) : SortedMap ℕ ℕ :=
  if -1 ≠ s.start ∧ -1 ≠ s.stop then insertRange s.needSyncHeights s.start.toUInt64 s.stop.toUInt64
  else s.needSyncHeights

/-- `std::set<uint64_t>`. -/
abbrev Heights := StdSet fun a b : UInt64 => a < b

/-- `noVerifyHeight`. -/
def noVerifyHeight : UInt64 := 10

/-- `needSyncHeights` at the end of `_GetSyncSumHashNode`. -/
def needSyncHeights (heights : Heights) (chainHeight endSyncHeight : UInt64) : SortedMap ℕ ℕ :=
  let ranges := (heights.elems.foldl RangeLoop.step ⟨-1, -1, .empty⟩).finish
  if endSyncHeight ≥ chainHeight - noVerifyHeight then
    if chainHeight > noVerifyHeight then
      insertRange (insertRange ranges (chainHeight - noVerifyHeight) chainHeight)
        chainHeight (chainHeight + noVerifyHeight)
    else insertRange ranges 1 (chainHeight + noVerifyHeight)
  else ranges

/-- A height lies in one of the ranges. -/
def Covered (ranges : SortedMap ℕ ℕ) (height : ℕ) : Prop :=
  ∃ range ∈ ranges.entries, range.1 ≤ height ∧ height ≤ range.2

/-- The ranges cover what is needed: every height given and, when synchronisation goes up to ten heights
    below the chain or further, those from there to ten above the chain. -/
def RangesCover (heights : Heights) (chainHeight endSyncHeight : UInt64) : Prop :=
  (∀ height ∈ heights, Covered (needSyncHeights heights chainHeight endSyncHeight) height.toNat) ∧
  (chainHeight.toNat ≤ endSyncHeight.toNat + 10 → ∀ height, 1 ≤ height → chainHeight.toNat ≤ height + 10 →
    height ≤ chainHeight.toNat + 10 → Covered (needSyncHeights heights chainHeight endSyncHeight) height)

/-! ### The heights that are lost -/

/-- The ranges a list of heights is cut into, given the open one. The largest height stands for "no
    range" in the loop, and a range that ends there is not kept. -/
def cut : Option (ℕ × ℕ) → List ℕ → List (ℕ × ℕ)
  | none, [] => []
  | some range, [] => if range.2 + 1 = 2 ^ 64 then [] else [range]
  | none, height :: heights => cut (some (height, height)) heights
  | some range, height :: heights =>
    if height = range.2 + 1 then cut (some (range.1, height)) heights else range :: cut none heights

/-- The heights that get into no range: each height that ends a range without continuing it, and the
    range that ends at the largest height. -/
def lost : Option (ℕ × ℕ) → List ℕ → List ℕ
  | none, [] => []
  | some range, [] => if range.2 + 1 = 2 ^ 64 then List.range' range.1 (range.2 + 1 - range.1) else []
  | none, height :: heights => lost (some (height, height)) heights
  | some range, height :: heights =>
    if height = range.2 + 1 then lost (some (range.1, height)) heights else height :: lost none heights

/-- The heights in an open range. -/
def InOpen (opened : Option (ℕ × ℕ)) (height : ℕ) : Prop :=
  ∃ range ∈ opened, range.1 ≤ height ∧ height ≤ range.2

/-- Continuing the open range. -/
theorem inOpen_extend {range : ℕ × ℕ} {h height : ℕ} (hle : range.1 ≤ range.2) (heq : h = range.2 + 1) :
    InOpen (some (range.1, h)) height ↔ InOpen (some range) height ∨ height = h := by
  simp only [InOpen, Option.mem_def, Option.some.injEq, exists_eq_left']
  omega

theorem inOpen_single {h height : ℕ} : InOpen (some (h, h)) height ↔ height = h := by
  simp only [InOpen, Option.mem_def, Option.some.injEq, exists_eq_left']
  omega

theorem not_inOpen_none {height : ℕ} : ¬ InOpen none height := by
  rintro ⟨range, hrange, -⟩
  cases hrange

theorem mem_of_mem_lost {height : ℕ} : ∀ {opened : Option (ℕ × ℕ)} {heights : List ℕ},
    (∀ range ∈ opened, range.1 ≤ range.2) → height ∈ lost opened heights →
    InOpen opened height ∨ height ∈ heights
  | none, [], _, h => by cases h
  | some range, [], _, h => by
    rw [lost] at h
    split_ifs at h with hmax
    · rw [List.mem_range'_1] at h
      exact .inl ⟨range, rfl, h.1, by omega⟩
    · cases h
  | none, h₀ :: heights, _, h => by
    rcases @mem_of_mem_lost height (some (h₀, h₀)) heights (by simp) h with hopen | hmem
    · exact .inr (inOpen_single.mp hopen ▸ List.mem_cons_self)
    · exact .inr (List.mem_cons_of_mem _ hmem)
  | some range, h₀ :: heights, hle, h => by
    have hle := hle range rfl
    rw [lost] at h
    split_ifs at h with hnext
    · rcases @mem_of_mem_lost height (some (range.1, h₀)) heights (by simp; omega) h with hopen | hmem
      · rcases (inOpen_extend hle hnext).mp hopen with hopen | rfl
        · exact .inl hopen
        · exact .inr List.mem_cons_self
      · exact .inr (List.mem_cons_of_mem _ hmem)
    · rcases List.mem_cons.mp h with rfl | h
      · exact .inr List.mem_cons_self
      · rcases @mem_of_mem_lost height none heights (by simp) h with hopen | hmem
        · exact absurd hopen not_inOpen_none
        · exact .inr (List.mem_cons_of_mem _ hmem)

/-- What the ranges cover are the heights that are not lost. -/
theorem covered_cut {height : ℕ} : ∀ {opened : Option (ℕ × ℕ)} {heights : List ℕ},
    heights.Pairwise (· < ·) → (∀ range ∈ opened, range.1 ≤ range.2 ∧ ∀ h ∈ heights, range.2 < h) →
    ((∃ range ∈ cut opened heights, range.1 ≤ height ∧ height ≤ range.2) ↔
      (InOpen opened height ∨ height ∈ heights) ∧ height ∉ lost opened heights)
  | none, [], _, _ => by simp [cut, lost, InOpen]
  | some range, [], _, _ => by
    simp only [cut, lost, InOpen]
    split_ifs with hmax
    · simp [List.mem_range'_1]
      omega
    · simp
  | none, h :: heights, hsorted, _ => by
    obtain ⟨hlt, hsorted⟩ := List.pairwise_cons.mp hsorted
    rw [cut, lost, covered_cut hsorted (by simpa using hlt), inOpen_single, List.mem_cons,
      or_iff_right not_inOpen_none]
  | some range, h :: heights, hsorted, hopen => by
    obtain ⟨hle, hbefore⟩ := hopen range rfl
    obtain ⟨hlt, hsorted⟩ := List.pairwise_cons.mp hsorted
    have hh := hbefore h List.mem_cons_self
    rw [cut, lost]
    split_ifs with hnext
    · rw [covered_cut hsorted (by simpa using ⟨by omega, hlt⟩), inOpen_extend hle hnext, List.mem_cons,
        or_assoc]
    · have ih := @covered_cut height none heights hsorted (by simp)
      rw [or_iff_right not_inOpen_none] at ih
      have hopened : InOpen (some range) height ↔ range.1 ≤ height ∧ height ≤ range.2 := by
        simp only [InOpen, Option.mem_def, Option.some.injEq, exists_eq_left']
      have hlost (hin : height ∈ lost none heights) : height ∈ heights :=
        (mem_of_mem_lost (by simp) hin).resolve_left not_inOpen_none
      simp only [List.mem_cons, exists_eq_or_imp, not_or]
      rw [ih, hopened]
      constructor
      · rintro (hin | ⟨hmem, hkept⟩)
        · refine ⟨.inl hin, by omega, fun hin' => ?_⟩
          have := hbefore height (List.mem_cons_of_mem _ (hlost hin'))
          omega
        · refine ⟨.inr (.inr hmem), ?_, hkept⟩
          have := hlt height hmem
          omega
      · rintro ⟨hin | heq | hmem, hne, hkept⟩
        · exact .inl hin
        · exact absurd heq hne
        · exact .inr ⟨hmem, hkept⟩

/-! ### The loop -/

/-- A range starts with the open one or at a height. -/
theorem start_of_mem_cut {range : ℕ × ℕ} : ∀ {opened : Option (ℕ × ℕ)} {heights : List ℕ},
    range ∈ cut opened heights → (∃ o ∈ opened, range.1 = o.1) ∨ range.1 ∈ heights
  | none, [], h => by cases h
  | some o, [], h => by
    rw [cut] at h
    split_ifs at h
    · cases h
    · exact .inl ⟨o, rfl, by rw [List.mem_singleton.mp h]⟩
  | none, h₀ :: heights, h => by
    rcases @start_of_mem_cut range (some (h₀, h₀)) heights h with ⟨o, ho, heq⟩ | hmem
    · obtain rfl := Option.mem_some.mp ho
      exact .inr (heq ▸ List.mem_cons_self)
    · exact .inr (List.mem_cons_of_mem _ hmem)
  | some o, h₀ :: heights, h => by
    rw [cut] at h
    split_ifs at h with hnext
    · rcases start_of_mem_cut h with ⟨o', ho', heq⟩ | hmem
      · obtain rfl := Option.mem_some.mp ho'
        exact .inl ⟨o, rfl, heq⟩
      · exact .inr (List.mem_cons_of_mem _ hmem)
    · rcases List.mem_cons.mp h with rfl | h
      · exact .inl ⟨_, rfl, rfl⟩
      · rcases start_of_mem_cut h with ⟨o', ho', -⟩ | hmem
        · cases ho'
        · exact .inr (List.mem_cons_of_mem _ hmem)

/-- The ranges start one after the other. -/
theorem cut_sorted : ∀ {opened : Option (ℕ × ℕ)} {heights : List ℕ}, heights.Pairwise (· < ·) →
    (∀ range ∈ opened, range.1 ≤ range.2 ∧ ∀ h ∈ heights, range.2 < h) →
    (cut opened heights).Pairwise fun a b => a.1 < b.1
  | none, [], _, _ => .nil
  | some range, [], _, _ => by
    rw [cut]
    split_ifs
    · exact .nil
    · exact List.pairwise_singleton _ _
  | none, h :: heights, hsorted, _ => by
    obtain ⟨hlt, hrest⟩ := List.pairwise_cons.mp hsorted
    rw [cut]
    exact cut_sorted hrest (by simpa using hlt)
  | some range, h :: heights, hsorted, hopen => by
    obtain ⟨hle, hbefore⟩ := hopen range rfl
    obtain ⟨hlt, hsorted⟩ := List.pairwise_cons.mp hsorted
    have hh := hbefore h List.mem_cons_self
    rw [cut]
    split_ifs with hnext
    · exact cut_sorted hsorted (by simpa using ⟨by omega, hlt⟩)
    · refine List.pairwise_cons.mpr ⟨fun r hr => ?_, cut_sorted hsorted (by simp)⟩
      rcases start_of_mem_cut hr with ⟨o, ho, -⟩ | hmem
      · cases ho
      · have := hlt r.1 hmem
        omega

theorem neg_one_eq_iff {x : Int64} : -1 = x ↔ x.toUInt64.toNat + 1 = 2 ^ 64 := by
  constructor
  · rintro rfl
    rfl
  · intro h
    have hmax : x.toUInt64 = (-1 : Int64).toUInt64 := by
      rw [← UInt64.toNat_inj, show (-1 : Int64).toUInt64.toNat = 2 ^ 64 - 1 from rfl]
      omega
    rw [← Int64.toInt64_toUInt64 x, hmax, Int64.toInt64_toUInt64]

/-- The open range as the loop holds it. -/
def RangeLoop.opened (s : RangeLoop) : Option (ℕ × ℕ) :=
  if -1 = s.start ∧ -1 = s.stop then none else some (s.start.toUInt64.toNat, s.stop.toUInt64.toNat)

/-- A range is inserted, as a pair. -/
def insertPair (m : SortedMap ℕ ℕ) (range : ℕ × ℕ) : SortedMap ℕ ℕ :=
  m.upsert range.1 fun value => value.getD range.2

/-- The loop inserts the ranges one after the other. -/
theorem foldl_step_finish : ∀ {heights : List UInt64} {s : RangeLoop}, heights.Pairwise (· < ·) →
    (-1 = s.start → -1 = s.stop) →
    (∀ range ∈ s.opened, range.1 ≤ range.2 ∧ ∀ h ∈ heights, range.2 < h.toNat) →
    (heights.foldl RangeLoop.step s).finish =
      (cut s.opened (heights.map UInt64.toNat)).foldl insertPair s.needSyncHeights := by
  intro heights
  induction heights with
  | nil =>
    intro s _ hidle _
    rw [List.foldl_nil, List.map_nil, RangeLoop.finish]
    by_cases hclosed : -1 = s.start ∧ -1 = s.stop
    · rw [if_neg (fun h => h.1 hclosed.1), show s.opened = none from if_pos hclosed]
      rfl
    · have hstart : -1 ≠ s.start := fun h => hclosed ⟨h, hidle h⟩
      rw [show s.opened = some (s.start.toUInt64.toNat, s.stop.toUInt64.toNat) from if_neg hclosed, cut]
      simp only [← neg_one_eq_iff]
      by_cases hstop : -1 = s.stop
      · rw [if_neg (fun h => h.2 hstop), if_pos hstop]
        rfl
      · rw [if_pos ⟨hstart, hstop⟩, if_neg hstop]
        rfl
  | cons value heights ih =>
    intro s hsorted hidle hopen
    obtain ⟨hlt, hsorted⟩ := List.pairwise_cons.mp hsorted
    have hlt : ∀ h ∈ heights, value.toNat < h.toNat := fun h hh => UInt64.lt_iff_toNat_lt.mp (hlt h hh)
    rw [List.foldl_cons, List.map_cons, RangeLoop.step]
    by_cases hclosed : -1 = s.start ∧ -1 = s.stop
    · -- the height opens a range; the largest one leaves the loop closed, but nothing comes after it
      rw [if_pos hclosed, show s.opened = none from if_pos hclosed, cut]
      have hopened : RangeLoop.opened { s with start := value.toInt64, stop := value.toInt64 } =
          if value.toNat + 1 = 2 ^ 64 then none else some (value.toNat, value.toNat) := by
        simp only [RangeLoop.opened, and_self, neg_one_eq_iff, UInt64.toUInt64_toInt64]
      rw [ih hsorted id, hopened]
      · split_ifs with hmax
        · have hnil : heights = [] := by
            cases heights with
            | nil => rfl
            | cons h heights =>
              have := hlt h List.mem_cons_self
              have := h.toNat_lt
              omega
          rw [hnil, List.map_nil, cut, cut, if_pos hmax]
        · rfl
      · rw [hopened]
        split_ifs
        · simp
        · simpa using hlt
    · have hopened : s.opened = some (s.start.toUInt64.toNat, s.stop.toUInt64.toNat) := if_neg hclosed
      obtain ⟨hle, hbefore⟩ := hopen _ hopened
      have hvalue := hbefore value List.mem_cons_self
      have hnext : value ≠ (s.stop + 1).toUInt64 ↔ ¬ value.toNat = s.stop.toUInt64.toNat + 1 := by
        have hbound := value.toNat_lt
        have hone : (1 : Int64).toUInt64.toNat = 1 := rfl
        rw [ne_eq, ← UInt64.toNat_inj, Int64.toUInt64_add, UInt64.toNat_add, hone, Nat.mod_eq_of_lt]
        omega
      rw [if_neg hclosed, hopened, cut]
      by_cases hcontinues : value.toNat = s.stop.toUInt64.toNat + 1
      · rw [if_neg (not_not.mpr hcontinues ∘ hnext.mp), if_pos hcontinues]
        have hstart : -1 ≠ s.start := fun h => hclosed ⟨h, hidle h⟩
        have hextended : RangeLoop.opened { s with stop := value.toInt64 } =
            some (s.start.toUInt64.toNat, value.toNat) := if_neg fun h => hstart h.1
        rw [ih (s := { s with stop := value.toInt64 }) hsorted (fun h => absurd h hstart), hextended]
        rw [hextended]
        simpa using ⟨by omega, hlt⟩
      · rw [if_pos (hnext.mpr hcontinues), if_neg hcontinues, List.foldl_cons, ih hsorted id]
        · rfl
        · rintro range hrange
          cases hrange

/-! ### What is covered -/

theorem covered_iff {m : SortedMap ℕ ℕ} {height : ℕ} :
    Covered m height ↔ ∃ start stop, m.find start = some stop ∧ start ≤ height ∧ height ≤ stop := by
  constructor
  · rintro ⟨⟨start, stop⟩, hrange, hin⟩
    exact ⟨start, stop, SortedMap.mem_iff_find.mp hrange, hin⟩
  · rintro ⟨start, stop, hfind, hin⟩
    exact ⟨(start, stop), SortedMap.mem_iff_find.mpr hfind, hin⟩

theorem insertPair_find (m : SortedMap ℕ ℕ) (range : ℕ × ℕ) (k : ℕ) : (insertPair m range).find k =
    if k = range.1 then some ((m.find k).getD range.2) else m.find k := by
  rw [insertPair, SortedMap.find_upsert]
  split_ifs with heq
  · rw [heq]
  · rfl

/-- A range that is inserted covers its heights, unless one starts where it does. -/
theorem covered_insertPair {m : SortedMap ℕ ℕ} {range : ℕ × ℕ} {height : ℕ} :
    Covered (insertPair m range) height ↔
      Covered m height ∨ m.find range.1 = none ∧ range.1 ≤ height ∧ height ≤ range.2 := by
  simp only [covered_iff, insertPair_find]
  constructor
  · rintro ⟨start, stop, hfind, hin⟩
    split_ifs at hfind with heq
    · rw [heq] at hfind hin
      cases hold : m.find range.1 with
      | none =>
        rw [hold] at hfind
        obtain rfl : range.2 = stop := by simpa using hfind
        exact .inr ⟨rfl, hin⟩
      | some stop' =>
        rw [hold] at hfind
        exact .inl ⟨range.1, stop, by rw [hold]; exact hfind, hin⟩
    · exact .inl ⟨start, stop, hfind, hin⟩
  · rintro (⟨start, stop, hfind, hin⟩ | ⟨hnone, hin⟩)
    · refine ⟨start, stop, ?_, hin⟩
      split_ifs
      · rw [hfind]
        rfl
      · exact hfind
    · exact ⟨range.1, range.2, by rw [if_pos rfl, hnone]; rfl, hin⟩

theorem foldl_insertPair_find (k : ℕ) : ∀ (ranges : List (ℕ × ℕ)) (m : SortedMap ℕ ℕ),
    (ranges.foldl insertPair m).find k =
      (m.find k).or ((ranges.find? fun range => range.1 = k).map Prod.snd)
  | [], m => by simp
  | range :: ranges, m => by
    rw [List.foldl_cons, foldl_insertPair_find k ranges, insertPair_find, List.find?_cons]
    by_cases heq : range.1 = k
    · rw [if_pos heq.symm]
      cases m.find k <;> simp [heq]
    · rw [if_neg (Ne.symm heq)]
      simp [heq]

/-- The ranges of the heights. -/
def heightRanges (heights : Heights) : List (ℕ × ℕ) := cut none (heights.elems.map UInt64.toNat)

/-- The heights that get into none of them. -/
def lostHeights (heights : Heights) : List ℕ := lost none (heights.elems.map UInt64.toNat)

/-- A range of the heights starts there. -/
def StartsAt (heights : Heights) (height : ℕ) : Prop := ∃ range ∈ heightRanges heights, range.1 = height

theorem sorted_toNat (heights : Heights) : (heights.elems.map UInt64.toNat).Pairwise (· < ·) :=
  List.pairwise_map.mpr (heights.sorted.imp fun h => UInt64.lt_iff_toNat_lt.mp h)

/-- What the loop leaves. -/
theorem loop_find (heights : Heights) (k : ℕ) :
    (heights.elems.foldl RangeLoop.step ⟨-1, -1, .empty⟩).finish.find k =
      ((heightRanges heights).find? fun range => range.1 = k).map Prod.snd := by
  rw [foldl_step_finish heights.sorted (fun _ => rfl) (fun range hrange => by cases hrange),
    foldl_insertPair_find]
  rfl

theorem loop_covered (heights : Heights) (height : ℕ) :
    Covered (heights.elems.foldl RangeLoop.step ⟨-1, -1, .empty⟩).finish height ↔
      height ∈ heights.elems.map UInt64.toNat ∧ height ∉ lostHeights heights := by
  have hcut := @covered_cut height none _ (sorted_toNat heights) (by simp)
  rw [or_iff_right not_inOpen_none] at hcut
  rw [lostHeights, ← hcut, covered_iff]
  have hdistinct := @cut_sorted none _ (sorted_toNat heights) (by simp)
  constructor
  · rintro ⟨start, stop, hfind, hin⟩
    rw [loop_find, Option.map_eq_some_iff] at hfind
    obtain ⟨range, hfind, rfl⟩ := hfind
    obtain rfl : range.1 = start := by simpa using List.find?_some hfind
    exact ⟨range, List.mem_of_find?_eq_some hfind, hin⟩
  · rintro ⟨range, hrange, hin⟩
    refine ⟨range.1, range.2, ?_, hin⟩
    rw [loop_find]
    cases hfind : (heightRanges heights).find? fun r => r.1 = range.1 with
    | none => simpa using List.find?_eq_none.mp hfind range hrange
    | some first =>
      have hmem := List.mem_of_find?_eq_some hfind
      have heq : first.1 = range.1 := by simpa using List.find?_some hfind
      have hnodup : ((heightRanges heights).map Prod.fst).Nodup :=
        List.pairwise_map.mpr (hdistinct.imp fun h => ne_of_lt h)
      rw [List.inj_on_of_nodup_map hnodup hmem hrange heq]
      rfl

theorem loop_find_none (heights : Heights) (k : ℕ) :
    (heights.elems.foldl RangeLoop.step ⟨-1, -1, .empty⟩).finish.find k = none ↔ ¬ StartsAt heights k := by
  rw [loop_find, Option.map_eq_none_iff, List.find?_eq_none, StartsAt]
  simp only [decide_eq_true_eq, not_exists, not_and]

/-- A height that is needed and gets into a range. -/
def Kept (heights : Heights) (height : ℕ) : Prop :=
  height ∈ heights.elems.map UInt64.toNat ∧ height ∉ lostHeights heights

/-- A range contains the height at which it starts. -/
theorem le_of_mem_cut {range : ℕ × ℕ} : ∀ {opened : Option (ℕ × ℕ)} {heights : List ℕ},
    (∀ o ∈ opened, o.1 ≤ o.2) → range ∈ cut opened heights → range.1 ≤ range.2
  | none, [], _, h => by cases h
  | some o, [], hle, h => by
    rw [cut] at h
    split_ifs at h
    · cases h
    · rw [List.mem_singleton.mp h]
      exact hle o rfl
  | none, h₀ :: heights, _, h => @le_of_mem_cut range (some (h₀, h₀)) heights (by simp) h
  | some o, h₀ :: heights, hle, h => by
    have ho := hle o rfl
    rw [cut] at h
    split_ifs at h with hnext
    · exact le_of_mem_cut (by simp; omega) h
    · rcases List.mem_cons.mp h with rfl | h
      · exact ho
      · exact @le_of_mem_cut range none heights (by simp) h

theorem StartsAt.kept {heights : Heights} {height : ℕ} (h : StartsAt heights height) : Kept heights height := by
  obtain ⟨range, hrange, rfl⟩ := h
  have hcut := @covered_cut range.1 none _ (sorted_toNat heights) (by simp)
  rw [or_iff_right not_inOpen_none] at hcut
  exact hcut.mp ⟨range, hrange, le_rfl, le_of_mem_cut (by simp) hrange⟩

/-- The height lies in one of the windows around the height of the chain that are added: they are when
    `endSyncHeight` reaches `chainHeight - 10`, computed without a sign, and where no range starts as
    they do. -/
def InWindow (heights : Heights) (chainHeight endSyncHeight : UInt64) (height : ℕ) : Prop :=
  chainHeight - noVerifyHeight ≤ endSyncHeight ∧
    if noVerifyHeight < chainHeight then
      (¬ StartsAt heights (chainHeight - noVerifyHeight).toNat ∧
        (chainHeight - noVerifyHeight).toNat ≤ height ∧ height ≤ chainHeight.toNat) ∨
      (¬ StartsAt heights chainHeight.toNat ∧
        chainHeight.toNat ≤ height ∧ height ≤ (chainHeight + noVerifyHeight).toNat)
    else ¬ StartsAt heights 1 ∧ 1 ≤ height ∧ height ≤ (chainHeight + noVerifyHeight).toNat

theorem toNat_sub_noVerifyHeight {chainHeight : UInt64} (hlong : noVerifyHeight < chainHeight) :
    (chainHeight - noVerifyHeight).toNat = chainHeight.toNat - 10 :=
  UInt64.toNat_sub_of_le _ _ (UInt64.le_of_lt hlong)

/-- What `needSyncHeights` covers. -/
theorem covered_needSyncHeights {heights : Heights} {chainHeight endSyncHeight : UInt64} {height : ℕ} :
    Covered (needSyncHeights heights chainHeight endSyncHeight) height ↔
      Kept heights height ∨ InWindow heights chainHeight endSyncHeight height := by
  have hins (m : SortedMap ℕ ℕ) (start stop : UInt64) :
      insertRange m start stop = insertPair m (start.toNat, stop.toNat) := rfl
  rw [needSyncHeights, InWindow, Kept, ← loop_covered]
  simp only [ge_iff_le, gt_iff_lt]
  by_cases htail : chainHeight - noVerifyHeight ≤ endSyncHeight
  · rw [if_pos htail, and_iff_right htail]
    by_cases hlong : noVerifyHeight < chainHeight
    · have hne : chainHeight.toNat ≠ (chainHeight - noVerifyHeight).toNat := by
        rw [toNat_sub_noVerifyHeight hlong]
        have : 10 < chainHeight.toNat := UInt64.lt_iff_toNat_lt.mp hlong
        omega
      rw [if_pos hlong, if_pos hlong, hins, hins, covered_insertPair, covered_insertPair, insertPair_find,
        if_neg hne, loop_find_none, loop_find_none, or_assoc]
    · rw [if_neg hlong, if_neg hlong, hins, covered_insertPair, show (1 : UInt64).toNat = 1 from rfl,
        loop_find_none]
  · rw [if_neg htail, or_iff_left fun h => htail h.1]

/-- The windows do their part: for a chain above ten heights each of the two is added or the ranges go on
    through it, and its end is no overflow; for a shorter chain the one window is added, which takes that
    `chainHeight - 10` does not wrap around to a height above `endSyncHeight`, or the ranges do without
    it. -/
def WindowsHold (heights : Heights) (chainHeight endSyncHeight : UInt64) : Prop :=
  if 10 < chainHeight.toNat then
    chainHeight.toNat + 10 < 2 ^ 64 ∧
    (StartsAt heights (chainHeight.toNat - 10) →
      ∀ height, chainHeight.toNat ≤ height + 10 → height < chainHeight.toNat → Kept heights height) ∧
    (StartsAt heights chainHeight.toNat →
      ∀ height, chainHeight.toNat < height → height ≤ chainHeight.toNat + 10 → Kept heights height)
  else (chainHeight - noVerifyHeight ≤ endSyncHeight ∧ ¬ StartsAt heights 1) ∨
    ∀ height, 1 ≤ height → height ≤ chainHeight.toNat + 10 → Kept heights height

theorem windowsHold_iff {heights : Heights} {chainHeight endSyncHeight : UInt64}
    (hend : chainHeight.toNat ≤ endSyncHeight.toNat + 10) :
    (∀ height, 1 ≤ height → chainHeight.toNat ≤ height + 10 → height ≤ chainHeight.toNat + 10 →
      Kept heights height ∨ InWindow heights chainHeight endSyncHeight height) ↔
      WindowsHold heights chainHeight endSyncHeight := by
  have hsize := chainHeight.toNat_lt
  rw [WindowsHold]
  by_cases hlong : 10 < chainHeight.toNat
  · have hlt : noVerifyHeight < chainHeight := UInt64.lt_iff_toNat_lt.mpr hlong
    have hsub := toNat_sub_noVerifyHeight hlt
    have htail : chainHeight - noVerifyHeight ≤ endSyncHeight := by
      rw [UInt64.le_iff_toNat_le, hsub]
      omega
    have hadd := UInt64.toNat_add chainHeight noVerifyHeight
    rw [show noVerifyHeight.toNat = 10 from rfl] at hadd
    have hbound := (chainHeight + noVerifyHeight).toNat_lt
    simp only [InWindow, if_pos hlong, if_pos hlt, and_iff_right htail, hsub]
    constructor
    · intro hall
      refine ⟨?_, fun hstart height hfrom hto => ?_, fun hstart height hfrom hto => ?_⟩
      · rcases hall (chainHeight.toNat + 10) (by omega) (by omega) le_rfl with hkept | hin | hin
        · obtain ⟨h, -, heq⟩ := List.mem_map.mp hkept.1
          have := h.toNat_lt
          omega
        · omega
        · omega
      · rcases hall height (by omega) hfrom (by omega) with hkept | hin | hin
        · exact hkept
        · exact absurd hstart hin.1
        · omega
      · rcases hall height (by omega) (by omega) hto with hkept | hin | hin
        · exact hkept
        · omega
        · exact absurd hstart hin.1
    · rintro ⟨hover, hbelow, habove⟩ height hone hfrom hto
      rw [Nat.mod_eq_of_lt hover] at hadd
      rcases Nat.lt_trichotomy height chainHeight.toNat with hlt | rfl | hgt
      · by_cases hstart : StartsAt heights (chainHeight.toNat - 10)
        · exact .inl (hbelow hstart height hfrom hlt)
        · exact .inr (.inl ⟨hstart, by omega, by omega⟩)
      · by_cases hstart : StartsAt heights chainHeight.toNat
        · exact .inl hstart.kept
        · exact .inr (.inr ⟨hstart, le_rfl, by omega⟩)
      · by_cases hstart : StartsAt heights chainHeight.toNat
        · exact .inl (habove hstart height hgt hto)
        · exact .inr (.inr ⟨hstart, by omega, by omega⟩)
  · have hlt : ¬ noVerifyHeight < chainHeight := fun h => hlong (UInt64.lt_iff_toNat_lt.mp h)
    have hadd : (chainHeight + noVerifyHeight).toNat = chainHeight.toNat + 10 := by
      rw [UInt64.toNat_add, show noVerifyHeight.toNat = 10 from rfl]
      exact Nat.mod_eq_of_lt (by omega)
    simp only [InWindow, if_neg hlong, if_neg hlt, hadd]
    constructor
    · intro hall
      by_cases hwindow : chainHeight - noVerifyHeight ≤ endSyncHeight ∧ ¬ StartsAt heights 1
      · exact .inl hwindow
      · refine .inr fun height hone hto => ?_
        rcases hall height hone (by omega) hto with hkept | ⟨htail, hstart, -⟩
        · exact hkept
        · exact absurd ⟨htail, hstart⟩ hwindow
    · rintro (⟨htail, hstart⟩ | hkept) height hone hfrom hto
      · exact .inr ⟨htail, hstart, hone, hto⟩
      · exact .inl (hkept height hone hto)

/-- The ranges cover what is needed exactly when every height that gets into none of them lies in a
    window that is added, and the windows do their part when synchronisation goes up to ten heights below
    the chain or further. -/
theorem ranges_cover_iff (heights : Heights) (chainHeight endSyncHeight : UInt64) :
    RangesCover heights chainHeight endSyncHeight ↔
      (∀ height ∈ lostHeights heights, InWindow heights chainHeight endSyncHeight height) ∧
      (chainHeight.toNat ≤ endSyncHeight.toNat + 10 → WindowsHold heights chainHeight endSyncHeight) := by
  rw [RangesCover]
  simp only [covered_needSyncHeights]
  refine and_congr ⟨fun hall height hlost => ?_, fun hall height hmem => ?_⟩ ?_
  · have hmem := (mem_of_mem_lost (by simp) hlost).resolve_left not_inOpen_none
    obtain ⟨h, hh, rfl⟩ := List.mem_map.mp hmem
    exact (hall h hh).resolve_left fun hkept => hkept.2 hlost
  · by_cases hlost : height.toNat ∈ lostHeights heights
    · exact .inr (hall _ hlost)
    · exact .inl ⟨List.mem_map_of_mem hmem, hlost⟩
  · exact ⟨fun hall hend => (windowsHold_iff hend).mp (hall hend),
      fun hall hend => (windowsHold_iff hend).mpr (hall hend)⟩

/-- Two heights that need it, one of them apart: it gets into no range. -/
theorem ranges_leave_out : ¬ RangesCover ⟨[1, 3], by decide⟩ 100 50 := by
  intro hcover
  have hranges : (needSyncHeights ⟨[1, 3], by decide⟩ 100 50).entries = [(1, 1)] := by decide
  obtain ⟨range, hrange, hle, hge⟩ := hcover.1 3 (List.mem_cons_of_mem _ List.mem_cons_self)
  rw [hranges, List.mem_singleton] at hrange
  subst hrange
  exact absurd hge (by decide)

end Tfs.Ca.SyncRanges
