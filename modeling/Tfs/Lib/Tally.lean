import Tfs.Lib.OrderedSet

/-! Votes in a map.

    Values go into a map one after the other, each under its key. What is found under a key in the end
    depends on the values that came under this key only, and on their order. -/

namespace Tfs.SortedMap
variable {κ ι ν β : Type} [LinearOrder κ] [LinearOrder ι]

/-! ### Values under keys -/

/-- The values of a key, in their order. -/
def valuesOf (k : κ) (l : List (κ × β)) : List β := (l.filter fun e => e.1 = k).map Prod.snd

theorem valuesOf_cons (k : κ) (e : κ × β) (l : List (κ × β)) :
    valuesOf k (e :: l) = if e.1 = k then e.2 :: valuesOf k l else valuesOf k l := by
  by_cases heq : e.1 = k
  · simp [valuesOf, heq]
  · simp [valuesOf, heq]

theorem valuesOf_eq_nil {k : κ} {l : List (κ × β)} : valuesOf k l = [] ↔ k ∉ l.map Prod.fst := by
  induction l with
  | nil => simp [valuesOf]
  | cons e l ih =>
    rw [valuesOf_cons, List.map_cons, List.mem_cons]
    by_cases heq : e.1 = k
    · rw [if_pos heq]
      exact iff_of_false (List.cons_ne_nil _ _) (not_not.mpr (.inl heq.symm))
    · rw [if_neg heq, ih, or_iff_right (Ne.symm heq)]

theorem mem_valuesOf {k : κ} {b : β} {l : List (κ × β)} : b ∈ valuesOf k l ↔ (k, b) ∈ l := by
  rw [valuesOf, List.mem_map]
  constructor
  · rintro ⟨e, he, rfl⟩
    obtain ⟨hin, heq⟩ := List.mem_filter.mp he
    obtain rfl : e.1 = k := by simpa using heq
    exact hin
  · exact fun h => ⟨(k, b), List.mem_filter.mpr ⟨h, by simp⟩, rfl⟩

theorem valuesOf_map {α : Type} (f : α → κ × β) {k : κ} {p : α → Bool} (hp : ∀ a, p a ↔ (f a).1 = k) (l : List α) :
    valuesOf k (l.map f) = (l.filter p).map fun a => (f a).2 := by
  rw [valuesOf, List.filter_map, List.map_map]
  have hfilter : ∀ a ∈ l, ((fun e : κ × β => decide (e.1 = k)) ∘ f) a = p a := fun a _ => by
    rw [Function.comp_apply, Bool.eq_iff_iff, hp, decide_eq_true_eq]
  rw [List.filter_congr hfilter]
  rfl

theorem count_valuesOf [BEq β] [LawfulBEq β] [BEq (κ × β)] [LawfulBEq (κ × β)] (k : κ) (b : β) (l : List (κ × β)) :
    (valuesOf k l).count b = l.count (k, b) := by
  induction l with
  | nil => rfl
  | cons e l ih =>
    rw [valuesOf_cons]
    by_cases hkey : e.1 = k
    · rw [if_pos hkey]
      by_cases heq : e.2 = b
      · rw [heq, List.count_cons_self, ih, show e = (k, b) from Prod.ext hkey heq, List.count_cons_self]
      · rw [List.count_cons_of_ne heq, ih, List.count_cons_of_ne fun h => heq (congrArg Prod.snd h)]
    · rw [if_neg hkey, ih, List.count_cons_of_ne fun h => hkey (congrArg Prod.fst h)]

/-- Every value of the list goes into the map under its key. -/
def insertEach (f : Option ν → β → ν) (m : SortedMap κ ν) (l : List (κ × β)) : SortedMap κ ν :=
  l.foldl (fun m e => m.upsert e.1 fun value => f value e.2) m

theorem find_insertEach (f : Option ν → β → ν) (k : κ) : ∀ (l : List (κ × β)) (m : SortedMap κ ν),
    (insertEach f m l).find k = (valuesOf k l).foldl (fun value b => some (f value b)) (m.find k)
  | [], _ => rfl
  | e :: l, m => by
    have ih := find_insertEach f k l (m.upsert e.1 fun value => f value e.2)
    rw [insertEach, List.foldl_cons, ← insertEach, ih, find_upsert, valuesOf_cons]
    by_cases heq : e.1 = k
    · rw [if_pos heq.symm, if_pos heq, heq, List.foldl_cons]
    · rw [if_neg (Ne.symm heq), if_neg heq]

theorem foldl_some (f : Option ν → β → ν) : ∀ (bs : List β) (v : ν),
    bs.foldl (fun value b => some (f value b)) (some v) = some (bs.foldl (fun v b => f (some v) b) v)
  | [], _ => rfl
  | b :: bs, v => foldl_some f bs (f (some v) b)

/-- In the empty map the first value of a key starts the entry, and the others are added to it. -/
theorem find_insertEach_empty (f : Option ν → β → ν) (k : κ) (l : List (κ × β)) :
    (insertEach f empty l).find k = match valuesOf k l with
      | [] => none
      | b :: bs => some (bs.foldl (fun v b => f (some v) b) (f none b)) := by
  rw [find_insertEach]
  cases valuesOf k l with
  | nil => rfl
  | cons b bs => exact foldl_some f bs (f none b)

/-- Where every entry starts in one way, the values of the key are added to that. -/
theorem find_insertEach_getD (g : ν → β → ν) (start : ν) (k : κ) (l : List (κ × β)) [Decidable (k ∈ l.map Prod.fst)] :
    (insertEach (fun value => g (value.getD start)) empty l).find k =
      if k ∈ l.map Prod.fst then some ((valuesOf k l).foldl g start) else none := by
  rw [find_insertEach_empty]
  by_cases hin : k ∈ l.map Prod.fst
  · rw [if_pos hin]
    cases hval : valuesOf k l with
    | nil => exact absurd hin (valuesOf_eq_nil.mp hval)
    | cons b bs => rfl
  · rw [if_neg hin, valuesOf_eq_nil.mpr hin]

/-- Where a value is put over the one before, the last one stays. -/
theorem find_insertEach_last (k : κ) (l : List (κ × ν)) :
    (insertEach (fun _ v => v) empty l).find k = (valuesOf k l).getLast? := by
  have hlast : ∀ (bs : List ν) (v : ν), bs.foldl (fun _ b => b) v = (v :: bs).getLast (List.cons_ne_nil _ _) := by
    intro bs
    induction bs with
    | nil => exact fun _ => rfl
    | cons b bs ih => exact fun v => (ih b).trans (List.getLast_cons _).symm
  rw [find_insertEach_empty]
  cases valuesOf k l with
  | nil => rfl
  | cons b bs => exact congrArg some (hlast bs b) |>.trans (List.getLast?_eq_some_getLast _).symm

/-! ### Counts -/

/-- One more for the key. -/
def countOne (m : SortedMap κ ℕ) (k : κ) : SortedMap κ ℕ := m.upsert k fun n => n.getD 0 + 1

/-- How often each key is named. -/
def tally (l : List κ) : SortedMap κ ℕ := l.foldl countOne empty

theorem length_valuesOf_map [BEq κ] [LawfulBEq κ] (k : κ) (l : List κ) :
    (valuesOf k (l.map (·, ()))).length = l.count k := by
  induction l with
  | nil => rfl
  | cons a l ih =>
    rw [List.map_cons, valuesOf_cons, List.count_cons]
    by_cases heq : a = k
    · rw [if_pos heq, List.length_cons, ih, if_pos (by simpa using heq)]
    · rw [if_neg heq, ih, if_neg (by simpa using heq), Nat.add_zero]

theorem find_tally [BEq κ] [LawfulBEq κ] (k : κ) (l : List κ) [Decidable (k ∈ l)] :
    (tally l).find k = if k ∈ l then some (l.count k) else none := by
  have hfold : tally l = insertEach (fun n _ => n.getD 0 + 1) empty (l.map (·, ())) := by
    rw [tally, insertEach, List.foldl_map]
    rfl
  have hcount : ∀ (bs : List Unit) (n : ℕ), bs.foldl (fun n _ => n + 1) n = n + bs.length := by
    intro bs
    induction bs with
    | nil => exact fun _ => rfl
    | cons b bs ih =>
      intro n
      rw [List.foldl_cons, ih, List.length_cons, Nat.add_right_comm, Nat.add_assoc]
  have hkeys : k ∈ (l.map (·, ())).map Prod.fst ↔ k ∈ l := by
    rw [List.map_map]
    exact iff_of_eq (congrArg (k ∈ ·) (List.map_id l))
  rw [hfold, find_insertEach_getD (fun n _ => n + 1), hcount, length_valuesOf_map, Nat.zero_add]
  exact if_congr hkeys rfl rfl

theorem mem_tally [BEq κ] [LawfulBEq κ] {k : κ} {n : ℕ} {l : List κ} : (k, n) ∈ (tally l).entries ↔ k ∈ l ∧ n = l.count k := by
  rw [mem_iff_find, find_tally]
  split_ifs with hin
  · simp [hin, eq_comm]
  · simp [hin]

/-- Where no list names a key twice, a key is named as often as there are lists that name it. -/
theorem count_flatMap_of_nodup {α : Type} [BEq β] [LawfulBEq β] (f : α → List β) (b : β) : ∀ {l : List α},
    (∀ a ∈ l, (f a).Nodup) → (l.flatMap f).count b = l.countP fun a => (f a).contains b
  | [], _ => rfl
  | a :: l, h => by
    obtain ⟨ha, hl⟩ := List.forall_mem_cons.mp h
    rw [List.flatMap_cons, List.count_append, count_flatMap_of_nodup f b hl, List.countP_cons, Nat.add_comm]
    by_cases hin : b ∈ f a
    · rw [List.count_eq_one_of_mem ha hin, if_pos (List.contains_iff_mem.mpr hin)]
    · rw [List.count_eq_zero_of_not_mem hin, if_neg fun h => hin (List.contains_iff_mem.mp h)]

/-- Two properties that exclude each other are not counted more often than there are elements. -/
theorem countP_add_countP_le {α : Type} {p q : α → Bool} : ∀ {l : List α},
    (∀ a ∈ l, p a → ¬ q a) → l.countP p + l.countP q ≤ l.length
  | [], _ => le_rfl
  | a :: l, h => by
    obtain ⟨ha, hl⟩ := List.forall_mem_cons.mp h
    have ih := countP_add_countP_le hl
    rw [List.countP_cons, List.countP_cons, List.length_cons]
    by_cases hp : p a
    · rw [if_pos hp, if_neg (ha hp)]
      omega
    · rw [if_neg hp]
      split_ifs
      · omega
      · omega

/-- In a map the order of the entries is that of their keys. -/
theorem idxOf_le_idxOf [DecidableEq (κ × ν)] {m : SortedMap κ ν} {a b : κ × ν} (ha : a ∈ m.entries)
    (hb : b ∈ m.entries) : m.entries.idxOf a ≤ m.entries.idxOf b ↔ a.1 ≤ b.1 := by
  have hlt : ∀ {a b : κ × ν}, a ∈ m.entries → b ∈ m.entries → m.entries.idxOf a < m.entries.idxOf b → a.1 < b.1 := by
    intro a b ha hb hidx
    have h := List.pairwise_iff_getElem.mp m.sorted _ _ (List.idxOf_lt_length_of_mem ha)
      (List.idxOf_lt_length_of_mem hb) hidx
    rwa [List.getElem_idxOf, List.getElem_idxOf] at h
  constructor
  · intro hle
    rcases hle.lt_or_eq with hidx | hidx
    · exact (hlt ha hb hidx).le
    · rw [(List.idxOf_inj ha).mp hidx]
  · intro hle
    by_contra hidx
    exact absurd (hlt hb ha (not_le.mp hidx)) (not_lt.mpr hle)

/-- The entry with the largest number; of several, the first. -/
theorem argmax_entries {m : SortedMap κ ℕ} {e : κ × ℕ} : m.entries.argmax Prod.snd = some e ↔
    e ∈ m.entries ∧ ∀ e' ∈ m.entries, e'.2 < e.2 ∨ e'.2 = e.2 ∧ e.1 ≤ e'.1 := by
  rw [← Option.mem_def, List.mem_argmax_iff]
  refine and_congr_right fun he => ?_
  constructor
  · rintro ⟨hmax, hfirst⟩ e' he'
    rcases (hmax e' he').lt_or_eq with hlt | heq
    · exact .inl hlt
    · exact .inr ⟨heq, (idxOf_le_idxOf he he').mp (hfirst e' he' heq.ge)⟩
  · intro hall
    refine ⟨fun e' he' => ?_, fun e' he' hge => (idxOf_le_idxOf he he').mpr ?_⟩
    · exact (hall e' he').elim (fun h => h.le) fun h => h.1.le
    · exact ((hall e' he').resolve_left (not_lt.mpr hge)).2

/-- The first entry that gives a result is the one with the least key. -/
theorem findSome?_entries {γ : Type} {f : κ × ν → Option γ} {r : γ} {m : SortedMap κ ν} :
    m.entries.findSome? f = some r ↔
      ∃ e ∈ m.entries, f e = some r ∧ ∀ e' ∈ m.entries, e'.1 < e.1 → f e' = none := by
  have hsorted : ∀ l : List (κ × ν), l.Pairwise (fun a b => a.1 < b.1) → (l.findSome? f = some r ↔
      ∃ e ∈ l, f e = some r ∧ ∀ e' ∈ l, e'.1 < e.1 → f e' = none) := by
    intro l
    induction l with
    | nil => simp
    | cons a l ih =>
      intro h
      obtain ⟨ha, hl⟩ := List.pairwise_cons.mp h
      rw [List.findSome?_cons, List.exists_mem_cons_iff]
      cases hfa : f a with
      | some s =>
        simp only [Option.some_inj, List.forall_mem_cons]
        constructor
        · rintro rfl
          exact .inl ⟨rfl, fun hlt => absurd hlt (lt_irrefl _), fun e he hlt => absurd (ha e he) hlt.asymm⟩
        · rintro (⟨heq, -⟩ | ⟨e, he, -, hnone, -⟩)
          · exact heq
          · cases hfa.symm.trans (hnone (ha e he))
      | none =>
        simp only [List.forall_mem_cons, hfa, implies_true, true_and, reduceCtorEq, false_and, false_or]
        exact ih hl
  exact hsorted m.entries m.sorted

/-- The largest value so far, with the first key that has it. -/
structure IsRunningMax (f : κ × β → ℕ) (l : List (κ × β)) (best : ℕ × κ) : Prop where
  le : ∀ e ∈ l, f e ≤ best.1
  first : 0 < best.1 → ∃ e ∈ l, best = (f e, e.1) ∧ ∀ e' ∈ l, f e' = f e → e.1 ≤ e'.1

/-- Taking over what is strictly larger keeps the first of the largest. -/
theorem isRunningMax_foldl (f : κ × β → ℕ) (k : κ) (l : List (κ × β)) (hl : l.Pairwise fun a b => a.1 < b.1) :
    IsRunningMax f l (l.foldl (fun best e => if best.1 < f e then (f e, e.1) else best) (0, k)) := by
  induction l using List.reverseRecOn with
  | nil => exact ⟨nofun, fun h => absurd h (lt_irrefl 0)⟩
  | append_singleton l e ih =>
    obtain ⟨hinit, -, hlast⟩ := List.pairwise_append.mp hl
    obtain ⟨hle, hfirst⟩ := ih hinit
    rw [List.foldl_concat]
    split_ifs with hlt
    · refine ⟨fun e' he' => ?_, fun _ => ⟨e, List.mem_concat_self, rfl, fun e' he' heq => ?_⟩⟩
      · rcases List.mem_append.mp he' with he' | he'
        · exact (hle e' he').trans hlt.le
        · rw [List.mem_singleton.mp he']
      · rcases List.mem_append.mp he' with he' | he'
        · exact absurd ((hle e' he').trans_lt hlt) heq.not_lt
        · rw [List.mem_singleton.mp he']
    · refine ⟨fun e' he' => ?_, fun hpos => ?_⟩
      · rcases List.mem_append.mp he' with he' | he'
        · exact hle e' he'
        · rw [List.mem_singleton.mp he']
          exact not_lt.mp hlt
      · obtain ⟨best, hbest, heq, hmin⟩ := hfirst hpos
        refine ⟨best, List.mem_append_left _ hbest, heq, fun e' he' hsame => ?_⟩
        rcases List.mem_append.mp he' with he' | he'
        · exact hmin e' he' hsame
        · rw [List.mem_singleton.mp he']
          exact (hlast best hbest e (List.mem_singleton_self e)).le

/-- Under each first part, how often each second part is named with it. -/
def tallyEach (l : List (κ × ι)) : SortedMap κ (SortedMap ι ℕ) :=
  insertEach (fun votes => countOne (votes.getD empty)) empty l

theorem mem_tallyEach {k : κ} {votes : SortedMap ι ℕ} {l : List (κ × ι)} :
    (k, votes) ∈ (tallyEach l).entries ↔ k ∈ l.map Prod.fst ∧ votes = tally (valuesOf k l) := by
  rw [mem_iff_find, tallyEach, find_insertEach_getD countOne empty]
  split_ifs with hin
  · rw [and_iff_right hin, Option.some_inj, eq_comm]
    rfl
  · exact iff_of_false nofun fun h => hin h.1

/-! ### Groups -/

section Groups
variable {α : Type} (key : α → κ) (f : α → List β)

/-- The values of every element under its key. -/
def keyed (l : List α) : List (κ × β) := l.flatMap fun a => (f a).map (key a, ·)

/-- The values of a key, put one behind the other. -/
def groupEach (l : List (κ × β)) : SortedMap κ (List β) := insertEach (fun values b => values.getD [] ++ [b]) empty l

variable {key f}

theorem valuesOf_keyed (k : κ) (l : List α) : valuesOf k (keyed key f l) = l.flatMap fun a => if key a = k then f a else [] := by
  rw [valuesOf, keyed, List.filter_flatMap, List.map_flatMap]
  refine List.flatMap_congr fun a _ => ?_
  split_ifs with heq
  · simp [List.filter_map, Function.comp_def, heq]
  · simp [List.filter_map, Function.comp_def, heq]

/-- Where keys are distinct, the values of a key are those of its one element. -/
theorem valuesOf_keyed_of_nodup {a : α} : ∀ {l : List α}, (l.map key).Nodup → a ∈ l →
    valuesOf (key a) (keyed key f l) = f a
  | [], _, ha => by cases ha
  | b :: l, h, ha => by
    obtain ⟨hb, hl⟩ := List.nodup_cons.mp h
    rw [valuesOf_keyed, List.flatMap_cons, ← valuesOf_keyed]
    rcases List.mem_cons.mp ha with rfl | ha
    · have hnone : valuesOf (key a) (keyed key f l) = [] := by
        rw [valuesOf_keyed, List.flatMap_eq_nil_iff]
        exact fun c hc => if_neg fun heq : key c = key a => hb (List.mem_map.mpr ⟨c, hc, heq⟩)
      rw [if_pos rfl, hnone, List.append_nil]
    · have hne : key b ≠ key a := fun heq => hb (List.mem_map.mpr ⟨a, ha, heq.symm⟩)
      rw [if_neg hne, List.nil_append, valuesOf_keyed_of_nodup hl ha]

theorem mem_groupEach {k : κ} {values : List β} {l : List (κ × β)} :
    (k, values) ∈ (groupEach l).entries ↔ values ≠ [] ∧ values = valuesOf k l := by
  classical
  have hfold : ∀ (bs acc : List β), bs.foldl (fun values b => values ++ [b]) acc = acc ++ bs := by
    intro bs
    induction bs with
    | nil => simp
    | cons b bs ih => simp [ih]
  rw [mem_iff_find, groupEach, find_insertEach_getD (fun values b => values ++ [b]) [], hfold, List.nil_append]
  have hkey : k ∈ l.map Prod.fst ↔ valuesOf k l ≠ [] := by rw [ne_eq, valuesOf_eq_nil, not_not]
  split_ifs with hin
  · rw [Option.some_inj, eq_comm]
    exact (and_iff_right_of_imp fun heq => heq ▸ hkey.mp hin).symm
  · refine iff_of_false (by simp) ?_
    rintro ⟨hne, rfl⟩
    exact hin (hkey.mpr hne)

/-- Where keys are distinct, there is a group for every element with values. -/
theorem entries_groupEach_keyed {l : List α} [DecidablePred fun a => f a ≠ []] (h : (l.map key).Nodup) :
    (groupEach (keyed key f l)).entries.Perm ((l.filter fun a => f a ≠ []).map fun a => (key a, f a)) := by
  have hentries : (groupEach (keyed key f l)).entries.Nodup :=
    (groupEach (keyed key f l)).sorted.imp fun hlt heq => hlt.ne (congrArg Prod.fst heq)
  have helements : ((l.filter fun a => f a ≠ []).map fun a => (key a, f a)).Nodup := by
    refine List.Nodup.of_map Prod.fst ?_
    rw [List.map_map]
    exact (List.filter_sublist.map key).nodup h
  refine (List.perm_ext_iff_of_nodup hentries helements).mpr ?_
  rintro ⟨k, values⟩
  rw [mem_groupEach, List.mem_map]
  constructor
  · rintro ⟨hne, rfl⟩
    obtain ⟨b, hb⟩ := List.exists_mem_of_ne_nil _ hne
    obtain ⟨a, ha, hin⟩ := List.mem_flatMap.mp (mem_valuesOf.mp hb)
    obtain ⟨b', -, heq⟩ := List.mem_map.mp hin
    obtain rfl : key a = k := congrArg Prod.fst heq
    rw [valuesOf_keyed_of_nodup h ha] at hne ⊢
    exact ⟨a, List.mem_filter.mpr ⟨ha, by simpa using hne⟩, rfl⟩
  · rintro ⟨a, ha, heq⟩
    obtain ⟨ha, hne⟩ := List.mem_filter.mp ha
    cases heq
    rw [valuesOf_keyed_of_nodup h ha]
    exact ⟨by simpa using hne, rfl⟩

end Groups

/-! ### Counts from the top -/

/-- One round of adding up from the highest key: the sum so far goes under the key. -/
def sumInto (e : κ × ℕ) (s : ℕ × SortedMap κ ℕ) : ℕ × SortedMap κ ℕ := (s.1 + e.2, s.2.upsert e.1 fun _ => s.1 + e.2)

/-- Under each key, the sum of its number and of those of all higher keys. -/
def sumsFromTop (m : SortedMap κ ℕ) : SortedMap κ ℕ := (m.entries.foldr sumInto (0, empty)).2

theorem foldr_sumInto (k : κ) : ∀ {l : List (κ × ℕ)}, l.Pairwise (fun a b => a.1 < b.1) →
    (l.foldr sumInto (0, empty)).1 = (l.map Prod.snd).sum ∧
    (l.foldr sumInto (0, empty)).2.find k =
      if k ∈ l.map Prod.fst then some ((l.filter fun e => k ≤ e.1).map Prod.snd).sum else none
  | [], _ => ⟨rfl, rfl⟩
  | e :: l, h => by
    obtain ⟨he, hl⟩ := List.pairwise_cons.mp h
    obtain ⟨hsum, hfind⟩ := foldr_sumInto k hl
    rw [List.foldr_cons, sumInto, hsum, find_upsert, hfind, List.map_cons, List.map_cons, List.sum_cons]
    refine ⟨Nat.add_comm _ _, ?_⟩
    rcases lt_trichotomy k e.1 with hlt | rfl | hgt
    · have hnot : k ∉ l.map Prod.fst := by
        rintro hin
        obtain ⟨e', he', rfl⟩ := List.mem_map.mp hin
        exact absurd (he e' he') hlt.asymm
      rw [if_neg hlt.ne, if_neg hnot, if_neg (List.not_mem_cons_of_ne_of_not_mem hlt.ne hnot)]
    · have hall : (l.filter fun e' => e.1 ≤ e'.1) = l := List.filter_eq_self.mpr fun e' he' => by simpa using (he e' he').le
      rw [if_pos rfl, if_pos List.mem_cons_self, List.filter_cons_of_pos (by simp), hall, List.map_cons, List.sum_cons,
        Nat.add_comm]
    · rw [if_neg hgt.ne', List.filter_cons_of_neg (by simpa using hgt)]
      exact if_congr (by rw [List.mem_cons, or_iff_right hgt.ne']) rfl rfl

/-- Of a tally, this is how many elements are at or above each element. -/
theorem mem_sumsFromTop_tally {k : κ} {n : ℕ} {l : List κ} :
    (k, n) ∈ (sumsFromTop (tally l)).entries ↔ k ∈ l ∧ n = l.countP (k ≤ ·) := by
  have hentries : (tally l).entries.Perm (l.dedup.map fun a => (a, l.count a)) := by
    refine (List.perm_ext_iff_of_nodup ?_ ?_).mpr ?_
    · exact (tally l).sorted.imp fun hlt heq => hlt.ne (congrArg Prod.fst heq)
    · exact (List.nodup_dedup l).map fun a b h => congrArg Prod.fst h
    · rintro ⟨a, c⟩
      rw [mem_tally, List.mem_map]
      simp [eq_comm]
  have hkeys : k ∈ (tally l).entries.map Prod.fst ↔ k ∈ l := by
    rw [(hentries.map Prod.fst).mem_iff, List.map_map]
    simp
  have hsum : (((tally l).entries.filter fun e => k ≤ e.1).map Prod.snd).sum = l.countP (k ≤ ·) := by
    rw [((hentries.filter _).map Prod.snd).sum_eq, List.filter_map, List.map_map, ← List.sum_map_count_dedup_filter_eq_countP]
    rfl
  rw [mem_iff_find, sumsFromTop, (foldr_sumInto k (tally l).sorted).2, hsum]
  split_ifs with hin
  · simp [hkeys.mp hin, eq_comm]
  · simp [mt hkeys.mpr hin]

end Tfs.SortedMap
