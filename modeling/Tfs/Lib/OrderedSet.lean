import Mathlib

/-! `std::set` with a comparator, and `std::map`.

    The set keeps its elements in the order of a strict comparison; two elements that the comparison
    does not separate count as equal, so inserting the second of them does nothing. The map keeps its
    entries in the order of their keys. -/

namespace Tfs

/-- `std::set<α, lt>`: its elements in iteration order. -/
structure StdSet {α : Type} (lt : α → α → Prop) where
  elems : List α
  sorted : elems.Pairwise lt

namespace StdSet

variable {α : Type} {lt : α → α → Prop}

/-- The set without elements. -/
def empty : StdSet lt := ⟨[], .nil⟩

instance : Membership α (StdSet lt) := ⟨fun s x => x ∈ s.elems⟩

theorem mem_def {s : StdSet lt} {x : α} : x ∈ s ↔ x ∈ s.elems := Iff.rfl

@[simp] theorem not_mem_empty (x : α) : x ∉ (empty : StdSet lt) := List.not_mem_nil

/-- The comparison does not separate `x` and `y`. -/
def Equiv (lt : α → α → Prop) (x y : α) : Prop := ¬ lt x y ∧ ¬ lt y x

instance [DecidableRel lt] (x y : α) : Decidable (Equiv lt x y) := inferInstanceAs (Decidable (_ ∧ _))

/-- Different elements of a set are separated. -/
theorem eq_of_equiv {s : StdSet lt} {x y : α} (hx : x ∈ s) (hy : y ∈ s) (h : Equiv lt x y) :
    x = y := by
  by_contra hne
  rcases List.pairwise_iff_getElem.mp s.sorted with hs
  obtain ⟨i, hi, rfl⟩ := List.getElem_of_mem hx
  obtain ⟨j, hj, rfl⟩ := List.getElem_of_mem hy
  rcases Nat.lt_trichotomy i j with hij | rfl | hij
  · exact h.1 (hs i j hi hj hij)
  · exact hne rfl
  · exact h.2 (hs j i hj hi hij)

/-! ### Insertion -/

section Insert

variable [DecidableRel lt]

/-- Where `insert` puts an element into a sorted list. -/
def insertElem (lt : α → α → Prop) [DecidableRel lt] (x : α) : List α → List α
  | [] => [x]
  | y :: ys => if lt x y then x :: y :: ys else if lt y x then y :: insertElem lt x ys else y :: ys

variable [IsTrans α lt]

/-- A new element is in, unless an old one is not separated from it. -/
theorem mem_insertElem (x z : α) : ∀ {l : List α}, l.Pairwise lt →
    (z ∈ insertElem lt x l ↔ z ∈ l ∨ z = x ∧ ∀ y ∈ l, ¬ Equiv lt x y)
  | [], _ => by simp [insertElem]
  | y :: ys, h => by
    obtain ⟨hy, hys⟩ := List.pairwise_cons.mp h
    rw [insertElem]
    split_ifs with hxy hyx
    · have hall : ∀ w ∈ y :: ys, ¬ Equiv lt x w := by
        intro w hw heq
        rcases List.mem_cons.mp hw with rfl | hw
        · exact heq.1 hxy
        · exact heq.1 (IsTrans.trans _ _ _ hxy (hy w hw))
      rw [List.mem_cons, or_comm]
      exact or_congr_right (and_iff_left hall).symm
    · have hsep : ¬ Equiv lt x y := fun heq => heq.2 hyx
      rw [List.mem_cons, mem_insertElem x z hys, List.mem_cons, or_assoc, List.forall_mem_cons,
        and_iff_right hsep]
    · have heq : ¬ ∀ w ∈ y :: ys, ¬ Equiv lt x w := fun hall => hall y List.mem_cons_self ⟨hxy, hyx⟩
      exact (or_iff_left fun hz => heq hz.2).symm

theorem insertElem_sorted (x : α) : ∀ {l : List α}, l.Pairwise lt → (insertElem lt x l).Pairwise lt
  | [], _ => by simp [insertElem]
  | y :: ys, h => by
    obtain ⟨hy, hys⟩ := List.pairwise_cons.mp h
    rw [insertElem]
    split_ifs with hxy hyx
    · refine List.pairwise_cons.mpr ⟨fun w hw => ?_, h⟩
      rcases List.mem_cons.mp hw with rfl | hw
      · exact hxy
      · exact IsTrans.trans _ _ _ hxy (hy w hw)
    · refine List.pairwise_cons.mpr ⟨fun w hw => ?_, insertElem_sorted x hys⟩
      rcases (mem_insertElem x w hys).mp hw with hw | ⟨rfl, -⟩
      · exact hy w hw
      · exact hyx
    · exact h

/-- `s.insert(x)`. -/
def insert (s : StdSet lt) (x : α) : StdSet lt := ⟨insertElem lt x s.elems, insertElem_sorted x s.sorted⟩

theorem mem_insert {s : StdSet lt} {x z : α} :
    z ∈ s.insert x ↔ z ∈ s ∨ z = x ∧ ∀ y ∈ s, ¬ Equiv lt x y := mem_insertElem x z s.sorted

theorem mem_insert_self {s : StdSet lt} {x : α} (h : ∀ y ∈ s, ¬ Equiv lt x y) : x ∈ s.insert x :=
  mem_insert.mpr (.inr ⟨rfl, h⟩)

theorem mem_insert_of_mem {s : StdSet lt} {x z : α} (h : z ∈ s) : z ∈ s.insert x :=
  mem_insert.mpr (.inl h)

/-- Inserting a list, one after the other. -/
def insertAll (s : StdSet lt) (l : List α) : StdSet lt := l.foldl insert s

theorem mem_insertAll_of_mem {z : α} : ∀ {l : List α} {s : StdSet lt}, z ∈ s → z ∈ s.insertAll l
  | [], _, h => h
  | x :: _, s, h => mem_insertAll_of_mem (s := s.insert x) (mem_insert_of_mem h)

/-- Nothing else gets in. -/
theorem mem_of_mem_insertAll {z : α} : ∀ {l : List α} {s : StdSet lt}, z ∈ s.insertAll l → z ∈ s ∨ z ∈ l
  | [], _, h => .inl h
  | x :: l, s, h => by
    rcases mem_of_mem_insertAll (s := s.insert x) h with h | h
    · rcases mem_insert.mp h with h | ⟨rfl, -⟩
      · exact .inl h
      · exact .inr List.mem_cons_self
    · exact .inr (List.mem_cons_of_mem _ h)

/-- Inserting several lists is inserting all they hold. -/
theorem foldl_insertAll {β : Type} (f : β → List α) : ∀ (rounds : List β) (s : StdSet lt),
    rounds.foldl (fun s r => s.insertAll (f r)) s = s.insertAll (rounds.flatMap f)
  | [], _ => rfl
  | r :: rounds, s => by
    rw [List.foldl_cons, foldl_insertAll f rounds, List.flatMap_cons, insertAll, insertAll, insertAll,
      List.foldl_append]

/-- All elements of a list get in exactly when the comparison separates each of them from every other
    one and from what was in before. -/
theorem insertAll_complete : ∀ {l : List α} {s : StdSet lt}, (∀ x ∈ l, x ∈ s.insertAll l) ↔
    ∀ x ∈ l, ∀ y, y ∈ s ∨ y ∈ l → Equiv lt x y → x = y := by
  intro l s
  constructor
  · intro hall x hx y hy heq
    have hmem : y ∈ s.insertAll l := hy.elim mem_insertAll_of_mem (hall y)
    exact eq_of_equiv (hall x hx) hmem heq
  · intro hsep
    induction l generalizing s with
    | nil => intro x hx; cases hx
    | cons a l ih =>
      intro x hx
      rcases List.mem_cons.mp hx with rfl | hx
      · refine mem_insertAll_of_mem (s := s.insert x) ?_
        by_cases hin : x ∈ s
        · exact mem_insert_of_mem hin
        · refine mem_insert_self fun y hy heq => hin ?_
          rw [hsep x hx y (.inl hy) heq]
          exact hy
      · refine ih (s := s.insert a) (fun x hx y hy heq => ?_) x hx
        refine hsep x (List.mem_cons_of_mem _ hx) y ?_ heq
        rcases hy with hy | hy
        · rcases mem_insert.mp hy with hy | ⟨rfl, -⟩
          · exact .inl hy
          · exact .inr List.mem_cons_self
        · exact .inr (List.mem_cons_of_mem _ hy)

end Insert

/-! ### Removal -/

/-- The elements that satisfy `p`; the others are erased. -/
def filter (s : StdSet lt) (p : α → Bool) : StdSet lt := ⟨s.elems.filter p, s.sorted.filter p⟩

/-- A set is the list of its elements. -/
theorem eq_of_elems {s t : StdSet lt} (h : s.elems = t.elems) : s = t := by
  cases s
  cases t
  congr

@[simp] theorem filter_elems (s : StdSet lt) (p : α → Bool) : (s.filter p).elems = s.elems.filter p := rfl

theorem mem_filter {s : StdSet lt} {p : α → Bool} {x : α} : x ∈ s.filter p ↔ x ∈ s ∧ p x = true :=
  List.mem_filter

/-- `s.erase(it)` for the first element that satisfies `p`. -/
def eraseFirst (s : StdSet lt) (p : α → Bool) : StdSet lt :=
  ⟨s.elems.eraseP p, s.sorted.sublist (List.eraseP_sublist)⟩

/-- Erasing the first element found takes out that one only. -/
theorem mem_eraseFirst (hirr : ∀ x, ¬ lt x x) {s : StdSet lt} {p : α → Bool} {c x : α}
    (hfind : s.elems.find? p = some c) : x ∈ s.eraseFirst p ↔ x ∈ s ∧ x ≠ c := by
  obtain ⟨hpc, as, bs, hl, has⟩ := List.find?_eq_some_iff_append.mp hfind
  have hnodup : s.elems.Nodup := by
    refine s.sorted.imp fun {a b} hab heq => ?_
    rw [heq] at hab
    exact hirr b hab
  have herase : s.elems.eraseP p = as ++ bs := by
    rw [hl, List.eraseP_append_right _ fun a ha => by simpa using has a ha, List.eraseP_cons_of_pos hpc]
  rw [mem_def, mem_def, show (s.eraseFirst p).elems = as ++ bs from herase, hl]
  rw [hl, List.nodup_middle, List.nodup_cons] at hnodup
  simp only [List.mem_append, List.mem_cons]
  constructor
  · intro hx
    refine ⟨hx.imp id .inr, ?_⟩
    rintro rfl
    exact hnodup.1 (List.mem_append.mpr hx)
  · rintro ⟨hx | rfl | hx, hne⟩
    · exact .inl hx
    · exact absurd rfl hne
    · exact .inr hx

end StdSet

/-- `std::map<κ, ν>`: its entries in iteration order. -/
structure SortedMap (κ ν : Type) [LT κ] where
  entries : List (κ × ν)
  sorted : entries.Pairwise fun a b => a.1 < b.1

namespace SortedMap

variable {κ ν : Type} [LinearOrder κ]

/-- The map without entries. -/
def empty : SortedMap κ ν := ⟨[], .nil⟩

/-- `m.find(k)`. -/
def find (m : SortedMap κ ν) (k : κ) : Option ν := (m.entries.find? fun e => e.1 = k).map Prod.snd

/-- `m[k] = f(m[k])` in a sorted list, where `f` gets `none` for a missing key. -/
def upsertEntry (k : κ) (f : Option ν → ν) : List (κ × ν) → List (κ × ν)
  | [] => [(k, f none)]
  | e :: es =>
    if k < e.1 then (k, f none) :: e :: es
    else if e.1 < k then e :: upsertEntry k f es
    else (k, f (some e.2)) :: es

theorem mem_upsertEntry {k : κ} {f : Option ν → ν} {e : κ × ν} : ∀ {l : List (κ × ν)},
    e ∈ upsertEntry k f l → e.1 = k ∨ e ∈ l
  | [], h => by
    rw [upsertEntry, List.mem_singleton] at h
    exact .inl (by rw [h])
  | d :: l, h => by
    rw [upsertEntry] at h
    split_ifs at h
    · exact (List.mem_cons.mp h).imp (fun h => by rw [h]) id
    · rcases List.mem_cons.mp h with rfl | h
      · exact .inr List.mem_cons_self
      · exact (mem_upsertEntry h).imp id (List.mem_cons_of_mem _)
    · exact (List.mem_cons.mp h).imp (fun h => by rw [h]) (List.mem_cons_of_mem _)

theorem upsertEntry_sorted {k : κ} {f : Option ν → ν} : ∀ {l : List (κ × ν)},
    l.Pairwise (fun a b => a.1 < b.1) → (upsertEntry k f l).Pairwise fun a b => a.1 < b.1
  | [], _ => by simp [upsertEntry]
  | d :: l, h => by
    obtain ⟨hd, hl⟩ := List.pairwise_cons.mp h
    rw [upsertEntry]
    split_ifs with hlt hgt
    · refine List.pairwise_cons.mpr ⟨fun e he => ?_, h⟩
      rcases List.mem_cons.mp he with rfl | he
      · exact hlt
      · exact hlt.trans (hd e he)
    · refine List.pairwise_cons.mpr ⟨fun e he => ?_, upsertEntry_sorted hl⟩
      rcases mem_upsertEntry he with heq | he
      · rw [heq]; exact hgt
      · exact hd e he
    · have hk : d.1 = k := le_antisymm (not_lt.mp hlt) (not_lt.mp hgt)
      refine List.pairwise_cons.mpr ⟨fun e he => ?_, hl⟩
      rw [← hk]
      exact hd e he

/-- `m[k] = f(m[k])`. -/
def upsert (m : SortedMap κ ν) (k : κ) (f : Option ν → ν) : SortedMap κ ν :=
  ⟨upsertEntry k f m.entries, upsertEntry_sorted m.sorted⟩

/-- Every value is replaced; the entries that get no new value are erased. -/
def filterMap (m : SortedMap κ ν) (f : ν → Option ν) : SortedMap κ ν :=
  ⟨m.entries.filterMap fun e => (f e.2).map (e.1, ·), by
    refine List.pairwise_filterMap.mpr (m.sorted.imp fun {a b} hab a' ha b' hb => ?_)
    obtain ⟨_, -, rfl⟩ := Option.map_eq_some_iff.mp ha
    obtain ⟨_, -, rfl⟩ := Option.map_eq_some_iff.mp hb
    exact hab⟩

/-- A key has one entry. -/
theorem eq_of_key_eq {m : SortedMap κ ν} {a b : κ × ν} (ha : a ∈ m.entries) (hb : b ∈ m.entries)
    (h : a.1 = b.1) : a = b := by
  have hset : StdSet.Equiv (fun a b : κ × ν => a.1 < b.1) a b :=
    ⟨fun hlt => absurd h hlt.ne, fun hlt => absurd h hlt.ne'⟩
  exact @StdSet.eq_of_equiv _ _ ⟨m.entries, m.sorted⟩ a b ha hb hset

theorem mem_iff_find {m : SortedMap κ ν} {k : κ} {v : ν} : (k, v) ∈ m.entries ↔ m.find k = some v := by
  constructor
  · intro hmem
    obtain ⟨e, he⟩ : ∃ e, m.entries.find? (fun e => e.1 = k) = some e :=
      Option.isSome_iff_exists.mp (List.find?_isSome.mpr ⟨(k, v), hmem, by simp⟩)
    have hkey : e.1 = k := by simpa using List.find?_some he
    have heq := eq_of_key_eq (List.mem_of_find?_eq_some he) hmem hkey
    rw [find, he, heq, Option.map_some]
  · intro hfind
    obtain ⟨e, he, rfl⟩ := Option.map_eq_some_iff.mp hfind
    have hkey : e.1 = k := by simpa using List.find?_some he
    rw [← hkey]
    exact List.mem_of_find?_eq_some he

theorem find_filterMap (m : SortedMap κ ν) (f : ν → Option ν) (k : κ) :
    (m.filterMap f).find k = (m.find k).bind f := by
  refine Option.ext fun v => ?_
  rw [← mem_iff_find, Option.bind_eq_some_iff, filterMap, List.mem_filterMap]
  constructor
  · rintro ⟨e, he, hf⟩
    obtain ⟨v', hv', heq⟩ := Option.map_eq_some_iff.mp hf
    cases heq
    exact ⟨e.2, mem_iff_find.mp he, hv'⟩
  · rintro ⟨w, hw, hv⟩
    exact ⟨(k, w), mem_iff_find.mpr hw, by rw [hv]; rfl⟩

theorem find_eq_none_of_lt {k : κ} {l : List (κ × ν)} (h : ∀ e ∈ l, k < e.1) :
    l.find? (fun e => e.1 = k) = none := by
  refine List.find?_eq_none.mpr fun e he => ?_
  simpa using (h e he).ne'

theorem find_upsertEntry (k j : κ) (f : Option ν → ν) : ∀ {l : List (κ × ν)},
    l.Pairwise (fun a b => a.1 < b.1) →
    ((upsertEntry k f l).find? fun e => e.1 = j).map Prod.snd
      = if j = k then some (f ((l.find? fun e => e.1 = k).map Prod.snd))
        else (l.find? fun e => e.1 = j).map Prod.snd
  | [], _ => by
    by_cases hj : j = k
    · simp [upsertEntry, hj]
    · simp [upsertEntry, hj, Ne.symm hj]
  | d :: l, h => by
    obtain ⟨hd, hl⟩ := List.pairwise_cons.mp h
    rw [upsertEntry]
    by_cases hlt : k < d.1
    · -- the key is smaller than all others, so it is new
      have hnone : (d :: l).find? (fun e => e.1 = k) = none := by
        refine find_eq_none_of_lt fun e he => ?_
        rcases List.mem_cons.mp he with rfl | he
        · exact hlt
        · exact hlt.trans (hd e he)
      rw [if_pos hlt, hnone, List.find?_cons]
      by_cases hj : j = k
      · simp [hj]
      · simp [hj, Ne.symm hj]
    rw [if_neg hlt]
    by_cases hgt : d.1 < k
    · rw [if_pos hgt, List.find?_cons, List.find?_cons, List.find?_cons]
      have ih := find_upsertEntry k j f hl
      have hdk : (decide (d.1 = k)) = false := by simpa using hgt.ne
      rw [hdk]
      by_cases hdj : d.1 = j
      · have hjk : j ≠ k := by rw [← hdj]; exact hgt.ne
        simp [hdj, hjk]
      · simp only [hdj, decide_false]
        exact ih
    · have hk : d.1 = k := le_antisymm (not_lt.mp hlt) (not_lt.mp hgt)
      rw [if_neg hgt, List.find?_cons, List.find?_cons, List.find?_cons]
      by_cases hj : j = k
      · simp [hj, hk]
      · simp [hj, Ne.symm hj, hk]

/-- What a map holds after an assignment. -/
theorem find_upsert (m : SortedMap κ ν) (k j : κ) (f : Option ν → ν) :
    (m.upsert k f).find j = if j = k then some (f (m.find k)) else m.find j :=
  find_upsertEntry k j f m.sorted

/-- An entry after an assignment is the one assigned, or was there before. -/
theorem mem_upsert {m : SortedMap κ ν} {k : κ} {f : Option ν → ν} {e : κ × ν} (h : e ∈ (m.upsert k f).entries) :
    e = (k, f (m.find k)) ∨ e ∈ m.entries := by
  obtain ⟨j, v⟩ := e
  rw [mem_iff_find, find_upsert] at h
  split_ifs at h with hkey
  · exact .inl (by rw [hkey, Option.some.inj h])
  · exact .inr (mem_iff_find.mpr h)

/-- Maps that agree under `f` at every key agree under `f` entry by entry. -/
theorem map_entries_eq {β : Type} {f : ν → β} {m m' : SortedMap κ ν}
    (h : ∀ k, (m.find k).map f = (m'.find k).map f) :
    m.entries.map (fun e => (e.1, f e.2)) = m'.entries.map fun e => (e.1, f e.2) := by
  have hmem (m : SortedMap κ ν) (k : κ) (b : β) :
      (k, b) ∈ m.entries.map (fun e => (e.1, f e.2)) ↔ (m.find k).map f = some b := by
    rw [List.mem_map, Option.map_eq_some_iff]
    constructor
    · rintro ⟨⟨k', v⟩, he, heq⟩
      cases heq
      exact ⟨v, mem_iff_find.mp he, rfl⟩
    · rintro ⟨v, hv, rfl⟩
      exact ⟨(k, v), mem_iff_find.mpr hv, rfl⟩
  have hsorted (m : SortedMap κ ν) :
      (m.entries.map fun e => (e.1, f e.2)).Pairwise fun a b => a.1 < b.1 :=
    List.pairwise_map.mpr m.sorted
  have hnodup (m : SortedMap κ ν) : (m.entries.map fun e => (e.1, f e.2)).Nodup :=
    (hsorted m).imp fun hlt heq => absurd (heq ▸ hlt) (lt_irrefl _)
  refine List.Perm.eq_of_pairwise (fun a b _ _ hab hba => absurd hab hba.asymm) (hsorted m) (hsorted m') ?_
  refine (List.perm_ext_iff_of_nodup (hnodup m) (hnodup m')).mpr ?_
  rintro ⟨k, b⟩
  rw [hmem, hmem, h]

/-- Maps with the same values are the same. -/
theorem ext_find {m m' : SortedMap κ ν} (h : ∀ k, m.find k = m'.find k) : m = m' := by
  have hentries : m.entries = m'.entries := by
    simpa using map_entries_eq (f := id) fun k => by rw [h k]
  cases m
  cases m'
  cases hentries
  rfl

/-- What was assigned can be read back. -/
theorem upsert_const_inj {m : SortedMap κ ν} {k : κ} {v w : ν} :
    (m.upsert k fun _ => v) = (m.upsert k fun _ => w) ↔ v = w := by
  constructor
  · intro h
    have hfind := congrArg (SortedMap.find · k) h
    simpa [find_upsert] using hfind
  · rintro rfl
    rfl

/-- An assignment changes nothing exactly when the value was there. -/
theorem upsert_const_eq_self {m : SortedMap κ ν} {k : κ} {v : ν} :
    (m.upsert k fun _ => v) = m ↔ m.find k = some v := by
  constructor
  · intro h
    rw [← h, find_upsert, if_pos rfl]
  · intro h
    refine ext_find fun j => ?_
    rw [find_upsert]
    split
    · rename_i hj
      rw [hj, h]
    · rfl

/-- `m.erase(k)`. -/
def erase (m : SortedMap κ ν) (k : κ) : SortedMap κ ν :=
  ⟨m.entries.filter fun e => e.1 ≠ k, m.sorted.filter _⟩

/-- Erasing adds nothing. -/
theorem mem_of_mem_foldl_erase {e : κ × ν} : ∀ {keys : List κ} {m : SortedMap κ ν},
    e ∈ (keys.foldl erase m).entries → e ∈ m.entries
  | [], _, h => h
  | k :: _, m, h =>
    have hrest : e ∈ (m.erase k).entries := mem_of_mem_foldl_erase h
    (List.mem_filter.mp hrest).1

end SortedMap

/-! ### Sets by key -/

section ByKey

variable {α κ : Type} [LinearOrder κ] {lt : α → α → Prop} [DecidableRel lt] [IsTrans α lt] (key : α → κ)

/-- An element is put into the set of its key. -/
def addByKey (m : SortedMap κ (StdSet lt)) (x : α) : SortedMap κ (StdSet lt) :=
  m.upsert (key x) fun s => (s.getD .empty).insert x

/-- Elements are put into the sets of their keys, one after the other. -/
def collectByKey (lt : α → α → Prop) [DecidableRel lt] [IsTrans α lt] (l : List α) :
    SortedMap κ (StdSet lt) := l.foldl (addByKey key) .empty

/-- The elements of all sets. -/
def SortedMap.elems (m : SortedMap κ (StdSet lt)) : List α := m.entries.flatMap fun e => e.2.elems

/-- The element comes before all others of the list that the comparison does not separate from it. -/
def IsFirst (lt : α → α → Prop) (l : List α) (x : α) : Prop :=
  ∃ before later, l = before ++ x :: later ∧ ∀ y ∈ before, ¬ StdSet.Equiv lt x y

omit [DecidableRel lt] [IsTrans α lt] in
theorem SortedMap.mem_elems {m : SortedMap κ (StdSet lt)} {x : α} :
    x ∈ m.elems ↔ ∃ k, x ∈ (m.find k).getD .empty := by
  rw [SortedMap.elems, List.mem_flatMap]
  constructor
  · rintro ⟨⟨k, s⟩, he, hx⟩
    exact ⟨k, by rw [SortedMap.mem_iff_find.mp he]; exact hx⟩
  · rintro ⟨k, hx⟩
    cases hf : m.find k with
    | none => rw [hf] at hx; cases hx
    | some s => exact ⟨(k, s), SortedMap.mem_iff_find.mpr hf, by rw [hf] at hx; exact hx⟩

/-- Every set has only elements of its key. -/
def KeysFit (m : SortedMap κ (StdSet lt)) : Prop := ∀ k, ∀ x ∈ (m.find k).getD .empty, key x = k

omit [DecidableRel lt] [IsTrans α lt] in
theorem isFirst_concat {l : List α} {x z : α} :
    IsFirst lt (l ++ [x]) z ↔ IsFirst lt l z ∨ z = x ∧ ∀ y ∈ l, ¬ StdSet.Equiv lt x y := by
  constructor
  · rintro ⟨before, later, h, hfirst⟩
    rcases List.eq_nil_or_concat later with rfl | ⟨later, x', rfl⟩
    · obtain ⟨rfl, hx⟩ := List.append_inj' h rfl
      obtain rfl : x = z := by simpa using hx
      exact .inr ⟨rfl, hfirst⟩
    · rw [List.concat_eq_append, ← List.cons_append, ← List.append_assoc] at h
      obtain ⟨rfl, -⟩ := List.append_inj' h rfl
      exact .inl ⟨before, later, rfl, hfirst⟩
  · rintro (⟨before, later, rfl, hfirst⟩ | ⟨rfl, hfirst⟩)
    · exact ⟨before, later ++ [x], by simp, hfirst⟩
    · exact ⟨l, [], rfl, hfirst⟩

variable {key}

theorem addByKey_find (m : SortedMap κ (StdSet lt)) (x : α) (k : κ) :
    ((addByKey key m x).find k).getD .empty
      = if k = key x then ((m.find k).getD .empty).insert x else (m.find k).getD .empty := by
  rw [addByKey, SortedMap.find_upsert]
  split
  · next h => rw [h]; rfl
  · rfl

theorem KeysFit.add {m : SortedMap κ (StdSet lt)} (h : KeysFit key m) (x : α) :
    KeysFit key (addByKey key m x) := by
  intro k y hy
  rw [addByKey_find] at hy
  split at hy
  · next hk =>
    rcases StdSet.mem_insert.mp hy with hy | ⟨rfl, -⟩
    · exact h k y hy
    · exact hk.symm
  · exact h k y hy

/-- A new element is in, unless an old one is not separated from it. -/
theorem mem_elems_add (hkey : ∀ x y, StdSet.Equiv lt x y → key x = key y) {m : SortedMap κ (StdSet lt)}
    (hfit : KeysFit key m) {x z : α} : z ∈ (addByKey key m x).elems ↔
      z ∈ m.elems ∨ z = x ∧ ∀ y ∈ m.elems, ¬ StdSet.Equiv lt x y := by
  rw [SortedMap.mem_elems]
  constructor
  · rintro ⟨k, hz⟩
    rw [addByKey_find] at hz
    split at hz
    · next hk =>
      rcases StdSet.mem_insert.mp hz with hz | ⟨rfl, hsep⟩
      · exact .inl (SortedMap.mem_elems.mpr ⟨k, hz⟩)
      · refine .inr ⟨rfl, fun y hy heq => ?_⟩
        obtain ⟨k', hy⟩ := SortedMap.mem_elems.mp hy
        have hk' : k' = k := by rw [← hfit k' y hy, hk, hkey _ _ heq]
        exact hsep y (hk' ▸ hy) heq
    · exact .inl (SortedMap.mem_elems.mpr ⟨k, hz⟩)
  · rintro (hz | ⟨rfl, hsep⟩)
    · obtain ⟨k, hz⟩ := SortedMap.mem_elems.mp hz
      refine ⟨k, ?_⟩
      rw [addByKey_find]
      split
      · exact StdSet.mem_insert_of_mem hz
      · exact hz
    · refine ⟨key z, ?_⟩
      rw [addByKey_find, if_pos rfl]
      exact StdSet.mem_insert_self fun y hy => hsep y (SortedMap.mem_elems.mpr ⟨_, hy⟩)

/-- What is collected are the elements that come first among those they are not separated from. -/
theorem mem_collectByKey (hirr : ∀ x, ¬ lt x x) (hkey : ∀ x y, StdSet.Equiv lt x y → key x = key y)
    (htrans : ∀ x y z, StdSet.Equiv lt x y → StdSet.Equiv lt y z → StdSet.Equiv lt x z) (l : List α) :
    (∀ z, z ∈ (collectByKey key lt l).elems ↔ IsFirst lt l z) ∧ KeysFit key (collectByKey key lt l) ∧
      ∀ y ∈ l, ∃ z ∈ (collectByKey key lt l).elems, StdSet.Equiv lt y z := by
  induction l using List.reverseRecOn with
  | nil =>
    refine ⟨fun z => ⟨fun h => (nomatch h), ?_⟩, ?_, ?_⟩
    · rintro ⟨before, later, h, -⟩
      simp at h
    · intro k y hy
      cases hy
    · intro y hy
      cases hy
  | append_singleton l x ih =>
    obtain ⟨hmem, hfit, hrep⟩ := ih
    have hcollect : collectByKey key lt (l ++ [x]) = addByKey key (collectByKey key lt l) x := by
      rw [collectByKey, List.foldl_concat, collectByKey]
    have hadd := @mem_elems_add _ _ _ lt _ _ key hkey _ hfit x
    -- to be separated from what was collected is to be separated from the list
    have hsep : (∀ y ∈ (collectByKey key lt l).elems, ¬ StdSet.Equiv lt x y) ↔
        ∀ y ∈ l, ¬ StdSet.Equiv lt x y := by
      constructor
      · intro h y hy heq
        obtain ⟨z, hz, hyz⟩ := hrep y hy
        exact h z hz (htrans _ _ _ heq hyz)
      · intro h y hy
        obtain ⟨before, later, rfl, -⟩ := (hmem y).mp hy
        exact h y (by simp)
    rw [hcollect]
    refine ⟨fun z => ?_, hfit.add x, fun y hy => ?_⟩
    · rw [hadd, isFirst_concat, hmem, hsep]
    · rcases List.mem_append.mp hy with hy | hy
      · obtain ⟨z, hz, heq⟩ := hrep y hy
        exact ⟨z, hadd.mpr (.inl hz), heq⟩
      · obtain rfl := List.mem_singleton.mp hy
        by_cases h : ∀ z ∈ (collectByKey key lt l).elems, ¬ StdSet.Equiv lt y z
        · exact ⟨y, hadd.mpr (.inr ⟨rfl, h⟩), hirr y, hirr y⟩
        · push Not at h
          obtain ⟨z, hz, heq⟩ := h
          exact ⟨z, hadd.mpr (.inl hz), heq⟩

end ByKey

end Tfs
