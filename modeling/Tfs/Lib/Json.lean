import Tfs.Lib.Decimal
import Tfs.Lib.OrderedSet
import Tfs.Lib.Sorted

/-! JSON values as a C++ library keeps them (`nlohmann::json`).

    An object holds its entries in the order of their keys. Assigning to a key makes an object of
    null, and reading a value as a type it does not have throws; an exception is its text here. The
    floating-point numbers are any type. What was assigned to different keys can be read back, and a
    list or a map of strings that was written can be read again. -/

namespace Tfs

/-- `nlohmann::json`. -/
inductive Json (φ : Type) where
  | null
  | boolean (b : Bool)
  | number (n : ℤ)
  | float (x : φ)
  | string (s : Str)
  | array (elements : List (Json φ))
  | object (entries : List (Str × Json φ))

namespace Json
variable {φ : Type}

/-- `type_name()`. -/
def typeName : Json φ → Str
  | .null => str "null"
  | .boolean _ => str "boolean"
  | .number _ | .float _ => str "number"
  | .string _ => str "string"
  | .array _ => str "array"
  | .object _ => str "object"

/-- The text of a `type_error`. -/
def typeError (id : ℕ) (what : Str) : Str :=
  str "[json.exception.type_error." ++ decimal id ++ str "] " ++ what

/-- The value is read as another type than it has. -/
def wrongType {α : Type} (expected : String) (j : Json φ) : Except Str α :=
  .error (typeError 302 (str "type must be " ++ str expected ++ str ", but is " ++ j.typeName))

/-- The entry of a key; none in anything but an object. -/
def find (j : Json φ) (key : Str) : Option (Json φ) :=
  match j with
  | .object entries => (entries.find? fun e => e.1 = key).map Prod.snd
  | _ => none

/-- `contains`. -/
def contains (j : Json φ) (key : Str) : Bool := (j.find key).isSome

/-- `j[key] = value`. -/
def set (j : Json φ) (key : Str) (value : Json φ) : Except Str (Json φ) :=
  match j with
  | .null => .ok (.object [(key, value)])
  | .object entries => .ok (.object (SortedMap.upsertEntry key (fun _ => value) entries))
  | j => .error (typeError 305 (str "cannot use operator[] with a string argument with " ++ j.typeName))

/-- `j[key]` where it is read: an entry made for a missing key is null. -/
def index (j : Json φ) (key : Str) : Except Str (Json φ) :=
  match j with
  | .null => .ok .null
  | .object _ => .ok ((j.find key).getD .null)
  | j => .error (typeError 305 (str "cannot use operator[] with a string argument with " ++ j.typeName))

/-- `get<std::string>()`. -/
def getString : Json φ → Except Str Str
  | .string s => .ok s
  | j => j.wrongType "string"

/-- `get<bool>()`. -/
def getBool : Json φ → Except Str Bool
  | .boolean b => .ok b
  | j => j.wrongType "boolean"

/-- `get<T>()` for a type of integers, with the conversions to it. -/
def getNumber {α : Type} (ofInt : ℤ → α) (ofFloat : φ → α) : Json φ → Except Str α
  | .number n => .ok (ofInt n)
  | .float x => .ok (ofFloat x)
  | j => j.wrongType "number"

/-- `get<std::vector<std::string>>()`. -/
def getStrings : Json φ → Except Str (List Str)
  | .array elements => elements.mapM getString
  | j => j.wrongType "array"

/-- `get<std::map<std::string, std::string>>()`. -/
def getStringMap : Json φ → Except Str (SortedMap Str Str)
  | .object entries => do
    let pairs ← entries.mapM fun e => do
      let s ← e.2.getString
      .ok (e.1, s)
    .ok (pairs.foldl (fun m p => m.upsert p.1 fun _ => p.2) .empty)
  | j => j.wrongType "object"

/-- What a loop from `begin()` to `end()` goes through. -/
def items : Json φ → List (Json φ)
  | .null => []
  | .array elements => elements
  | .object entries => entries.map Prod.snd
  | j => [j]

/-- The value of a list of strings. -/
def ofStrings (l : List Str) : Json φ := .array (l.map .string)

/-- The value of a map of strings. -/
def ofStringMap (m : SortedMap Str Str) : Json φ := .object (m.entries.map fun e => (e.1, .string e.2))

/-- Entries assigned one after the other. -/
def setAll (j : Json φ) : List (Str × Json φ) → Except Str (Json φ)
  | [] => .ok j
  | e :: rest => do
    let j ← j.set e.1 e.2
    j.setAll rest

/-! ### Reading what was assigned -/

/-- Null, or an object with its entries in order. -/
def Assignable : Json φ → Prop
  | .null => True
  | .object entries => entries.Pairwise fun a b => a.1 < b.1
  | _ => False

/-- An assignment to such a value gives one, and changes the entry of its key alone. -/
theorem set_spec {j : Json φ} (h : j.Assignable) (key : Str) (value : Json φ) : ∃ j',
    j.set key value = .ok j' ∧ j'.Assignable ∧ (∃ entries, j' = .object entries)
      ∧ ∀ k, j'.find k = if k = key then some value else j.find k := by
  cases j with
  | null =>
    refine ⟨_, rfl, List.pairwise_singleton _ _, ⟨_, rfl⟩, fun k => ?_⟩
    by_cases hk : k = key
    · simp [find, hk]
    · simp [find, hk, Ne.symm hk]
  | object entries =>
    refine ⟨_, rfl, SortedMap.upsertEntry_sorted h, ⟨_, rfl⟩, fun k => ?_⟩
    rw [find, find]
    convert SortedMap.find_upsertEntry key k (fun _ => value) h
  | _ => exact h.elim

/-- Entries of different keys can all be read back, and no other entry changes. -/
theorem setAll_spec : ∀ (entries : List (Str × Json φ)) {j : Json φ}, j.Assignable →
    (entries.map Prod.fst).Nodup → ∃ j', j.setAll entries = .ok j' ∧ j'.Assignable
      ∧ (∀ e ∈ entries, j'.find e.1 = some e.2) ∧ ∀ k ∉ entries.map Prod.fst, j'.find k = j.find k
  | [], j, h, _ => ⟨j, rfl, h, by simp, by simp⟩
  | e :: rest, j, h, hnodup => by
    rw [List.map_cons, List.nodup_cons] at hnodup
    obtain ⟨j₁, hset, h₁, -, hfind⟩ := set_spec h e.1 e.2
    obtain ⟨j₂, hall, h₂, hin, hout⟩ := setAll_spec rest h₁ hnodup.2
    refine ⟨j₂, by rw [setAll, hset]; exact hall, h₂, fun x hx => ?_, fun k hk => ?_⟩
    · rcases List.mem_cons.mp hx with rfl | hx
      · rw [hout _ hnodup.1, hfind, if_pos rfl]
      · exact hin x hx
    · rw [List.map_cons, List.mem_cons, not_or] at hk
      rw [hout k hk.2, hfind, if_neg hk.1]

/-- After an assignment there is an object. -/
theorem setAll_isObject : ∀ {entries : List (Str × Json φ)} {j j' : Json φ}, j.Assignable →
    entries ≠ [] → j.setAll entries = .ok j' → ∃ es, j' = .object es
  | [], _, _, _, hne, _ => absurd rfl hne
  | [e], j, j', h, _, hall => by
    obtain ⟨j₁, hset, -, hobj, -⟩ := set_spec h e.1 e.2
    rw [setAll, hset] at hall
    cases hall
    exact hobj
  | e :: e' :: rest, j, j', h, _, hall => by
    obtain ⟨j₁, hset, h₁, -, -⟩ := set_spec h e.1 e.2
    rw [setAll, hset] at hall
    exact setAll_isObject h₁ (List.cons_ne_nil _ _) hall

theorem getStrings_ofStrings (l : List Str) : (ofStrings l : Json φ).getStrings = .ok l := by
  rw [ofStrings, getStrings, List.mapM_map]
  induction l with
  | nil => rfl
  | cons s l ih =>
    rw [List.mapM_cons, ih]
    rfl

end Json

/-- A map rebuilt from its entries is the map. -/
theorem SortedMap.foldl_upsert_entries {κ ν : Type} [LinearOrder κ] (m : SortedMap κ ν) :
    m.entries.foldl (fun acc e => acc.upsert e.1 fun _ => e.2) .empty = m := by
  have hfold : ∀ (l : List (κ × ν)) (acc : SortedMap κ ν), l.Pairwise (fun a b => a.1 < b.1) → ∀ k,
      (l.foldl (fun acc e => acc.upsert e.1 fun _ => e.2) acc).find k
        = ((l.find? fun e => e.1 = k).map Prod.snd).or (acc.find k) := by
    intro l
    induction l with
    | nil => simp
    | cons e l ih =>
      intro acc hl k
      obtain ⟨he, hl⟩ := List.pairwise_cons.mp hl
      rw [List.foldl_cons, ih _ hl, SortedMap.find_upsert, List.find?_cons]
      by_cases hk : e.1 = k
      · subst hk
        rw [SortedMap.find_eq_none_of_lt he]
        simp
      · simp [hk, Ne.symm hk]
  refine SortedMap.ext_find fun k => ?_
  rw [hfold _ _ m.sorted]
  simp [SortedMap.find, SortedMap.empty]

namespace Json
variable {φ : Type}

theorem getStringMap_ofStringMap (m : SortedMap Str Str) :
    (ofStringMap m : Json φ).getStringMap = .ok m := by
  have hread : ∀ l : List (Str × Str), (l.map fun e => (e.1, (.string e.2 : Json φ))).mapM (fun e => do
      let s ← e.2.getString
      (.ok (e.1, s) : Except Str (Str × Str))) = .ok l := by
    intro l
    induction l with
    | nil => rfl
    | cons e l ih =>
      rw [List.map_cons, List.mapM_cons, ih]
      rfl
  rw [ofStringMap, getStringMap, hread]
  exact congrArg Except.ok m.foldl_upsert_entries

/-! ### Assignments to any object -/

variable {j : Json φ}

/-- A key can be assigned: null, or an object. -/
def IsMap : Json φ → Prop
  | .null | .object _ => True
  | _ => False

theorem find?_upsertEntry_const (key k : Str) (value : Json φ) : ∀ entries : List (Str × Json φ),
    ((SortedMap.upsertEntry key (fun _ => value) entries).find? fun e => e.1 = k).map Prod.snd =
      if k = key then some value else (entries.find? fun e => e.1 = k).map Prod.snd
  | [] => by
    by_cases hk : k = key
    · simp [SortedMap.upsertEntry, hk]
    · simp [SortedMap.upsertEntry, hk, Ne.symm hk]
  | e :: entries => by
    have ih := find?_upsertEntry_const key k value entries
    rw [SortedMap.upsertEntry]
    rcases lt_trichotomy key e.1 with hlt | heq | hgt
    · rw [if_pos hlt]
      by_cases hk : k = key
      · rw [List.find?_cons_of_pos (by simp [hk]), if_pos hk]
        rfl
      · rw [List.find?_cons_of_neg (by simp [Ne.symm hk]), if_neg hk]
    · rw [if_neg heq.not_lt, if_neg heq.symm.not_lt]
      by_cases hk : k = key
      · rw [List.find?_cons_of_pos (by simp [hk]), if_pos hk]
        rfl
      · rw [List.find?_cons_of_neg (by simp [Ne.symm hk]),
          List.find?_cons_of_neg (by simp [← heq, Ne.symm hk]), if_neg hk]
    · rw [if_neg hgt.not_gt, if_pos hgt]
      by_cases hk : k = key
      · rw [List.find?_cons_of_neg (by simpa [hk] using hgt.ne), ih]
        simp [hk]
      · rw [List.find?_cons, List.find?_cons, if_neg hk]
        rw [if_neg hk] at ih
        split
        · rfl
        · exact ih

/-- An assignment changes the entry of its key alone. -/
theorem IsMap.set (h : j.IsMap) (key : Str) (value : Json φ) : ∃ j', j.set key value = .ok j' ∧ j'.IsMap ∧
    ∀ k, j'.find k = if k = key then some value else j.find k := by
  cases j with
  | null => exact ⟨_, rfl, trivial, fun k => find?_upsertEntry_const key k value []⟩
  | object entries => exact ⟨_, rfl, trivial, fun k => find?_upsertEntry_const key k value entries⟩
  | _ => exact h.elim

/-- Nothing else has keys, and assigning one throws. -/
theorem not_isMap (h : ¬ j.IsMap) :
    (∀ key, j.find key = none) ∧ ∀ key value, ∃ what, j.set key value = .error what := by
  cases j with
  | null => exact absurd trivial h
  | object entries => exact absurd trivial h
  | _ => exact ⟨fun _ => rfl, fun _ _ => ⟨_, rfl⟩⟩

theorem contains_eq_true {key : Str} : j.contains key = true ↔ ∃ value, j.find key = some value :=
  Option.isSome_iff_exists

theorem contains_eq_false {key : Str} : ¬ j.contains key = true ↔ j.find key = none := by
  rw [contains, Option.not_isSome_iff_eq_none]

end Json

end Tfs
