import Mathlib

/-! C++ vocabulary shared by the models: byte strings, maps, sorted sets and early returns.

    `std::string` is a finite sequence of bytes, `std::map` is read through `find` only (which key
    is bound to what), `std::set<std::string>` through its iteration order, and a function that
    returns an error code (or lets an exception pass) is an `Except`. -/

namespace Tfs

/-- `std::string`: a finite sequence of bytes. -/
abbrev Str := List UInt8

instance instLawfulBEqStr : LawfulBEq Str := inferInstance

/-- The bytes of a literal (ASCII literals only are used). -/
def str (s : String) : Str := s.toList.map fun c => UInt8.ofNat c.toNat

/-- A literal read as its characters, and not through its encoding: what `decide` evaluates is rewritten
    with this first. -/
theorem str_ofList (cs : List Char) : str (String.ofList cs) = cs.map fun c => UInt8.ofNat c.toNat := by
  rw [str, String.toList_ofList]

/-- `std::map` / `std::unordered_map` seen through `find`: `none` where the key is absent. -/
abbrev StdMap (κ ν : Type) := κ → Option ν

/-- The map with no entry. -/
def StdMap.empty {κ ν : Type} : StdMap κ ν := fun _ => none

/-- `m[k] = v`. -/
def StdMap.set {κ ν : Type} [DecidableEq κ] (m : StdMap κ ν) (k : κ) (v : ν) : StdMap κ ν :=
  Function.update m k (some v)

@[simp] theorem StdMap.set_self {κ ν : Type} [DecidableEq κ] (m : StdMap κ ν) (k : κ) (v : ν) :
    m.set k v k = some v := by simp [StdMap.set]

theorem StdMap.set_ne {κ ν : Type} [DecidableEq κ] (m : StdMap κ ν) {k j : κ} (v : ν) (h : j ≠ k) :
    m.set k v j = m j := by simp [StdMap.set, h]

@[simp] theorem StdMap.empty_apply {κ ν : Type} (k : κ) : (StdMap.empty : StdMap κ ν) k = none := rfl

/-- The iteration order of a `std::set<std::string>` holding the given strings. -/
def sortedSet (l : List Str) : List Str := l.dedup.insertionSort (· ≤ ·)

theorem sortedSet_perm (l : List Str) : (sortedSet l).Perm l.dedup := List.perm_insertionSort _ _

theorem mem_sortedSet {l : List Str} {x : Str} : x ∈ sortedSet l ↔ x ∈ l := by
  rw [(sortedSet_perm l).mem_iff, List.mem_dedup]

theorem sortedSet_nodup (l : List Str) : (sortedSet l).Nodup :=
  (sortedSet_perm l).nodup_iff.mpr (List.nodup_dedup l)

/-! ### Early returns -/

/-- How a function ends other than with `return 0`: an error code, or an uncaught exception. -/
inductive Exit where
  | ret (code : ℤ)
  | exception
  deriving DecidableEq, Repr

/-- `if (cond) return code;` -/
def Exit.when (cond : Bool) (code : ℤ) : Except Exit Unit :=
  if cond then .error (.ret code) else .ok ()

/-- `if (ret != 0) return f(ret);` after a call. -/
def Exit.recode {α : Type} (f : ℤ → ℤ) : Except Exit α → Except Exit α
  | .error (.ret code) => .error (.ret (f code))
  | .error .exception => .error .exception
  | .ok a => .ok a

/-- Two statements in sequence end normally when both do. -/
theorem bind_eq_ok {ε α β : Type} {m : Except ε α} {f : α → Except ε β} {r : β} :
    (m >>= f) = .ok r ↔ ∃ a, m = .ok a ∧ f a = .ok r := by
  cases m with
  | error e =>
    constructor
    · intro h; cases h
    · rintro ⟨a, h, -⟩; cases h
  | ok a =>
    refine ⟨fun h => ⟨a, rfl, h⟩, ?_⟩
    rintro ⟨b, h, hf⟩
    cases h
    exact hf

theorem map_eq_ok {ε α β : Type} {f : α → β} {m : Except ε α} {b : β} :
    m.map f = .ok b ↔ ∃ a, m = .ok a ∧ f a = b := by
  cases m with
  | error e => simp [Except.map]
  | ok a => simp [Except.map]

theorem toOption_eq_some {ε α : Type} {m : Except ε α} {a : α} : m.toOption = some a ↔ m = .ok a := by
  cases m with
  | error e => constructor <;> intro h <;> cases h
  | ok r => exact ⟨fun h => congrArg _ (Option.some.inj h), fun h => by cases h; rfl⟩

/-- A run that can be evaluated to a value of its result has a result. -/
theorem ok_of_eval {ε α β : Type} {m : Except ε α} {f : α → β} {b : β}
    (h : m.toOption.map f = some b) : ∃ r, m = .ok r ∧ f r = b := by
  cases m with
  | error e => cases h
  | ok r => exact ⟨r, rfl, Option.some.inj h⟩

@[simp] theorem Exit.recode_eq_ok {α : Type} {f : ℤ → ℤ} {m : Except Exit α} {a : α} :
    Exit.recode f m = .ok a ↔ m = .ok a := by
  rcases m with (code | _) | b <;> simp [Exit.recode]

@[simp] theorem Exit.when_eq_ok {cond : Bool} {code : ℤ} {u : Unit} :
    Exit.when cond code = .ok u ↔ cond = false := by
  cases cond with
  | true => constructor <;> intro h <;> cases h
  | false => exact ⟨fun _ => rfl, fun _ => rfl⟩

end Tfs
