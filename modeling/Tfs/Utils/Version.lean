import Tfs.Lib.DecimalOrder
import Tfs.Db.DbApi

/-! The versions of other systems (`Util::IsOtherVersionCompatible` in `utils/util.cpp`).

    The components of a version are compared one after the other, and each as text. -/

namespace Tfs.Utils
open Tfs.Db

/-- The constants of `common/global.h`. -/
structure VersionGlobals where
  kAndroidCompatible : Str
  kIOSCompatible : Str

/-- The byte `.`. -/
def dot : UInt8 := 46

/-- The loop of `IsOtherVersionCompatible` over the components. -/
def compareVersionNums : List Str → List Str → ℤ
  | recvNum :: vRecvVersionNum, ownerNum :: vOwnerVersionNum =>
    if recvNum < ownerNum then -3
    else if ownerNum < recvNum then 0
    else compareVersionNums vRecvVersionNum vOwnerVersionNum
  | _, _ => 0

/-- `Util::IsOtherVersionCompatible`. -/
def isOtherVersionCompatible (globals : VersionGlobals) (vRecvVersion : Str) (bIsAndroid : Bool) : ℤ :=
  if vRecvVersion.length = 0 then -1
  else
    let vRecvVersionNum := splitString vRecvVersion dot
    if vRecvVersionNum.length ≠ 3 then -2
    else
      let ownerVersion := if bIsAndroid then globals.kAndroidCompatible else globals.kIOSCompatible
      compareVersionNums vRecvVersionNum (splitString ownerVersion dot)

/-! ### Versions of three numbers -/

/-- A version of three numbers. -/
structure Version where
  major : ℕ
  minor : ℕ
  patch : ℕ
  deriving DecidableEq

/-- Its numbers. -/
def Version.nums (v : Version) : List ℕ := [v.major, v.minor, v.patch]

/-- Its text. -/
def Version.text (v : Version) : Str := decimal v.major ++ dot :: (decimal v.minor ++ dot :: decimal v.patch)

theorem dot_notMem_decimal (n : ℕ) : dot ∉ decimal n :=
  fun h => absurd (isDigitByte_of_mem_decimal h) (by decide)

theorem splitString_text (v : Version) : splitString v.text dot = v.nums.map decimal := by
  rw [splitString, Version.text, List.splitOn_append_cons_self_of_not_mem (dot_notMem_decimal _),
    List.splitOn_append_cons_self_of_not_mem (dot_notMem_decimal _),
    List.splitOn_eq_singleton (dot_notMem_decimal _)]
  simp [Version.nums, decimal_ne_nil]

/-- On texts of versions only the components are compared. -/
theorem isOtherVersionCompatible_text {globals : VersionGlobals} {bIsAndroid : Bool} {own recv : Version}
    (hown : (if bIsAndroid then globals.kAndroidCompatible else globals.kIOSCompatible) = own.text) :
    isOtherVersionCompatible globals recv.text bIsAndroid =
      compareVersionNums (recv.nums.map decimal) (own.nums.map decimal) := by
  have hlen : recv.text.length ≠ 0 := by simp [Version.text]
  rw [isOtherVersionCompatible, if_neg hlen, splitString_text]
  dsimp only
  rw [if_neg (by simp [Version.nums]), hown, splitString_text]

/-- At the first place where the numbers differ, the texts stand as the numbers do: they have equally
    many digits, or the shorter one is the smaller text. -/
def FirstDifferenceFits (own recv : List ℕ) : Prop :=
  ∀ front m n ms ns, own = front ++ m :: ms → recv = front ++ n :: ns → m ≠ n →
    (decimal m).length = (decimal n).length ∨
    ((decimal m).length < (decimal n).length ↔ decimal m < decimal n)

theorem firstDifferenceFits_cons_self {n : ℕ} {ms ns : List ℕ} :
    FirstDifferenceFits (n :: ms) (n :: ns) ↔ FirstDifferenceFits ms ns := by
  constructor
  · intro h front a b as bs hown hrecv
    exact h (n :: front) a b as bs (congrArg (n :: ·) hown) (congrArg (n :: ·) hrecv)
  · intro h front a b as bs hown hrecv hne
    cases front with
    | nil =>
      obtain ⟨rfl, -⟩ := List.cons.inj hown
      exact absurd (List.cons.inj hrecv).1 hne
    | cons c front => exact h front a b as bs (List.cons.inj hown).2 (List.cons.inj hrecv).2 hne

theorem firstDifferenceFits_cons_of_ne {m n : ℕ} {ms ns : List ℕ} (hne : m ≠ n) :
    FirstDifferenceFits (m :: ms) (n :: ns) ↔
      (decimal m).length = (decimal n).length ∨
        ((decimal m).length < (decimal n).length ↔ decimal m < decimal n) := by
  constructor
  · exact fun h => h [] m n ms ns rfl rfl hne
  · rintro h (_ | ⟨c, front⟩) a b as bs hown hrecv -
    · obtain ⟨rfl, -⟩ := List.cons.inj hown
      obtain ⟨rfl, -⟩ := List.cons.inj hrecv
      exact h
    · exact absurd ((List.cons.inj hown).1.trans (List.cons.inj hrecv).1.symm) hne

/-- Where the first numbers are the same, the others decide. -/
theorem cons_self_le_iff {n : ℕ} {ms ns : List ℕ} : n :: ms ≤ n :: ns ↔ ms ≤ ns := by
  rw [← not_lt, List.cons_lt_cons_iff, ← not_lt]
  simp

/-- Where they differ, they decide. -/
theorem cons_le_iff_of_ne {m n : ℕ} {ms ns : List ℕ} (hne : m ≠ n) : m :: ms ≤ n :: ns ↔ m < n := by
  rw [← not_lt, List.cons_lt_cons_iff]
  omega

/-- The loop stops at a component that differs, and accepts the larger text. -/
theorem compareVersionNums_of_ne {s t : Str} (hne : s ≠ t) (recv own : List Str) :
    compareVersionNums (t :: recv) (s :: own) = 0 ↔ s < t := by
  rw [compareVersionNums]
  rcases text_lt_or_gt hne with hlt | hgt
  · rw [if_neg (List.lt_asymm hlt), if_pos hlt]
    exact iff_of_true rfl hlt
  · rw [if_pos hgt]
    exact iff_of_false (by decide) (List.lt_asymm hgt)

/-- The loop accepts as the numbers ask exactly when the first difference fits. -/
theorem compareVersionNums_iff : ∀ {own recv : List ℕ}, own.length = recv.length →
    ((compareVersionNums (recv.map decimal) (own.map decimal) = 0 ↔ own ≤ recv) ↔
      FirstDifferenceFits own recv)
  | [], [], _ => by
    refine iff_of_true (iff_of_true rfl le_rfl) ?_
    rintro (_ | ⟨c, front⟩) a b as bs hown
    · cases hown
    · cases hown
  | m :: ms, n :: ns, hlen => by
    rw [List.map_cons, List.map_cons]
    by_cases hne : m = n
    · subst hne
      have ih := compareVersionNums_iff (Nat.succ.inj hlen)
      rw [compareVersionNums, if_neg (List.lt_irrefl _), if_neg (List.lt_irrefl _),
        firstDifferenceFits_cons_self,
        cons_self_le_iff, ih]
    · have htext : decimal m ≠ decimal n := fun h => hne (decimal_injective h)
      rw [firstDifferenceFits_cons_of_ne hne, ← decimal_lt_iff_lt, compareVersionNums_of_ne htext,
        cons_le_iff_of_ne hne]

/-- A version is accepted when it is at least the local one, number by number. -/
def AcceptsNewer (globals : VersionGlobals) (bIsAndroid : Bool) (own recv : Version) : Prop :=
  isOtherVersionCompatible globals recv.text bIsAndroid = 0 ↔ own.nums ≤ recv.nums

/-- So it is exactly where the first difference fits. -/
theorem accepts_newer_iff {globals : VersionGlobals} {bIsAndroid : Bool} {own : Version}
    (hown : (if bIsAndroid then globals.kAndroidCompatible else globals.kIOSCompatible) = own.text)
    (recv : Version) :
    AcceptsNewer globals bIsAndroid own recv ↔ FirstDifferenceFits own.nums recv.nums := by
  rw [AcceptsNewer, isOtherVersionCompatible_text hown]
  exact compareVersionNums_iff rfl

/-- The constants of the source. -/
def sourceGlobals : VersionGlobals := ⟨str "3.1.0", str "4.0.4"⟩

theorem sourceGlobals_ios :
    (if false = true then sourceGlobals.kAndroidCompatible else sourceGlobals.kIOSCompatible) =
    (Version.mk 4 0 4).text := by
  rw [if_neg Bool.false_ne_true, sourceGlobals, Version.text, decimal_eq, decimal_eq, str_ofList]
  decide

/-- Against the version 4.0.4 of the source, 5.0.0 is accepted. -/
theorem accepts_newer_iff_five : AcceptsNewer sourceGlobals false ⟨4, 0, 4⟩ ⟨5, 0, 0⟩ := by
  rw [accepts_newer_iff sourceGlobals_ios]
  exact (firstDifferenceFits_cons_of_ne (by decide)).mpr (.inl rfl)

/-- And 10.0.0 is not. -/
theorem ten_is_less : ¬ AcceptsNewer sourceGlobals false ⟨4, 0, 4⟩ ⟨10, 0, 0⟩ := by
  have htext : decimal 4 ≠ decimal 10 := fun h => absurd (decimal_injective h) (by decide)
  have hcode : ¬ decimal 4 < decimal 10 := by
    rw [decimal_eq, decimal_eq]
    decide
  rw [AcceptsNewer, isOtherVersionCompatible_text sourceGlobals_ios]
  change ¬ (compareVersionNums (decimal 10 :: _) (decimal 4 :: _) = 0 ↔ _)
  rw [compareVersionNums_of_ne htext]
  exact fun h => hcode (h.mpr (by decide))

end Tfs.Utils
