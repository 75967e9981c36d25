import Tfs.Utils.AddressText
import Tfs.Db.DbApi

/-! The test of an address (`isValidAddress` and `VerifiedAddressSet` of `utils/account_manager.cpp`).

    A character is compared with the checksum only where it is a digit, a letter from `a` to `f` under a
    high digit of the hash, or anything under a low one. That a character is a hexadecimal digit is
    nowhere asked. -/

namespace Tfs.Utils
open Tfs.Rlp Tfs.Evm
open Tfs.Db (underline)

/-- `std::toupper`. -/
def toUpper (c : UInt8) : UInt8 := if 97 ≤ c ∧ c ≤ 122 then c - 32 else c

/-- `VerifiedAddressSet`. -/
structure VerifiedAddressSet where
  verifiedAddresses : Finset Str

/-- `VerifiedAddressSet::markAddressVerified`. -/
def VerifiedAddressSet.markAddressVerified (verified : VerifiedAddressSet) (address : Str) :
    VerifiedAddressSet :=
  ⟨insert address verified.verifiedAddresses⟩

/-- `VerifiedAddressSet::isAddressVerified`. -/
def VerifiedAddressSet.isAddressVerified (verified : VerifiedAddressSet) (address : Str) : Bool :=
  address ∈ verified.verifiedAddresses

/-- One turn of the loop of `isValidAddress`: whether it goes on. -/
def caseFits (hash originalAddress address : UInt8) : Bool :=
  if (56 ≤ hash ∧ 97 ≤ originalAddress ∧ originalAddress ≤ 102) ∧ address ≠ toUpper originalAddress then false
  else if (hash < 56 ∨ 48 ≤ originalAddress ∧ originalAddress ≤ 57) ∧ address ≠ originalAddress then false
  else true

/-- The part of `isValidAddress` behind the look at the verified addresses. -/
def checkAddress (keccak : Str → Str) (address : Str) : Bool :=
  if address.length ≠ 40 then false
  else
    let originalAddress := address.map toLower
    let hash := (keccak originalAddress).map toLower
    (List.range originalAddress.length).all fun i =>
      caseFits (hash.getD i 0) (originalAddress.getD i 0) (address.getD i 0)

/-- `isValidAddress`, with the verified addresses it leaves. -/
def isValidAddress (keccak : Str → Str) (verified : VerifiedAddressSet) (address : Str) :
    Bool × VerifiedAddressSet :=
  if verified.isAddressVerified address then (true, verified)
  else if checkAddress keccak address then (true, verified.markAddressVerified address)
  else (false, verified)

/-- The verified addresses after some calls. -/
def afterCalls (keccak : Str → Str) (history : List Str) : VerifiedAddressSet :=
  history.foldl (fun verified address => (isValidAddress keccak verified address).2) ⟨∅⟩

/-! ### What is remembered -/

variable {keccak : Str → Str}

/-- Only addresses that pass are verified. -/
theorem verified_step {verified : VerifiedAddressSet}
    (h : ∀ a ∈ verified.verifiedAddresses, checkAddress keccak a)
    (address : Str) : ∀ a ∈ (isValidAddress keccak verified address).2.verifiedAddresses,
      checkAddress keccak a := by
  rw [isValidAddress]
  split_ifs with hknown hcheck
  · exact h
  · intro a ha
    rcases Finset.mem_insert.mp ha with rfl | ha
    · exact hcheck
    · exact h a ha
  · exact h

theorem verified_afterCalls (history : List Str) :
    ∀ a ∈ (afterCalls keccak history).verifiedAddresses, checkAddress keccak a := by
  have hrun : ∀ (history : List Str) (verified : VerifiedAddressSet),
      (∀ a ∈ verified.verifiedAddresses, checkAddress keccak a) →
      ∀ a ∈ (history.foldl (fun v a => (isValidAddress keccak v a).2) verified).verifiedAddresses,
        checkAddress keccak a := by
    intro history
    induction history with
    | nil => exact fun _ h => h
    | cons address history ih => exact fun verified h => ih _ (verified_step h address)
  exact hrun history ⟨∅⟩ fun a ha => absurd ha (Finset.notMem_empty a)

/-- What was asked before does not matter. -/
theorem isValidAddress_afterCalls (history : List Str) (s : Str) :
    (isValidAddress keccak (afterCalls keccak history) s).1 = checkAddress keccak s := by
  rw [isValidAddress]
  split_ifs with hknown hcheck
  · exact (verified_afterCalls history s (of_decide_eq_true hknown)).symm
  · exact hcheck.symm
  · exact (Bool.eq_false_iff.mpr hcheck).symm

/-! ### What passes -/

/-- A letter in the wrong case: one from `a` to `f` under a high digit of the hash, a capital one
    under a low digit. -/
def WrongCase (hash c : UInt8) : Prop := 56 ≤ hash ∧ 97 ≤ c ∧ c ≤ 102 ∨ hash < 56 ∧ 65 ≤ c ∧ c ≤ 90

/-- The digit of the hash over a place of the text. -/
def hashAt (keccak : Str → Str) (s : Str) (i : ℕ) : UInt8 := ((keccak (s.map toLower)).map toLower).getD i 0

/-- Some letter of the text is in the wrong case. -/
def WronglyCased (keccak : Str → Str) (s : Str) : Prop :=
  ∃ i c, s[i]? = some c ∧ WrongCase (hashAt keccak s i) c

/-- A turn stops at a letter in the wrong case and at nothing else. -/
theorem caseFits_iff (hash c : UInt8) : caseFits hash (toLower c) c ↔ ¬ WrongCase hash c := by
  have hhigh : ∀ c : UInt8, (97 ≤ toLower c ∧ toLower c ≤ 102) ∧ c ≠ toUpper (toLower c) ↔
      97 ≤ c ∧ c ≤ 102 := by
    refine forall_byte ?_
    decide +kernel
  have hdigit : ∀ c : UInt8, 48 ≤ toLower c ∧ toLower c ≤ 57 → c = toLower c := by
    refine forall_byte ?_
    decide +kernel
  have hlow : ∀ c : UInt8, c ≠ toLower c ↔ 65 ≤ c ∧ c ≤ 90 := by
    refine forall_byte ?_
    decide +kernel
  rw [caseFits, WrongCase]
  by_cases hh : 56 ≤ hash
  · simp only [hh, true_and, hhigh, UInt8.not_lt.mpr hh, false_and, false_or, or_false]
    by_cases hc : 97 ≤ c ∧ c ≤ 102
    · simp [hc]
    · rw [if_neg hc, if_neg fun h => h.2 (hdigit c h.1)]
      exact iff_of_true rfl hc
  · simp only [hh, false_and, if_false, UInt8.not_le.mp hh, true_or, true_and, false_or, hlow]
    by_cases hc : 65 ≤ c ∧ c ≤ 90
    · simp [hc]
    · rw [if_neg hc]
      exact iff_of_true rfl hc

theorem checkAddress_iff (s : Str) : checkAddress keccak s ↔ s.length = 40 ∧ ¬ WronglyCased keccak s := by
  rw [checkAddress]
  by_cases hlen : s.length = 40
  · rw [if_neg (not_not.mpr hlen), List.all_eq_true, and_iff_right hlen, WronglyCased]
    push Not
    constructor
    · intro h i c hc
      obtain ⟨hi, rfl⟩ := List.getElem?_eq_some_iff.mp hc
      have hmap : i < (s.map toLower).length := by rwa [List.length_map]
      have hfits := h i (List.mem_range.mpr hmap)
      rw [List.getD_eq_getElem s 0 hi, List.getD_eq_getElem (s.map toLower) 0 hmap, List.getElem_map] at hfits
      exact (caseFits_iff _ _).mp hfits
    · intro h i hi
      have hmap := List.mem_range.mp hi
      have hi : i < s.length := by rwa [List.length_map] at hmap
      rw [List.getD_eq_getElem s 0 hi, List.getD_eq_getElem (s.map toLower) 0 hmap, List.getElem_map]
      exact (caseFits_iff _ _).mpr (h i _ (List.getElem?_eq_getElem hi))
  · simp [hlen]

/-- Of a text of digits the case is right exactly when it is its own checksum. -/
theorem wronglyCased_iff {s : Str} (hs : ∀ c ∈ s, isHexDigit c) :
    ¬ WronglyCased keccak s ↔ s = toChecksumAddress keccak s := by
  have hhigh : ∀ c : UInt8, isHexDigit c →
      ((if 97 ≤ toLower c ∧ toLower c ≤ 102 then toLower c - 32 else toLower c) = c ↔
        ¬ (97 ≤ c ∧ c ≤ 102)) := by
    refine forall_byte ?_
    decide +kernel
  have hlow : ∀ c : UInt8, toLower c = c ↔ ¬ (65 ≤ c ∧ c ≤ 90) := by
    refine forall_byte ?_
    decide +kernel
  have hat : ∀ i (hi : i < s.length), checksumCase keccak (s.map toLower) i (toLower s[i]) = s[i] ↔
      ¬ WrongCase (hashAt keccak s i) s[i] := by
    intro i hi
    rw [checksumCase, WrongCase, ← hashAt]
    by_cases hh : 56 ≤ hashAt keccak s i
    · simp only [hh, true_and, UInt8.not_lt.mpr hh, false_and, or_false]
      exact hhigh s[i] (hs _ (List.getElem_mem hi))
    · simp only [hh, false_and, if_false, UInt8.not_le.mp hh, true_and, false_or]
      exact hlow s[i]
  rw [WronglyCased, toChecksumAddress_eq, skipPrefix_of_hexDigits hs]
  push Not
  constructor
  · intro h
    refine List.ext_getElem (by simp) fun i hi hi' => ?_
    rw [List.getElem_mapIdx, List.getElem_map]
    exact ((hat i hi).mpr (h i _ (List.getElem?_eq_getElem hi))).symm
  · intro h i c hc
    obtain ⟨hi, rfl⟩ := List.getElem?_eq_some_iff.mp hc
    refine (hat i hi).mp ?_
    conv_rhs => rw [List.getElem_of_eq h hi]
    rw [List.getElem_mapIdx, List.getElem_map]

/-- After some calls, the test accepts a text exactly when it is the text of an address; so no `_` is in
    what it accepts. -/
def AcceptsAddresses (keccak : Str → Str) (history : List Str) (s : Str) : Prop :=
  let accepted := (isValidAddress keccak (afterCalls keccak history) s).1
  (accepted ↔ FortyDigits s ∧ s = toChecksumAddress keccak s) ∧
    (accepted ↔ ∃ addr : Address, evmAddrToString keccak addr = s) ∧ (accepted → underline ∉ s)

/-- A text of forty characters that are not all digits must not pass, and is kept out only by a
    letter in the wrong case. -/
theorem accepts_addresses_iff (keccak : Str → Str) (history : List Str) (s : Str) :
    AcceptsAddresses keccak history s ↔ s.length ≠ 40 ∨ (∀ c ∈ s, isHexDigit c) ∨ WronglyCased keccak s := by
  rw [AcceptsAddresses, isValidAddress_afterCalls, exists_evmAddrToString, checkAddress_iff]
  constructor
  · rintro ⟨hexact, -, -⟩
    by_contra hnot
    push Not at hnot
    obtain ⟨hlen, ⟨c, hc, hdigit⟩, hcase⟩ := hnot
    exact hdigit ((hexact.mp ⟨hlen, hcase⟩).1.2 c hc)
  · intro h
    have hexact : s.length = 40 ∧ ¬ WronglyCased keccak s ↔
        FortyDigits s ∧ s = toChecksumAddress keccak s := by
      rcases h with hlen | hdigits | hcase
      · exact iff_of_false (fun hs => hlen hs.1) fun hs => hlen hs.1.1
      · rw [wronglyCased_iff hdigits, FortyDigits, and_iff_left hdigits]
      · exact iff_of_false (fun hs => hs.2 hcase) fun hs => (wronglyCased_iff hs.1.2).mpr hs.2 hcase
    refine ⟨hexact, hexact, fun hs hunder => ?_⟩
    have hdigit := (hexact.mp hs).1.2 underline hunder
    exact absurd hdigit (by decide)

/-- Forty underlines, and their hash. -/
def underlines : Str := List.replicate 40 underline
def underlinesHash : Str := str "1846d61db4031cfd46c407144ffca8721a3d71cf7aa1b323877a51362fb86c56"

/-- They pass the test. -/
theorem underlines_accepted :
    (isValidAddress (fun _ => underlinesHash) (afterCalls (fun _ => underlinesHash) []) underlines).1 ∧
    ¬ AcceptsAddresses (fun _ => underlinesHash) [] underlines := by
  have hcheck : checkAddress (fun _ => underlinesHash) underlines := by
    refine (checkAddress_iff _).mpr ⟨List.length_replicate, ?_⟩
    rintro ⟨i, c, hc, hwrong⟩
    obtain rfl := List.eq_of_mem_replicate (List.mem_of_getElem? hc)
    rcases hwrong with ⟨-, hletter⟩ | ⟨-, hletter⟩
    · exact absurd hletter (by decide)
    · exact absurd hletter (by decide)
  rw [AcceptsAddresses, isValidAddress_afterCalls]
  exact ⟨hcheck, fun h => h.2.2 hcheck (by decide)⟩

end Tfs.Utils
