import Tfs.Utils.ContractUtils

/-! Addresses as keys, and the test of an address (`utils/contract_utils.cpp`, `isValidAddress` in
    `utils/account_manager.cpp`).

    The checksum of a text sets the case of its letters by the digits of a hash of its lowercase
    form, so it depends on the lowercase form only. The test compares the case of the letters `a` to
    `f` and of no other character, and does not ask whether the characters are digits. -/

namespace Tfs.Evm
open Tfs.Rlp

/-! ### Digits and case -/

/-- A hexadecimal digit, of either case. -/
def isHexDigit (c : UInt8) : Bool := (fromHexChar c).isSome

/-- Forty hexadecimal digits. -/
def FortyDigits (s : Str) : Prop := s.length = 40 ∧ ∀ c ∈ s, isHexDigit c

instance (s : Str) : Decidable (FortyDigits s) := inferInstanceAs (Decidable (_ ∧ _))

/-- What holds of every byte is tried on all of them. -/
theorem forall_byte {P : UInt8 → Prop} (h : ∀ n : Fin 256, P (UInt8.ofNat n)) (c : UInt8) : P c := by
  have hc := h ⟨c.toNat, c.toNat_lt⟩
  rwa [show UInt8.ofNat (⟨c.toNat, c.toNat_lt⟩ : Fin 256) = c from UInt8.ofNat_toNat] at hc

theorem toLower_toLower : ∀ c : UInt8, toLower (toLower c) = toLower c := by
  refine forall_byte ?_
  decide +kernel

/-- The case of a letter does not matter to its lowercase form. -/
theorem toLower_upper : ∀ c : UInt8, 97 ≤ c ∧ c ≤ 102 → toLower (c - 32) = c := by
  refine forall_byte ?_
  decide +kernel

/-- Nor to what it stands for. -/
theorem fromHexChar_toLower : ∀ c : UInt8, fromHexChar (toLower c) = fromHexChar c := by
  refine forall_byte ?_
  decide +kernel

theorem isHexDigit_toLower (c : UInt8) : isHexDigit (toLower c) = isHexDigit c := by
  rw [isHexDigit, fromHexChar_toLower, isHexDigit]

theorem skipPrefix_of_hexDigits {s : Str} (h : ∀ c ∈ s, isHexDigit c) : skipPrefix s = s :=
  skipPrefix_of_digits fun c hc => Option.isSome_iff_exists.mp (h c hc)

/-! ### The checksum -/

variable (keccak : Str → Str)

/-- The case that the checksum gives a lowercase character at some place. -/
def checksumCase (low : Str) (i : ℕ) (c : UInt8) : UInt8 :=
  if 56 ≤ ((keccak low).map toLower).getD i 0 ∧ 97 ≤ c ∧ c ≤ 102 then c - 32 else c

theorem toChecksumAddress_eq (s : Str) : toChecksumAddress keccak s =
    ((skipPrefix s).map toLower).mapIdx (checksumCase keccak ((skipPrefix s).map toLower)) := rfl

theorem toLower_checksumCase (low : Str) (i : ℕ) {c : UInt8} (hc : toLower c = c) :
    toLower (checksumCase keccak low i c) = c := by
  rw [checksumCase]
  split_ifs with h
  · exact toLower_upper c h.2
  · exact hc

/-- In lowercase the checksum is the text without its prefix. -/
theorem map_toLower_toChecksumAddress (s : Str) :
    (toChecksumAddress keccak s).map toLower = (skipPrefix s).map toLower := by
  rw [toChecksumAddress_eq]
  refine List.ext_getElem (by simp) fun i hi hi' => ?_
  rw [List.getElem_map, List.getElem_mapIdx]
  refine toLower_checksumCase keccak _ i ?_
  rw [List.getElem_map, toLower_toLower]

theorem toChecksumAddress_length (s : Str) : (toChecksumAddress keccak s).length = (skipPrefix s).length := by
  rw [toChecksumAddress_eq, List.length_mapIdx, List.length_map]

/-- A character counts as a digit in every case. -/
theorem hexDigits_of_map_toLower {s t : Str} (h : t.map toLower = s.map toLower)
    (hs : ∀ c ∈ s, isHexDigit c) :
    ∀ c ∈ t, isHexDigit c := by
  intro c hc
  have hlow : toLower c ∈ s.map toLower := h ▸ List.mem_map_of_mem hc
  obtain ⟨d, hd, heq⟩ := List.mem_map.mp hlow
  rw [← isHexDigit_toLower, ← heq, isHexDigit_toLower]
  exact hs d hd

section Spellings
variable {keccak} {s t : Str}

/-- All spellings of a text of digits have one checksum. -/
theorem toChecksumAddress_spelling (hs : ∀ c ∈ s, isHexDigit c) (h : t.map toLower = s.map toLower) :
    toChecksumAddress keccak t = toChecksumAddress keccak s := by
  rw [toChecksumAddress_eq, toChecksumAddress_eq, skipPrefix_of_hexDigits hs,
    skipPrefix_of_hexDigits (hexDigits_of_map_toLower h hs), h]

/-- With the prefix too. -/
theorem startsWith0x_toChecksumAddress (hs : ∀ c ∈ s, isHexDigit c) :
    toChecksumAddress keccak (str "0x" ++ s) = toChecksumAddress keccak s := by
  have hskip : skipPrefix (str "0x" ++ s) = s := rfl
  rw [toChecksumAddress_eq, toChecksumAddress_eq, hskip, skipPrefix_of_hexDigits hs]

/-- The checksum is one of the spellings. -/
theorem toChecksumAddress_lower (hs : ∀ c ∈ s, isHexDigit c) :
    (toChecksumAddress keccak s).map toLower = s.map toLower := by
  rw [map_toLower_toChecksumAddress, skipPrefix_of_hexDigits hs]

end Spellings

/-- The text of an address has forty digits and is its own checksum. -/
theorem toHex_fortyDigits (addr : Address) : FortyDigits (toHex addr.1) := by
  refine ⟨by rw [toHex_length, addr.2], fun c hc => ?_⟩
  obtain ⟨d, hd, -⟩ := isDigit_toHex addr.1 c hc
  rw [isHexDigit, hd, Option.isSome_some]

/-- Digits of either case are the text of some bytes, up to case. -/
theorem exists_toHex : ∀ {n : ℕ} {s : Str}, s.length = 2 * n → (∀ c ∈ s, isHexDigit c) →
    ∃ bytes : Str, bytes.length = n ∧ toHex bytes = s.map toLower
  | 0, s, hlen, _ => ⟨[], rfl, by rw [List.length_eq_zero_iff.mp hlen]; rfl⟩
  | n + 1, s, hlen, hs => by
    have hall : ∀ c : UInt8, (fromHexChar c).all fun d => d < 16 ∧ hexDigit d = toLower c := by
      refine forall_byte ?_
      decide +kernel
    have hdigit : ∀ {c d : UInt8}, fromHexChar c = some d → d < 16 ∧ hexDigit d = toLower c := by
      intro c d hd
      have hc := hall c
      rw [hd] at hc
      exact of_decide_eq_true hc
    obtain _ | ⟨h, _ | ⟨l, s⟩⟩ := s
    · cases hlen
    · simp at hlen; omega
    · obtain ⟨hh, hs⟩ := List.forall_mem_cons.mp hs
      obtain ⟨hl, hs⟩ := List.forall_mem_cons.mp hs
      obtain ⟨hi, hhi⟩ := Option.isSome_iff_exists.mp hh
      obtain ⟨lo, hlo⟩ := Option.isSome_iff_exists.mp hl
      obtain ⟨hhi16, hhigh⟩ := hdigit hhi
      obtain ⟨hlo16, hlow⟩ := hdigit hlo
      obtain ⟨bytes, hbytes, htext⟩ := exists_toHex (n := n) (s := s) (by simp at hlen; omega) hs
      refine ⟨(hi * 16 + lo) :: bytes, by rw [List.length_cons, hbytes], ?_⟩
      have hdiv : (hi * 16 + lo) / 16 = hi := by
        rw [← UInt8.toNat_inj]
        simp only [UInt8.lt_iff_toNat_lt] at hhi16 hlo16
        simp at hhi16 hlo16 ⊢
        omega
      have hmod : (hi * 16 + lo) % 16 = lo := by
        rw [← UInt8.toNat_inj]
        simp only [UInt8.lt_iff_toNat_lt] at hhi16 hlo16
        simp at hhi16 hlo16 ⊢
        omega
      rw [toHex, hdiv, hmod, hhigh, hlow, htext, List.map_cons, List.map_cons]

variable {keccak} in
/-- The texts of addresses are the forty digits that are their own checksum. -/
theorem exists_evmAddrToString {s : Str} :
    (∃ addr : Address, evmAddrToString keccak addr = s) ↔ FortyDigits s ∧ s = toChecksumAddress keccak s := by
  constructor
  · rintro ⟨addr, rfl⟩
    have hhex := toHex_fortyDigits addr
    have hlower : (evmAddrToString keccak addr).map toLower = (toHex addr.1).map toLower :=
      toChecksumAddress_lower hhex.2
    refine ⟨⟨?_, hexDigits_of_map_toLower hlower hhex.2⟩, ?_⟩
    · rw [evmAddrToString, toChecksumAddress_length, skipPrefix_of_hexDigits hhex.2, hhex.1]
    · exact (toChecksumAddress_spelling hhex.2 hlower).symm
  · rintro ⟨⟨hlen, hs⟩, heq⟩
    obtain ⟨bytes, hbytes, htext⟩ := exists_toHex (n := 20) hlen hs
    have hspelling : (toHex bytes).map toLower = s.map toLower := by
      rw [htext, List.map_map]
      exact List.map_congr_left fun c _ => toLower_toLower c
    refine ⟨⟨bytes, hbytes⟩, ?_⟩
    rw [evmAddrToString, toChecksumAddress_spelling hs hspelling, ← heq]

/-- Addresses have one text each: it reads back, all spellings of it have it as their checksum, and it
    is the key of this address and of no other. -/
theorem address_text_canonical :
    (∀ addr : Address, stringToEvmAddr (evmAddrToString keccak addr) = addr) ∧
    (∀ s t : Str, FortyDigits s → t.map toLower = s.map toLower →
      toChecksumAddress keccak t = toChecksumAddress keccak s ∧
      toChecksumAddress keccak (str "0x" ++ t) = toChecksumAddress keccak s ∧
      toChecksumAddress keccak (toChecksumAddress keccak t) = toChecksumAddress keccak t) ∧
    ∀ addr addr' : Address, addr = addr' ↔ evmAddrToString keccak addr = evmAddrToString keccak addr' := by
  refine ⟨stringToEvmAddr_evmAddrToString keccak, fun s t hs h => ?_, fun addr addr' => ?_⟩
  · have ht := hexDigits_of_map_toLower h hs.2
    have hsame : toChecksumAddress keccak t = toChecksumAddress keccak s := toChecksumAddress_spelling hs.2 h
    refine ⟨hsame, ?_, ?_⟩
    · rw [startsWith0x_toChecksumAddress ht, hsame]
    · exact toChecksumAddress_spelling ht (toChecksumAddress_lower ht)
  · exact (evmAddrToString_injective keccak).eq_iff.symm

/-- The checksum of one text of forty digits, by its hash. -/
theorem toChecksumAddress_sample :
    toChecksumAddress (fun _ => str "d385650ce8fdc6db7ee3a091d34814dbc4ce18219ffae52182efff4034d707e5")
      (str "5aaeb6053f3e94c9b9a09f33669435e7ef1beaed") = str "5aAeb6053F3E94C9b9A09f33669435E7Ef1BeAed" := by
  repeat rw [str_ofList]
  decide +kernel

/-- The text in capitals has the same. -/
theorem address_text_canonical_capitals :
    toChecksumAddress (fun _ => str "d385650ce8fdc6db7ee3a091d34814dbc4ce18219ffae52182efff4034d707e5")
      (str "5AAEB6053F3E94C9B9A09F33669435E7EF1BEAED") = str "5aAeb6053F3E94C9b9A09f33669435E7Ef1BeAed" := by
  have hlow : FortyDigits (str "5aaeb6053f3e94c9b9a09f33669435e7ef1beaed") := by
    rw [str_ofList]
    decide +kernel
  have hcapitals : (str "5AAEB6053F3E94C9B9A09F33669435E7EF1BEAED").map toLower =
      (str "5aaeb6053f3e94c9b9a09f33669435e7ef1beaed").map toLower := by
    repeat rw [str_ofList]
    decide
  obtain ⟨hsame, -, -⟩ := (address_text_canonical _).2.1 _ _ hlow hcapitals
  exact hsame.trans toChecksumAddress_sample

end Tfs.Evm
