import Tfs.Lib.Rlp

/-! Addresses and words of the EVM as text (`utils/contract_utils.cpp` and the `evmc` hex helpers).

    The chain names an account by the checksummed hexadecimal text of its twenty address bytes; the
    checksum only changes the case of letters, so the text can be read back. -/

namespace Tfs.Evm
open Tfs.Rlp

/-- `evmc::address`. -/
abbrev Address := {b : Str // b.length = 20}

/-- `evmc::bytes32`. -/
abbrev Bytes32 := {b : Str // b.length = 32}

/-- `evmc::bytes32{}`. -/
def Bytes32.zero : Bytes32 := ⟨List.replicate 32 0, rfl⟩

/-- `evmc::from_hex` on an even number of digits behind an optional `0x`. -/
def evmcFromHex (s : Str) : Option Str :=
  if s.length % 2 = 0 then fromHexPairs (skipPrefix s) else none

/-- `evmc::from_hex<T>` for a type of `w` bytes; short input is filled up with zeros on the left. -/
def evmcFromHexInto (w : ℕ) (s : Str) : Option {b : Str // b.length = w} :=
  let s := skipPrefix s
  if s.length / 2 > w then none
  else (evmcFromHex s).bind fun bytes =>
    let out := List.replicate (w - s.length / 2) 0 ++ bytes
    if h : (out ++ List.replicate (w - out.length) 0).length = w then
      some ⟨out ++ List.replicate (w - out.length) 0, h⟩
    else none

/-- `evm_utils::StringTobytes`. -/
def stringTobytes (content : Str) : Str := (evmcFromHex content).getD []

/-- `tolower`. -/
def toLower (c : UInt8) : UInt8 := if 65 ≤ c ∧ c ≤ 90 then c + 32 else c

/-- `evm_utils::ToChecksumAddress`; `keccak` is `Keccak256Crypt`. -/
def toChecksumAddress (keccak : Str → Str) (address : Str) : Str :=
  let addressNoPrefix := (skipPrefix address).map toLower
  let hash := (keccak addressNoPrefix).map toLower
  addressNoPrefix.mapIdx fun i c =>
    if 56 ≤ hash.getD i 0 ∧ 97 ≤ c ∧ c ≤ 102 then c - 32 else c

/-- `evm_utils::EvmAddrToString`. -/
def evmAddrToString (keccak : Str → Str) (addr : Address) : Str :=
  toChecksumAddress keccak (toHex addr.1)

theorem length_zeroBytes : (List.replicate 20 (0 : UInt8)).length = 20 := rfl

/-- `evm_utils::StringToEvmAddr`. -/
def stringToEvmAddr (addr : Str) : Address :=
  (evmcFromHexInto 20 addr).getD ⟨List.replicate 20 0, length_zeroBytes⟩

/-! ### Reading back -/

/-- Text with the same digits up to case reads as the same bytes. -/
theorem fromHexPairs_congr : ∀ (s t : Str), s.map fromHexChar = t.map fromHexChar →
    fromHexPairs s = fromHexPairs t
  | [], [], _ => rfl
  | [], _ :: _, h => by simp at h
  | _ :: _, [], h => by simp at h
  | [_], [_], _ => rfl
  | [_], _ :: _ :: _, h => by simp at h
  | _ :: _ :: _, [_], h => by simp at h
  | a :: b :: s, c :: d :: t, h => by
    simp only [List.map_cons, List.cons.injEq] at h
    obtain ⟨h1, h2, h3⟩ := h
    simp only [fromHexPairs, h1, h2, fromHexPairs_congr s t h3]

theorem isDigit_toHex (b : Str) : ∀ c ∈ toHex b, ∃ d, fromHexChar c = some d ∧ toLower c = c := by
  have hdigit : ∀ n : Fin 256, toLower (hexDigit (UInt8.ofNat n / 16)) = hexDigit (UInt8.ofNat n / 16) ∧
      toLower (hexDigit (UInt8.ofNat n % 16)) = hexDigit (UInt8.ofNat n % 16) := by decide +kernel
  induction b with
  | nil => intro c hc; cases hc
  | cons x rest ih =>
    intro c hc
    obtain ⟨hhi, hlo, -, -⟩ := fromHexChar_hexDigit x
    have hx := hdigit ⟨x.toNat, x.toNat_lt⟩
    simp only [UInt8.ofNat_toNat] at hx
    simp only [toHex, List.mem_cons] at hc
    rcases hc with rfl | rfl | hc
    · exact ⟨_, hhi, hx.1⟩
    · exact ⟨_, hlo, hx.2⟩
    · exact ih c hc

/-- Text of digits only has no `0x` in front. -/
theorem skipPrefix_of_digits {s : Str} (h : ∀ c ∈ s, ∃ d, fromHexChar c = some d) :
    skipPrefix s = s := by
  rw [skipPrefix.eq_2]
  rintro rest rfl
  obtain ⟨d, hd⟩ := h 120 (by simp)
  simp [fromHexChar] at hd

/-- Digits of `w` bytes read back, whatever their case. -/
theorem evmcFromHexInto_of_digits {w : ℕ} {b s : Str} (hb : b.length = w)
    (hs : s.map fromHexChar = (toHex b).map fromHexChar) :
    evmcFromHexInto w s = some ⟨b, hb⟩ := by
  have hdigits : ∀ c ∈ s, ∃ d, fromHexChar c = some d := by
    intro c hc
    have : fromHexChar c ∈ (toHex b).map fromHexChar := hs ▸ List.mem_map_of_mem hc
    obtain ⟨c', hc', heq⟩ := List.mem_map.mp this
    obtain ⟨d, hd, -⟩ := isDigit_toHex b c' hc'
    exact ⟨d, heq.symm.trans hd⟩
  have hlen : s.length = 2 * w := by
    have := congrArg List.length hs
    rw [List.length_map, List.length_map, toHex_length, hb] at this
    exact this
  have hread : evmcFromHex s = some b := by
    rw [evmcFromHex, if_pos (by omega), skipPrefix_of_digits hdigits, fromHexPairs_congr _ _ hs,
      fromHexPairs_toHex]
  have hhalf : s.length / 2 = w := by omega
  simp only [evmcFromHexInto, skipPrefix_of_digits hdigits, hhalf, gt_iff_lt, lt_self_iff_false,
    if_false, hread, Option.bind_some, Nat.sub_self, List.replicate_zero, List.nil_append, hb,
    List.append_nil, dite_true]

theorem evmcFromHex_toHex (b : Str) : evmcFromHex (toHex b) = some b := by
  have hskip : skipPrefix (toHex b) = toHex b :=
    skipPrefix_of_digits fun c hc => (isDigit_toHex b c hc).imp fun _ h => h.1
  have heven : (toHex b).length % 2 = 0 := by rw [toHex_length]; omega
  rw [evmcFromHex, if_pos heven, hskip, fromHexPairs_toHex]

/-- A word written as hexadecimal text reads back. -/
theorem evmcFromHexInto_toHex (v : Bytes32) : evmcFromHexInto 32 (toHex v.1) = some v :=
  evmcFromHexInto_of_digits v.2 rfl

theorem fromHexChar_upper : ∀ c : UInt8, 97 ≤ c ∧ c ≤ 102 → fromHexChar (c - 32) = fromHexChar c := by
  have h : ∀ n : Fin 256, 97 ≤ UInt8.ofNat n ∧ UInt8.ofNat n ≤ 102 →
      fromHexChar (UInt8.ofNat n - 32) = fromHexChar (UInt8.ofNat n) := by decide +kernel
  intro c hc
  have := h ⟨c.toNat, c.toNat_lt⟩
  simp only [UInt8.ofNat_toNat] at this
  exact this hc

/-- The text of an address reads back as the address. -/
theorem stringToEvmAddr_evmAddrToString (keccak : Str → Str) (addr : Address) :
    stringToEvmAddr (evmAddrToString keccak addr) = addr := by
  have hlower : (toHex addr.1).map toLower = toHex addr.1 := by
    rw [List.map_congr_left (g := id), List.map_id]
    intro c hc
    obtain ⟨-, -, h⟩ := isDigit_toHex addr.1 c hc
    exact h
  have hskip : skipPrefix (toHex addr.1) = toHex addr.1 :=
    skipPrefix_of_digits fun c hc => (isDigit_toHex addr.1 c hc).imp fun _ h => h.1
  have hdigits : (evmAddrToString keccak addr).map fromHexChar = (toHex addr.1).map fromHexChar := by
    rw [evmAddrToString, toChecksumAddress, hskip, hlower]
    apply List.ext_getElem
    · simp
    · intro i h1 h2
      simp only [List.getElem_map, List.getElem_mapIdx]
      split_ifs with h
      · exact fromHexChar_upper _ h.2
      · rfl
  rw [stringToEvmAddr, evmcFromHexInto_of_digits addr.2 hdigits, Option.getD_some]

theorem evmAddrToString_injective (keccak : Str → Str) :
    Function.Injective (evmAddrToString keccak) := fun a b h => by
  rw [← stringToEvmAddr_evmAddrToString keccak a, h, stringToEvmAddr_evmAddrToString]

end Tfs.Evm
