import Mathlib
import Tfs.Basic
import Tfs.Lib.Double

/-! Compression of messages (`utils/compress.cpp`).

    zlib is not part of the repository. What the code relies on is in `zlib.h`: `compress` and
    `uncompress` are inverse to each other, an output buffer that is too small is reported as
    `Z_BUF_ERROR`, damaged input as `Z_DATA_ERROR`, and either function may run out of memory
    (`Z_MEM_ERROR`). Whether a call finds the memory it needs is an input of the model.

    The receiver's buffer is ten times as long as the stream. Of an empty stream it is made with more
    initialisers than elements, which throws `std::bad_array_new_length`; nothing catches it. -/

namespace Tfs.Net

/-- The error codes of zlib that occur. -/
inductive ZError where
  | Z_DATA_ERROR | Z_MEM_ERROR | Z_BUF_ERROR
  deriving DecidableEq, Repr

/-- `compressBound` of zlib. -/
def compressBound (sourceLen : ℕ) : ℕ :=
  sourceLen + sourceLen / 2 ^ 12 + sourceLen / 2 ^ 14 + sourceLen / 2 ^ 25 + 13

/-- zlib: its streams, and what they stand for. A stream has a header, so it is never empty. -/
structure Zlib where
  deflate : Str → Str
  inflate : Str → Option Str
  inflate_deflate : ∀ raw, inflate (deflate raw) = some raw
  deflate_length_le : ∀ raw, (deflate raw).length ≤ compressBound raw.length
  inflate_nil : inflate [] = none

variable (z : Zlib)

theorem Zlib.deflate_ne_nil (raw : Str) : z.deflate raw ≠ [] := by
  intro h
  have hinv := z.inflate_deflate raw
  rw [h, z.inflate_nil] at hinv
  cases hinv

/-- `compress`, with or without enough memory, into a buffer of `destLen` bytes. -/
def Zlib.compress (mem : Bool) (destLen : ℕ) (source : Str) : Except ZError Str :=
  if ! mem then .error .Z_MEM_ERROR
  else if (z.deflate source).length ≤ destLen then .ok (z.deflate source)
  else .error .Z_BUF_ERROR

/-- `uncompress`, likewise. -/
def Zlib.uncompress (mem : Bool) (destLen : ℕ) (source : Str) : Except ZError Str :=
  if ! mem then .error .Z_MEM_ERROR
  else match z.inflate source with
    | none => .error .Z_DATA_ERROR
    | some raw => if raw.length ≤ destLen then .ok raw else .error .Z_BUF_ERROR

/-- The length of the buffer for so many bytes: `(_rawData.size() + 12) * 1.001 + 2`. -/
def datalen (size : ℕ) : ℕ :=
  ⌊toDouble (toDouble (toDouble (size + 12) * toDouble (1001 / 1000)) + 2)⌋₊

/-- `Compress::compressFunc`: `_compressData`, which stays empty after an error. -/
def compressFunc (mem : Bool) (rawData : Str) : Str :=
  match z.compress mem (datalen rawData.length) rawData with
  | .ok compressData => compressData
  | .error _ => []

/-- The loop of `Compress::uncompressFunc`: `_rawData`, which stays empty after an error other than
    `Z_BUF_ERROR`. When the attempts are used up it is the last buffer, which nothing was written
    to. `mem` is indexed by the attempts left. -/
def uncompressLoop (mem : ℕ → Bool) (compressData : Str) : ℕ → ℕ → Str
  | 0, initialCapacity =>
    match z.uncompress (mem 0) initialCapacity compressData with
    | .ok rawData => rawData
    | .error _ => []
  | maxAttempts + 1, initialCapacity =>
    match z.uncompress (mem (maxAttempts + 1)) initialCapacity compressData with
    | .ok rawData => rawData
    | .error .Z_BUF_ERROR =>
      if maxAttempts > 0 then uncompressLoop mem compressData maxAttempts (initialCapacity * 2)
      else List.replicate (initialCapacity * 2) 0
    | .error _ => []

/-- `Compress::uncompressFunc`: `_rawData`, or `none` where `new char[0]{0}` throws. -/
def uncompressFunc (mem : ℕ → Bool) (compressData : Str) (uncompressLen : ℕ) : Option Str :=
  if uncompressLen = 0 then none else some (uncompressLoop z mem compressData 2 uncompressLen)

/-! ### What comes back -/

/-- The output buffer of `compressFunc` is large enough, after all roundings. -/
theorem compressBound_le_datalen (size : ℕ) : compressBound size ≤ datalen size := by
  have hlow {x : ℚ} (hx : 0 < x) : x * (99999999 / 100000000) ≤ toDouble x := by
    have h := (abs_le.mp (abs_toDouble_sub_le hx)).1
    have hsmall : x / 2 ^ 53 ≤ x * (1 / 100000000) := by
      rw [div_eq_mul_inv]
      exact mul_le_mul_of_nonneg_left (by norm_num) hx.le
    linarith
  have hsize : (0 : ℚ) ≤ size := Nat.cast_nonneg _
  have hsum := hlow (x := size + 12) (by linarith)
  have hfactor := hlow (x := 1001 / 1000) (by norm_num)
  have hproduct : ((size : ℚ) + 12) * (99999999 / 100000000) * (1001 / 1000 * (99999999 / 100000000))
      ≤ toDouble (size + 12) * toDouble (1001 / 1000) :=
    mul_le_mul hsum hfactor (by norm_num) (by linarith)
  have hrounded := hlow (x := toDouble (size + 12) * toDouble (1001 / 1000)) (by linarith)
  have hall := hlow (x := toDouble (toDouble (size + 12) * toDouble (1001 / 1000)) + 2) (by linarith)
  refine Nat.le_floor ?_
  have hbound : 2 ^ 25 * compressBound size ≤ 2 ^ 25 * 13 + (2 ^ 25 + 2 ^ 13 + 2 ^ 11 + 1) * size := by
    rw [compressBound]
    omega
  have hbound' : (2 : ℚ) ^ 25 * compressBound size ≤ 2 ^ 25 * 13 + (2 ^ 25 + 2 ^ 13 + 2 ^ 11 + 1) * size := by
    exact_mod_cast hbound
  linarith

theorem compressFunc_of_mem (rawData : Str) : compressFunc z true rawData = z.deflate rawData := by
  have hroom : (z.deflate rawData).length ≤ datalen rawData.length :=
    (z.deflate_length_le rawData).trans (compressBound_le_datalen _)
  simp [compressFunc, Zlib.compress, hroom]

@[simp] theorem compressFunc_of_not_mem (rawData : Str) : compressFunc z false rawData = [] := by
  simp [compressFunc, Zlib.compress]

@[simp] theorem uncompress_of_not_mem (destLen : ℕ) (source : Str) :
    z.uncompress false destLen source = .error .Z_MEM_ERROR := rfl

theorem uncompress_deflate (raw : Str) (destLen : ℕ) : z.uncompress true destLen (z.deflate raw) =
    if raw.length ≤ destLen then .ok raw else .error .Z_BUF_ERROR := by
  simp [Zlib.uncompress, z.inflate_deflate]

/-- What the receiver makes of a compressed message: the message when it is at most twenty times as
    long as its stream, zeros when it is longer, and nothing when memory runs out. -/
theorem uncompressFunc_deflate (mem : ℕ → Bool) (raw : Str) :
    uncompressFunc z mem (z.deflate raw) ((z.deflate raw).length * 10) =
      some (if ! mem 2 then []
      else if raw.length ≤ (z.deflate raw).length * 10 then raw
      else if ! mem 1 then []
      else if raw.length ≤ (z.deflate raw).length * 20 then raw
      else List.replicate ((z.deflate raw).length * 40) 0) := by
  have hpos : 0 < (z.deflate raw).length := List.length_pos_of_ne_nil (z.deflate_ne_nil _)
  rw [uncompressFunc, if_neg (by omega), uncompressLoop]
  cases hfirst : mem 2 with
  | false => simp
  | true =>
    rcases Nat.lt_or_ge ((z.deflate raw).length * 10) raw.length with hlong | hfit
    · have hnot : ¬ raw.length ≤ (z.deflate raw).length * 10 := by omega
      cases hsecond : mem 1 with
      | false => simp [uncompressLoop, uncompress_deflate, hnot, hsecond]
      | true =>
        rcases Nat.lt_or_ge ((z.deflate raw).length * 20) raw.length with hlong' | hfit'
        · have hnot' : ¬ raw.length ≤ (z.deflate raw).length * 20 := by omega
          simp [uncompressLoop, uncompress_deflate, hnot, hsecond, Nat.mul_assoc, hnot']
        · simp [uncompressLoop, uncompress_deflate, hnot, hsecond, Nat.mul_assoc, hfit']
    · simp [uncompress_deflate, hfit]

/-- One of the receiver's calls of zlib ran out of memory; a second one is made for a message more than
    ten times as long as its stream. -/
def OutOfMemory (mem : ℕ → Bool) (raw : Str) : Prop :=
  mem 2 = false ∨ ((z.deflate raw).length * 10 < raw.length ∧ mem 1 = false)

/-- A message that went through `Compress` on both sides. -/
def throughZlib (memSender : Bool) (mem : ℕ → Bool) (raw : Str) : Option Str :=
  uncompressFunc z mem (compressFunc z memSender raw) ((compressFunc z memSender raw).length * 10)

/-- Where the sender's call ran out of memory, the receiver's buffer is empty. -/
theorem throughZlib_of_not_memSender (mem : ℕ → Bool) (raw : Str) : throughZlib z false mem raw = none := by
  simp [throughZlib, uncompressFunc]

theorem throughZlib_of_outOfMemory {mem : ℕ → Bool} {raw : Str} (h : OutOfMemory z mem raw) :
    throughZlib z true mem raw = some [] := by
  rw [throughZlib, compressFunc_of_mem, uncompressFunc_deflate]
  rcases h with h | ⟨hlong, h⟩
  · simp [h]
  · rw [if_neg (by omega : ¬ raw.length ≤ (z.deflate raw).length * 10)]
    simp [h]

theorem throughZlib_of_not_outOfMemory {mem : ℕ → Bool} {raw : Str} (h : ¬ OutOfMemory z mem raw) :
    throughZlib z true mem raw = some (if raw.length ≤ (z.deflate raw).length * 20 then raw
      else List.replicate ((z.deflate raw).length * 40) 0) := by
  simp only [OutOfMemory, not_or, not_and, Bool.not_eq_false] at h
  obtain ⟨hfirst, hsecond⟩ := h
  rw [throughZlib, compressFunc_of_mem, uncompressFunc_deflate, hfirst]
  rcases Nat.lt_or_ge ((z.deflate raw).length * 10) raw.length with hlong | hfit
  · rw [hsecond hlong]
    simp [Nat.not_le.mpr hlong]
  · rw [if_neg (by simp), if_pos hfit, if_pos (by omega)]

/-- Compression did the message no harm: zlib had memory, and the message is at most twenty times as long
    as its stream. -/
def Recovered (z : Zlib) (memSender : Bool) (mem : ℕ → Bool) (raw : Str) : Prop :=
  memSender = true ∧ ¬ OutOfMemory z mem raw ∧ raw.length ≤ (z.deflate raw).length * 20

/-- What becomes of a message behind zlib. -/
theorem throughZlib_cases (z : Zlib) (memSender : Bool) (mem : ℕ → Bool) (raw : Str) :
    (memSender = false ∧ throughZlib z memSender mem raw = none) ∨
      (memSender = true ∧ OutOfMemory z mem raw ∧ throughZlib z memSender mem raw = some []) ∨
      (Recovered z memSender mem raw ∧ throughZlib z memSender mem raw = some raw) ∨
      (memSender = true ∧ ¬ OutOfMemory z mem raw ∧ ¬ Recovered z memSender mem raw ∧
        ∃ n, throughZlib z memSender mem raw = some (List.replicate (n + 1) 0)) := by
  cases memSender with
  | false => exact .inl ⟨rfl, throughZlib_of_not_memSender z mem raw⟩
  | true =>
    right
    by_cases hmem : OutOfMemory z mem raw
    · exact .inl ⟨rfl, hmem, throughZlib_of_outOfMemory z hmem⟩
    right
    have hthrough := throughZlib_of_not_outOfMemory z hmem
    rcases Nat.lt_or_ge ((z.deflate raw).length * 20) raw.length with hlong | hfit
    · rw [if_neg (by omega)] at hthrough
      have hpos : 0 < (z.deflate raw).length := List.length_pos_of_ne_nil (z.deflate_ne_nil _)
      obtain ⟨n, hn⟩ : ∃ n, (z.deflate raw).length * 40 = n + 1 :=
        Nat.exists_eq_succ_of_ne_zero (by omega)
      refine .inr ⟨rfl, hmem, fun h => ?_, n, by rw [hthrough, hn]⟩
      have := h.2.2
      omega
    · rw [if_pos hfit] at hthrough
      exact .inl ⟨⟨rfl, hmem, hfit⟩, hthrough⟩

/-! ### A sample -/

/-- A `KeyExchangeResponse` whose `msg_id` is a repeated letter, and nothing else set. -/
def sampleRaw : Str := [10, 24] ++ List.replicate 24 97

/-- What zlib makes of it. -/
def sampleStream : Str := [120, 156, 227, 146, 72, 196, 1, 0, 117, 34, 9, 59]

/-- zlib on the sample; other messages are stored as they are, behind a byte that begins no stream of
    zlib. -/
def sampleZlib : Zlib where
  deflate raw := if raw = sampleRaw then sampleStream else 0 :: raw
  inflate stream :=
    if stream = sampleStream then some sampleRaw
    else match stream with
      | 0 :: raw => some raw
      | _ => none
  inflate_deflate raw := by
    split
    · rename_i h
      simp [h]
    · simp [sampleStream]
  deflate_length_le raw := by
    split
    · rename_i h
      rw [h]
      decide
    · simp only [List.length_cons, compressBound]
      omega
  inflate_nil := by decide

end Tfs.Net
