import Mathlib.Tactic.IntervalCases
import Tfs.Basic
import Tfs.Lib.Sha256

/-! SHA-256 (`utils/sha2.cpp`), as built: rounds not unrolled, on a little-endian machine.

    The context takes the message in pieces of any length. Its buffer holds the bytes that do not fill
    a block, and is also where a transform keeps the sixteen words of the schedule it still needs. -/

namespace Tfs.Sha2

open Sha256 Blocks

/-! ### Words -/

def S32 (b : ℕ) (x : Word) : Word := x >>> b ||| x <<< (32 - b)
def R (b : ℕ) (x : Word) : Word := x >>> b
def Ch (x y z : Word) : Word := (x &&& y) ^^^ (~~~x &&& z)
def Maj (x y z : Word) : Word := (x &&& y) ^^^ (x &&& z) ^^^ (y &&& z)
def Sigma0_256 (x : Word) : Word := S32 2 x ^^^ S32 13 x ^^^ S32 22 x
def Sigma1_256 (x : Word) : Word := S32 6 x ^^^ S32 11 x ^^^ S32 25 x
def sigma0_256 (x : Word) : Word := S32 7 x ^^^ S32 18 x ^^^ R 3 x
def sigma1_256 (x : Word) : Word := S32 17 x ^^^ S32 19 x ^^^ R 10 x

def REVERSE32 (w : Word) : Word :=
  let tmp := w >>> 16 ||| w <<< 16
  (tmp &&& 0xff00ff00) >>> 8 ||| (tmp &&& 0x00ff00ff) <<< 8

def REVERSE64 (w : BitVec 64) : BitVec 64 :=
  let tmp := w >>> 32 ||| w <<< 32
  let tmp := (tmp &&& 0xff00ff00ff00ff00) >>> 8 ||| (tmp &&& 0x00ff00ff00ff00ff) <<< 8
  (tmp &&& 0xffff0000ffff0000) >>> 16 ||| (tmp &&& 0x0000ffff0000ffff) <<< 16

/-- The word in memory at index `j`. -/
def load (data : Str) (j : ℕ) : Word :=
  (data.getD (4 * j + 3) 0).toBitVec ++ (data.getD (4 * j + 2) 0).toBitVec
    ++ (data.getD (4 * j + 1) 0).toBitVec ++ (data.getD (4 * j) 0).toBitVec

/-- A word and a double word in memory. -/
def store {w : ℕ} (x : BitVec (8 * w)) : Str :=
  (List.range w).map fun i => ⟨x.extractLsb' (8 * i) 8⟩

def K256 (j : ℕ) : Word :=
  [0x428a2f98, 0x71374491, 0xb5c0fbcf, 0xe9b5dba5, 0x3956c25b, 0x59f111f1, 0x923f82a4, 0xab1c5ed5,
    0xd807aa98, 0x12835b01, 0x243185be, 0x550c7dc3, 0x72be5d74, 0x80deb1fe, 0x9bdc06a7, 0xc19bf174,
    0xe49b69c1, 0xefbe4786, 0x0fc19dc6, 0x240ca1cc, 0x2de92c6f, 0x4a7484aa, 0x5cb0a9dc, 0x76f988da,
    0x983e5152, 0xa831c66d, 0xb00327c8, 0xbf597fc7, 0xc6e00bf3, 0xd5a79147, 0x06ca6351, 0x14292967,
    0x27b70a85, 0x2e1b2138, 0x4d2c6dfc, 0x53380d13, 0x650a7354, 0x766a0abb, 0x81c2c92e, 0x92722c85,
    0xa2bfe8a1, 0xa81a664b, 0xc24b8b70, 0xc76c51a3, 0xd192e819, 0xd6990624, 0xf40e3585, 0x106aa070,
    0x19a4c116, 0x1e376c08, 0x2748774c, 0x34b0bcb5, 0x391c0cb3, 0x4ed8aa4a, 0x5b9cca4f, 0x682e6ff3,
    0x748f82ee, 0x78a5636f, 0x84c87814, 0x8cc70208, 0x90befffa, 0xa4506ceb, 0xbef9a3f7, 0xc67178f2].getD j 0

def sha256_initial_hash_value : Registers :=
  ⟨0x6a09e667, 0xbb67ae85, 0x3c6ef372, 0xa54ff53a, 0x510e527f, 0x9b05688c, 0x1f83d9ab, 0x5be0cd19⟩

/-! ### The functions -/

/-- `SHA256_CTX`. -/
structure SHA256_CTX where
  state : Registers
  bitcount : BitVec 64
  buffer : Str
  deriving DecidableEq, Repr

/-- `memcpy` and `memset` into the buffer. -/
def memcpy (buffer : Str) (offset : ℕ) (data : Str) : Str :=
  buffer.take offset ++ data ++ buffer.drop (offset + data.length)

def sha256_Init : SHA256_CTX := ⟨sha256_initial_hash_value, 0, List.replicate 64 0⟩

theorem mod_sixteen_lt (j : ℕ) : j % 16 < 16 := Nat.mod_lt j (by decide)

/-- `W256[j & 0x0f]`. -/
def at256 (W : Vector Word 16) (j : ℕ) : Word := W.get ⟨j % 16, mod_sixteen_lt j⟩

def set256 (W : Vector Word 16) (j : ℕ) (w : Word) : Vector Word 16 := W.set (j % 16) w (mod_sixteen_lt j)

/-- The body both loops of the transform share. -/
def applyRound (r : Registers) (j : ℕ) (w : Word) : Registers :=
  let T1 := r.h + Sigma1_256 r.e + Ch r.e r.f r.g + K256 j + w
  let T2 := Sigma0_256 r.a + Maj r.a r.b r.c
  { r with h := r.g, g := r.f, f := r.e, e := r.d + T1, d := r.c, c := r.b, b := r.a, a := T1 + T2 }

/-- The loop up to round 16 copies the block. -/
def firstRound (data : Str) (s : Registers × Vector Word 16) (j : ℕ) : Registers × Vector Word 16 :=
  let w := REVERSE32 (load data j)
  (applyRound s.1 j w, set256 s.2 j w)

/-- The loop up to round 64 replaces the words of the block, the oldest by the next of the schedule. -/
def laterRound (s : Registers × Vector Word 16) (j : ℕ) : Registers × Vector Word 16 :=
  let s0 := sigma0_256 (at256 s.2 (j + 1))
  let s1 := sigma1_256 (at256 s.2 (j + 14))
  let w := at256 s.2 j + (s1 + at256 s.2 (j + 9) + s0)
  (applyRound s.1 j w, set256 s.2 j w)

/-- The words in the buffer. -/
def words (buffer : Str) : Vector Word 16 := Vector.ofFn fun j => load buffer j

/-- `sha256_Transform`. Where the data is the buffer itself, each word is read before its place is
    written. -/
def sha256_Transform (context : SHA256_CTX) (data : Str) : SHA256_CTX :=
  let s := (List.range 16).foldl (firstRound data) (context.state, words context.buffer)
  let s := (List.range' 16 48).foldl laterRound s
  { context with
    state := context.state.add s.1
    buffer := s.2.toList.flatMap (store (w := 4)) }

/-- The loop over the complete blocks, and what is saved after it. -/
def updateBlocks (context : SHA256_CTX) (data : Str) : SHA256_CTX :=
  if 64 ≤ data.length then
    updateBlocks
      { sha256_Transform context (data.take 64) with
        bitcount := context.bitcount + BitVec.ofNat 64 64 <<< 3 } (data.drop 64)
  else if 0 < data.length then
    { context with
      buffer := memcpy context.buffer 0 data
      bitcount := context.bitcount + BitVec.ofNat 64 data.length <<< 3 }
  else context
termination_by data.length
decreasing_by
  rename_i h
  rw [List.length_drop]
  omega

/-- `usedspace` -/
def usedspace (context : SHA256_CTX) : ℕ := (context.bitcount >>> 3).toNat % 64

/-- `sha256_Update`. -/
def sha256_Update (context : SHA256_CTX) (data : Str) : SHA256_CTX :=
  if data.length = 0 then context
  else
    let used := usedspace context
    if 0 < used then
      let freespace := 64 - used
      if freespace ≤ data.length then
        let buffer := memcpy context.buffer used (data.take freespace)
        let filled := { context with
          buffer := buffer
          bitcount := context.bitcount + BitVec.ofNat 64 freespace <<< 3 }
        updateBlocks (sha256_Transform filled buffer) (data.drop freespace)
      else
        { context with
          buffer := memcpy context.buffer used data
          bitcount := context.bitcount + BitVec.ofNat 64 data.length <<< 3 }
    else updateBlocks context data

/-- The branches of `sha256_Final` that put the padding into the buffer, up to its last eight bytes. -/
def padBuffer (context : SHA256_CTX) (used : ℕ) : SHA256_CTX :=
  if 0 < used then
    let marked := memcpy context.buffer used [0x80]
    if used + 1 ≤ 56 then
      { context with buffer := memcpy marked (used + 1) (List.replicate (56 - (used + 1)) 0) }
    else
      let filled :=
        if used + 1 < 64 then memcpy marked (used + 1) (List.replicate (64 - (used + 1)) 0)
        else marked
      let transformed := sha256_Transform { context with buffer := filled } filled
      { transformed with buffer := memcpy transformed.buffer 0 (List.replicate 56 0) }
  else
    let cleared := memcpy context.buffer 0 (List.replicate 56 0)
    { context with buffer := memcpy cleared 0 [0x80] }

/-- `sha256_Final`: the digest, and the context it leaves. -/
def sha256_Final (context : SHA256_CTX) : Str × SHA256_CTX :=
  let padded := padBuffer { context with bitcount := REVERSE64 context.bitcount } (usedspace context)
  let buffer := memcpy padded.buffer 56 (store (w := 8) padded.bitcount)
  let final := sha256_Transform { padded with buffer := buffer } buffer
  (final.state.toList.flatMap fun word => store (w := 4) (REVERSE32 word),
    ⟨⟨0, 0, 0, 0, 0, 0, 0, 0⟩, 0, List.replicate 64 0⟩)

/-- `sha256_Raw`. -/
def sha256_Raw (data : Str) : Str := (sha256_Final (sha256_Update sha256_Init data)).1

/-! ### The constants -/

/-- The first 64 primes. -/
def primes : List ℕ :=
  [2, 3, 5, 7, 11, 13, 17, 19, 23, 29, 31, 37, 41, 43, 47, 53, 59, 61, 67, 71, 73, 79, 83,
    89, 97, 101, 103, 107, 109, 113, 127, 131, 137, 139, 149, 151, 157, 163, 167, 173, 179,
    181, 191, 193, 197, 199, 211, 223, 227, 229, 233, 239, 241, 251, 257, 263, 269, 271,
    277, 281, 283, 293, 307, 311]

theorem primes_spec :
    primes = (List.range 312).filter fun n => 2 ≤ n ∧ ∀ d ∈ List.range n, d < 2 ∨ n % d ≠ 0 := by
  decide +kernel

/-- The constants are the first 32 bits behind the point of the cube roots of the primes, and the
    initial hash value those of the square roots of the first eight. -/
theorem constants_spec : primes.length = 64 ∧
    (∀ j < 64, ∃ whole < 7, let root := whole * 2 ^ 32 + (K256 j).toNat
      root ^ 3 ≤ primes.getD j 0 * 2 ^ 96 ∧ primes.getD j 0 * 2 ^ 96 < (root + 1) ^ 3)
    ∧ ∀ j < 8, ∃ whole < 5,
      let root := whole * 2 ^ 32 + (sha256_initial_hash_value.toList.getD j 0).toNat
      root ^ 2 ≤ primes.getD j 0 * 2 ^ 64 ∧ primes.getD j 0 * 2 ^ 64 < (root + 1) ^ 2 := by
  decide +kernel

/-! ### Words and bytes -/

theorem REVERSE32_getLsbD (w : Word) {i : ℕ} (hi : i < 32) :
    (REVERSE32 w).getLsbD i = w.getLsbD (8 * (3 - i / 8) + i % 8) := by
  interval_cases i <;> simp [REVERSE32]

theorem REVERSE64_getLsbD (w : BitVec 64) {i : ℕ} (hi : i < 64) :
    (REVERSE64 w).getLsbD i = w.getLsbD (8 * (7 - i / 8) + i % 8) := by
  interval_cases i <;> simp [REVERSE64]

/-- A byte of a number whose bytes are turned round. -/
theorem extract_reverse {w : ℕ} {x y : BitVec (8 * w)}
    (h : ∀ i < 8 * w, y.getLsbD i = x.getLsbD (8 * (w - 1 - i / 8) + i % 8)) {i : ℕ} (hi : i < w) :
    y.extractLsb' (8 * i) 8 = x.extractLsb' (8 * (w - 1 - i)) 8 := by
  refine BitVec.eq_of_getLsbD_eq fun j hj => ?_
  rw [BitVec.getLsbD_extractLsb', BitVec.getLsbD_extractLsb', h _ (by omega)]
  have hdiv : (8 * i + j) / 8 = i := by omega
  have hmod : (8 * i + j) % 8 = j := by omega
  rw [hdiv, hmod]

theorem store_REVERSE32 (w : Word) : store (w := 4) (REVERSE32 w) = bytes (w := 4) w := by
  refine List.map_congr_left fun i hi => congrArg UInt8.ofBitVec ?_
  exact extract_reverse (w := 4) (fun i hi => REVERSE32_getLsbD w hi) (List.mem_range.mp hi)

theorem store_REVERSE64 (x : BitVec 64) : store (w := 8) (REVERSE64 x) = bytes (w := 8) x := by
  refine List.map_congr_left fun i hi => congrArg UInt8.ofBitVec ?_
  exact extract_reverse (w := 8) (fun i hi => REVERSE64_getLsbD x hi) (List.mem_range.mp hi)

/-- A word read and turned round is the big-endian one. -/
theorem REVERSE32_load (data : Str) (j : ℕ) : REVERSE32 (load data j) = word data j := by
  refine BitVec.eq_of_getLsbD_eq fun i hi => ?_
  rw [REVERSE32_getLsbD _ hi, load, word, bigEndian]
  simp only [BitVec.getLsbD_append]
  interval_cases i <;> rfl

@[simp] theorem length_store {w : ℕ} (x : BitVec (8 * w)) : (store x).length = w := by simp [store]

/-- The macros are the functions of the standard. -/
theorem applyRound_eq (r : Registers) (j : ℕ) (w : Word) : applyRound r j w = r.round (K256 j) w := rfl

/-! ### The transform -/

/-- The words are those of the schedule, as far as they go back from round `j`. -/
def Window (block : Str) (j : ℕ) (W : Vector Word 16) : Prop :=
  ∀ t, t < j → j ≤ t + 16 → at256 W t = schedule block t

theorem at256_set256 (W : Vector Word 16) (j t : ℕ) (w : Word) :
    at256 (set256 W j w) t = if t % 16 = j % 16 then w else at256 W t := by
  refine (Vector.getElem_set (mod_sixteen_lt j) (mod_sixteen_lt t)).trans ?_
  simp only [eq_comm (a := j % 16)]
  rfl

theorem at256_congr {W : Vector Word 16} {j t : ℕ} (h : j % 16 = t % 16) : at256 W j = at256 W t := by
  simp only [at256, h]

theorem Window.set {block : Str} {j : ℕ} {W : Vector Word 16} (h : Window block j W) :
    Window block (j + 1) (set256 W j (schedule block j)) := by
  intro t htj hjt
  rw [at256_set256]
  by_cases htj' : t = j
  · rw [htj', if_pos rfl]
  · rw [if_neg (by omega)]
    exact h t (by omega) (by omega)

theorem firstRound_eq {block : Str} {j : ℕ} (hj : j < 16) (r : Registers) (W : Vector Word 16) :
    firstRound block (r, W) j
      = (r.round (K256 j) (schedule block j), set256 W j (schedule block j)) := by
  rw [schedule, if_pos hj, firstRound, REVERSE32_load, applyRound_eq]

theorem laterRound_eq {block : Str} {j : ℕ} (hj : 16 ≤ j) {r : Registers} {W : Vector Word 16}
    (h : Window block j W) : laterRound (r, W) j
      = (r.round (K256 j) (schedule block j), set256 W j (schedule block j)) := by
  obtain ⟨t, rfl⟩ := Nat.exists_eq_add_of_le' hj
  have hat : ∀ k < 16, at256 W (t + 16 + k) = schedule block (t + k) := fun k hk => by
    rw [← h (t + k) (by omega) (by omega)]
    exact at256_congr (by omega)
  have hw : at256 W (t + 16)
      + (sigma1_256 (at256 W (t + 16 + 14)) + at256 W (t + 16 + 9) + sigma0_256 (at256 W (t + 16 + 1)))
        = schedule block (t + 16) := by
    rw [hat 14 (by decide), hat 9 (by decide), hat 1 (by decide), schedule_add_sixteen, add_comm]
    exact congrArg _ (hat 0 (by decide))
  rw [laterRound, hw, applyRound_eq]

/-- After the rounds up to `j` the registers are where the standard has them. -/
theorem foldl_rounds {block : Str} {f : Registers × Vector Word 16 → ℕ → Registers × Vector Word 16}
    {start : ℕ} {r : Registers} {W : Vector Word 16} (hW : Window block start W) : ∀ n,
    (∀ j r W, start ≤ j → j < start + n → Window block j W →
      f (r, W) j = (r.round (K256 j) (schedule block j), set256 W j (schedule block j))) →
      ∃ W', (List.range' start n).foldl f (r, W)
          = ((List.range' start n).foldl (fun r t => r.round (K256 t) (schedule block t)) r, W')
        ∧ Window block (start + n) W'
  | 0, _ => ⟨W, rfl, hW⟩
  | n + 1, hf => by
    obtain ⟨W', hfold, hW'⟩ := foldl_rounds hW n fun j r W hj hjn => hf j r W hj (by omega)
    refine ⟨_, ?_, hW'.set⟩
    rw [List.range'_concat, List.foldl_append, List.foldl_append, hfold, List.foldl_cons, List.foldl_nil,
      Nat.one_mul, hf _ _ _ (Nat.le_add_right ..) (by omega) hW', List.foldl_cons, List.foldl_nil]

theorem sha256_Transform_state (context : SHA256_CTX) (block : Str) :
    (sha256_Transform context block).state = compress K256 context.state block := by
  have hnone : Window block 0 (words context.buffer) := fun t ht => absurd ht (Nat.not_lt_zero t)
  obtain ⟨W, hfirst, hW⟩ := foldl_rounds (r := context.state) hnone 16
    fun j r W _ hj _ => firstRound_eq (by omega) r W
  obtain ⟨W', hlater, -⟩ := foldl_rounds (f := laterRound)
    (r := (List.range' 0 16).foldl (fun r t => r.round (K256 t) (schedule block t)) context.state)
    hW 48 fun j r W hj _ hW => laterRound_eq (by omega) hW
  have hrange : List.range 64 = List.range' 0 16 ++ List.range' 16 48 := by
    rw [List.range_eq_range', List.range'_append_1]
  rw [compress, hrange, List.foldl_append]
  simp only [sha256_Transform, List.range_eq_range', hfirst, hlater]

theorem length_words (W : Vector Word 16) : (W.toList.flatMap (store (w := 4))).length = 64 := by
  simp [List.length_flatMap]

theorem length_sha256_Transform (context : SHA256_CTX) (block : Str) :
    (sha256_Transform context block).buffer.length = 64 := by
  simp only [sha256_Transform, length_words]

@[simp] theorem sha256_Transform_bitcount (context : SHA256_CTX) (block : Str) :
    (sha256_Transform context block).bitcount = context.bitcount := by
  rw [sha256_Transform]

attribute [irreducible] sha256_Transform

/-! ### The context -/

/-- The context has taken this message: its complete blocks are compressed, and the rest of it is in
    the buffer. -/
structure Holds (message : Str) (context : SHA256_CTX) : Prop where
  bitcount : context.bitcount = BitVec.ofNat 64 (8 * message.length)
  buffer : context.buffer.length = 64
  absorbed : absorb 64 (compress K256) sha256_initial_hash_value message
    = (context.state, context.buffer.take (message.length % 64))

variable {message data : Str} {context : SHA256_CTX}

theorem holds_init : Holds [] sha256_Init := ⟨rfl, rfl, absorb_of_lt (by decide)⟩

/-- The count may wrap around, yet the bytes in the buffer are told from it. -/
theorem Holds.usedspace (h : Holds message context) : usedspace context = message.length % 64 := by
  rw [Sha2.usedspace, h.bitcount, BitVec.toNat_ushiftRight, BitVec.toNat_ofNat, Nat.shiftRight_eq_div_pow]
  omega

theorem bitcount_add (n m : ℕ) : BitVec.ofNat 64 (8 * n) + BitVec.ofNat 64 m <<< 3
    = BitVec.ofNat 64 (8 * (n + m)) := by
  apply BitVec.eq_of_toNat_eq
  simp only [BitVec.toNat_add, BitVec.toNat_ofNat, BitVec.toNat_shiftLeft, Nat.shiftLeft_eq]
  omega

theorem length_memcpy {buffer data : Str} {offset : ℕ} (h : offset + data.length ≤ buffer.length) :
    (memcpy buffer offset data).length = buffer.length := by
  simp only [memcpy, List.length_append, List.length_take, List.length_drop]
  omega

theorem take_memcpy {buffer data : Str} {offset : ℕ} (h : offset + data.length ≤ buffer.length) :
    (memcpy buffer offset data).take (offset + data.length) = buffer.take offset ++ data := by
  rw [memcpy, List.take_left']
  simp only [List.length_append, List.length_take]
  omega

theorem memcpy_end {buffer data : Str} {offset : ℕ} (h : offset + data.length = buffer.length) :
    memcpy buffer offset data = buffer.take offset ++ data := by
  rw [memcpy, List.drop_eq_nil_of_le h.ge, List.append_nil]

/-- Zeros from one place up to another. -/
theorem memcpy_zeros {buffer : Str} {n m : ℕ} (hnm : n ≤ m) (hm : m ≤ buffer.length) :
    (memcpy buffer n (List.replicate (m - n) 0)).length = buffer.length
      ∧ (memcpy buffer n (List.replicate (m - n) 0)).take m
        = buffer.take n ++ List.replicate (m - n) 0 := by
  have hroom : n + (List.replicate (m - n) (0 : UInt8)).length ≤ buffer.length := by
    rw [List.length_replicate, Nat.add_sub_cancel' hnm]
    exact hm
  have htake := take_memcpy hroom
  rw [List.length_replicate, Nat.add_sub_cancel' hnm] at htake
  exact ⟨length_memcpy hroom, htake⟩

/-- The one bit goes behind what the buffer holds. -/
theorem memcpy_mark {buffer : Str} {used : ℕ} (hused : used < buffer.length) :
    (memcpy buffer used [0x80]).length = buffer.length
      ∧ (memcpy buffer used [0x80]).take (used + 1) = buffer.take used ++ [0x80] := by
  have hroom : used + [(0x80 : UInt8)].length ≤ buffer.length := hused
  exact ⟨length_memcpy hroom, take_memcpy hroom⟩

/-- Data that does not fill the block is appended to what the buffer holds. -/
theorem Holds.memcpy (h : Holds message context) (hlt : message.length % 64 + data.length < 64) :
    Holds (message ++ data)
      { context with
        buffer := memcpy context.buffer (message.length % 64) data
        bitcount := context.bitcount + BitVec.ofNat 64 data.length <<< 3 } := by
  have hle : message.length % 64 + data.length ≤ context.buffer.length := by
    rw [h.buffer]
    exact hlt.le
  refine ⟨?_, (length_memcpy hle).trans h.buffer, ?_⟩
  · rw [h.bitcount, bitcount_add, List.length_append]
  · have hmod : (message ++ data).length % 64 = message.length % 64 + data.length := by
      rw [List.length_append]
      omega
    rw [absorb_append (by decide), h.absorbed, hmod, take_memcpy hle, absorb_of_lt]
    rw [List.length_append, List.length_take, h.buffer]
    omega

/-- Data that completes the block is compressed with what the buffer holds. -/
theorem Holds.transform (h : Holds message context) {after : SHA256_CTX}
    (hlen : message.length % 64 + data.length = 64)
    (hbitcount : after.bitcount = BitVec.ofNat 64 (8 * (message.length + data.length)))
    (hbuffer : after.buffer.length = 64) (hstate : after.state
      = compress K256 context.state (context.buffer.take (message.length % 64) ++ data)) :
    Holds (message ++ data) after := by
  have hblock : (context.buffer.take (message.length % 64) ++ data).length = 64 := by
    rw [List.length_append, List.length_take, h.buffer]
    omega
  have hmod : (message ++ data).length % 64 = 0 := by
    rw [List.length_append]
    omega
  refine ⟨by rw [List.length_append, hbitcount], hbuffer, ?_⟩
  rw [absorb_append (by decide), h.absorbed, hmod, List.take_zero, hstate]
  exact absorb_one (by decide) hblock

/-- Data that fills the buffer up is compressed with what it holds. -/
theorem Holds.fill (h : Holds message context) (hlen : message.length % 64 + data.length = 64) :
    Holds (message ++ data)
      (sha256_Transform
        ⟨context.state, context.bitcount + BitVec.ofNat 64 data.length <<< 3,
          Sha2.memcpy context.buffer (message.length % 64) data⟩
        (Sha2.memcpy context.buffer (message.length % 64) data)) := by
  refine h.transform hlen ?_ (length_sha256_Transform ..) ?_
  · rw [sha256_Transform_bitcount, h.bitcount, bitcount_add]
  · rw [sha256_Transform_state, memcpy_end (hlen.trans h.buffer.symm)]

theorem Holds.updateBlocks (h : Holds message context) (hmod : message.length % 64 = 0) :
    Holds (message ++ data) (updateBlocks context data) := by
  fun_induction Sha2.updateBlocks context data generalizing message with
  | case1 context data hlen ih =>
    have htake : (data.take 64).length = 64 := List.length_take_of_le hlen
    have hstep : Holds (message ++ data.take 64)
        { sha256_Transform context (data.take 64) with
          bitcount := context.bitcount + BitVec.ofNat 64 64 <<< 3 } := by
      refine h.transform (by omega) ?_ (length_sha256_Transform context (data.take 64)) ?_
      · rw [htake, h.bitcount, bitcount_add]
      · rw [hmod]
        exact sha256_Transform_state context (data.take 64)
    have hrest := ih hstep (by rw [List.length_append, htake]; omega)
    rwa [List.append_assoc, List.take_append_drop] at hrest
  | case2 context data hlen hpos =>
    have hcopy := h.memcpy (by omega : message.length % 64 + data.length < 64)
    rwa [hmod] at hcopy
  | case3 context data hlen hpos =>
    rw [List.length_eq_zero_iff.mp (Nat.eq_zero_of_not_pos hpos), List.append_nil]
    exact h

theorem Holds.update (h : Holds message context) (data : Str) :
    Holds (message ++ data) (sha256_Update context data) := by
  rw [sha256_Update]
  by_cases hdata : data.length = 0
  · rw [if_pos hdata, List.length_eq_zero_iff.mp hdata, List.append_nil]
    exact h
  · rw [if_neg hdata]
    simp only [h.usedspace]
    by_cases hused : 0 < message.length % 64
    · rw [if_pos hused]
      by_cases hfree : 64 - message.length % 64 ≤ data.length
      · rw [if_pos hfree]
        have hlen : (data.take (64 - message.length % 64)).length = 64 - message.length % 64 :=
          List.length_take_of_le hfree
        have hfilled := h.fill (by omega : message.length % 64
          + (data.take (64 - message.length % 64)).length = 64)
        rw [hlen] at hfilled
        have hwhole : (message ++ data.take (64 - message.length % 64)).length % 64 = 0 := by
          rw [List.length_append, hlen]
          omega
        have hrest : Holds (message ++ data.take (64 - message.length % 64)
            ++ data.drop (64 - message.length % 64)) _ := hfilled.updateBlocks hwhole
        rwa [List.append_assoc, List.take_append_drop] at hrest
      · rw [if_neg hfree]
        exact h.memcpy (by omega)
    · rw [if_neg hused]
      exact h.updateBlocks (Nat.eq_zero_of_not_pos hused)

theorem padBuffer_bitcount (context : SHA256_CTX) (used : ℕ) :
    (padBuffer context used).bitcount = context.bitcount := by
  simp only [padBuffer]
  split
  · split
    · rfl
    · exact sha256_Transform_bitcount ..
  · rfl

section Padding
variable (state : Registers) (bitcount : BitVec 64) {buffer : Str} {used : ℕ}

/-- Where the length still fits behind it, the padding stays in the block. -/
theorem padBuffer_short (hlen : buffer.length = 64) (hshort : used + 1 ≤ 56) :
    let padded := padBuffer ⟨state, bitcount, buffer⟩ used
    padded.state = state ∧ padded.buffer.length = 64
      ∧ padded.buffer.take 56 = buffer.take used ++ 0x80 :: List.replicate (56 - (used + 1)) 0 := by
  by_cases hpos : 0 < used
  · obtain ⟨hmarked, htake⟩ := memcpy_mark (by omega : used < buffer.length)
    rw [hlen] at hmarked
    obtain ⟨hfilled, hzeros⟩ := memcpy_zeros hshort (by omega : 56 ≤ (memcpy buffer used [0x80]).length)
    rw [htake, List.append_assoc] at hzeros
    simp only [padBuffer, if_pos hpos, if_pos hshort]
    exact ⟨trivial, hfilled.trans hmarked, hzeros⟩
  · obtain rfl : used = 0 := Nat.eq_zero_of_not_pos hpos
    obtain ⟨hcleared, -⟩ := memcpy_zeros (Nat.zero_le 56) (by omega : 56 ≤ buffer.length)
    have hmarked := memcpy_mark (by omega : 0 < (memcpy buffer 0 (List.replicate (56 - 0) 0)).length)
    simp only [padBuffer, if_neg hpos]
    refine ⟨trivial, (hmarked.1.trans hcleared).trans hlen, ?_⟩
    simp [memcpy, List.take_drop]

/-- Where it does not, the block is filled with zeros, and one more follows. -/
theorem padBuffer_long (hlen : buffer.length = 64) (hused : used < 64) (hlong : ¬ used + 1 ≤ 56) :
    let padded := padBuffer ⟨state, bitcount, buffer⟩ used
    padded.state = compress K256 state (buffer.take used ++ 0x80 :: List.replicate (64 - (used + 1)) 0)
      ∧ padded.buffer.length = 64 ∧ padded.buffer.take 56 = List.replicate 56 0 := by
  obtain ⟨hmarked, htake⟩ := memcpy_mark (by omega : used < buffer.length)
  rw [hlen] at hmarked
  have hfilled : (if used + 1 < 64 then
      memcpy (memcpy buffer used [0x80]) (used + 1) (List.replicate (64 - (used + 1)) 0)
      else memcpy buffer used [0x80])
        = buffer.take used ++ 0x80 :: List.replicate (64 - (used + 1)) 0 := by
    split
    · rw [memcpy_end, htake, List.append_assoc]
      · rfl
      · rw [hmarked, List.length_replicate]
        omega
    · have hlast : used = 63 := by omega
      rw [memcpy_end, hlast]
      · rfl
      · rw [hlen, hlast]
        rfl
  simp only [padBuffer, if_pos (by omega : 0 < used), if_neg hlong, hfilled]
  have hroom := length_sha256_Transform ⟨state, bitcount, buffer.take used
    ++ 0x80 :: List.replicate (64 - (used + 1)) 0⟩ (buffer.take used
      ++ 0x80 :: List.replicate (64 - (used + 1)) 0)
  obtain ⟨hcleared, hzeros⟩ := memcpy_zeros (Nat.zero_le 56) (hroom.symm ▸ (by decide : 56 ≤ 64))
  exact ⟨sha256_Transform_state .., hcleared.trans hroom, hzeros⟩

/-- The buffer is padded as the standard pads the message. -/
theorem padBuffer_spec (hlen : buffer.length = 64) (hused : used < 64) :
    let padded := padBuffer ⟨state, bitcount, buffer⟩ used
    padded.buffer.length = 64 ∧
      absorb 64 (compress K256) state
          (buffer.take used ++ 0x80 :: List.replicate ((119 - used) % 64) 0)
        = (padded.state, padded.buffer.take 56) := by
  have htake : (buffer.take used).length = used := List.length_take_of_le (hlen ▸ hused.le)
  by_cases hshort : used + 1 ≤ 56
  · obtain ⟨hstate, hlength, hpadded⟩ :=
      padBuffer_short state bitcount hlen hshort
    refine ⟨hlength, ?_⟩
    have hz : (119 - used) % 64 = 56 - (used + 1) := by omega
    rw [hstate, hpadded, hz, absorb_of_lt]
    simp only [List.length_append, List.length_cons, List.length_replicate, htake]
    omega
  · obtain ⟨hstate, hlength, hpadded⟩ :=
      padBuffer_long state bitcount hlen hused hshort
    refine ⟨hlength, ?_⟩
    have hz : (119 - used) % 64 = (64 - (used + 1)) + 56 := by omega
    rw [hstate, hpadded, hz, List.replicate_add, ← List.cons_append, ← List.append_assoc,
      absorb_block (by decide), absorb_of_lt (by simp)]
    simp only [List.length_append, List.length_cons, List.length_replicate, htake]
    omega

end Padding

/-- `sha256_Final` finishes the message as the standard does. -/
theorem Holds.final (h : Holds message context) :
    (sha256_Final context).1 = digest K256 sha256_initial_hash_value message := by
  have hlt : message.length % 64 < 64 := Nat.mod_lt _ (by decide)
  obtain ⟨hlen, habsorb⟩ := padBuffer_spec context.state (REVERSE64 context.bitcount) h.buffer hlt
  have hpad : absorb 64 (compress K256) sha256_initial_hash_value (pad message)
      = absorb 64 (compress K256) (padBuffer ⟨context.state, REVERSE64 context.bitcount, context.buffer⟩
        (message.length % 64)).state ((padBuffer ⟨context.state, REVERSE64 context.bitcount,
          context.buffer⟩ (message.length % 64)).buffer.take 56
            ++ bytes (w := 8) (BitVec.ofNat 64 (8 * message.length))) := by
    rw [pad, List.append_assoc, absorb_append (by decide), h.absorbed, ← List.append_assoc,
      absorb_append (by decide), habsorb]
  have hend : 56 + (bytes (w := 8) context.bitcount).length = 64 := by rw [length_bytes]
  have hblock : ((padBuffer ⟨context.state, REVERSE64 context.bitcount, context.buffer⟩
      (message.length % 64)).buffer.take 56 ++ bytes (w := 8) context.bitcount).length = 64 := by
    rw [List.length_append, List.length_take_of_le (by rw [hlen]; decide), hend]
  rw [← h.bitcount, absorb_one (by decide) hblock] at hpad
  simp only [sha256_Final, digest, hpad, h.usedspace, padBuffer_bitcount, store_REVERSE64,
    sha256_Transform_state, store_REVERSE32]
  rw [memcpy_end (hend.trans hlen.symm)]

theorem Holds.foldl (h : Holds message context) (pieces : List Str) :
    Holds (message ++ pieces.flatten) (pieces.foldl sha256_Update context) := by
  induction pieces generalizing message context with
  | nil => simpa using h
  | cons data pieces ih =>
    rw [List.flatten_cons, ← List.append_assoc]
    exact ih (h.update data)

/-- In whatever pieces a message is handed over, the digest is its SHA-256 hash value. -/
theorem sha256_streaming (pieces : List Str) :
    (sha256_Final (pieces.foldl sha256_Update sha256_Init)).1
      = digest K256 sha256_initial_hash_value pieces.flatten :=
  (holds_init.foldl pieces).final

example : sha256_Raw (str "abc")
    = [0xba, 0x78, 0x16, 0xbf, 0x8f, 0x01, 0xcf, 0xea, 0x41, 0x41, 0x40, 0xde, 0x5d, 0xae, 0x22, 0x23,
      0xb0, 0x03, 0x61, 0xa3, 0x96, 0x17, 0x7a, 0x9c, 0xb4, 0x10, 0xff, 0x61, 0xf2, 0x00, 0x15, 0xad] := by
  decide +kernel

end Tfs.Sha2
