import Mathlib.Data.BitVec
import Tfs.Lib.Blocks

/-! SHA-256 as FIPS 180-4 defines it, up to the constants, which are parameters. -/

namespace Tfs.Sha256

open Blocks

abbrev Word := BitVec 32

def ch (x y z : Word) : Word := (x &&& y) ^^^ (~~~x &&& z)
def maj (x y z : Word) : Word := (x &&& y) ^^^ (x &&& z) ^^^ (y &&& z)
def bigSigma0 (x : Word) : Word := x.rotateRight 2 ^^^ x.rotateRight 13 ^^^ x.rotateRight 22
def bigSigma1 (x : Word) : Word := x.rotateRight 6 ^^^ x.rotateRight 11 ^^^ x.rotateRight 25
def smallSigma0 (x : Word) : Word := x.rotateRight 7 ^^^ x.rotateRight 18 ^^^ x >>> 3
def smallSigma1 (x : Word) : Word := x.rotateRight 17 ^^^ x.rotateRight 19 ^^^ x >>> 10

/-- The word of four bytes, the first the most significant. -/
def bigEndian (b₀ b₁ b₂ b₃ : UInt8) : Word :=
  b₀.toBitVec ++ b₁.toBitVec ++ b₂.toBitVec ++ b₃.toBitVec

/-- The words of a block. -/
def word (block : List UInt8) (t : ℕ) : Word :=
  bigEndian (block.getD (4 * t) 0) (block.getD (4 * t + 1) 0) (block.getD (4 * t + 2) 0)
    (block.getD (4 * t + 3) 0)

/-- The message schedule. -/
def schedule (block : List UInt8) (t : ℕ) : Word :=
  if t < 16 then word block t
  else smallSigma1 (schedule block (t - 2)) + schedule block (t - 7)
    + smallSigma0 (schedule block (t - 15)) + schedule block (t - 16)

/-- The working variables, and the hash value. -/
structure Registers where
  a : Word
  b : Word
  c : Word
  d : Word
  e : Word
  f : Word
  g : Word
  h : Word
  deriving DecidableEq, Repr

namespace Registers

/-- One round, with the constant and the word of the schedule it uses. -/
def round (r : Registers) (k w : Word) : Registers :=
  let t₁ := r.h + bigSigma1 r.e + ch r.e r.f r.g + k + w
  let t₂ := bigSigma0 r.a + maj r.a r.b r.c
  ⟨t₁ + t₂, r.a, r.b, r.c, r.d + t₁, r.e, r.f, r.g⟩

protected def add (r r' : Registers) : Registers :=
  ⟨r.a + r'.a, r.b + r'.b, r.c + r'.c, r.d + r'.d, r.e + r'.e, r.f + r'.f, r.g + r'.g, r.h + r'.h⟩

def toList (r : Registers) : List Word := [r.a, r.b, r.c, r.d, r.e, r.f, r.g, r.h]

end Registers

variable (K : ℕ → Word)

/-- The compression of one block. -/
def compress (hash : Registers) (block : List UInt8) : Registers :=
  hash.add ((List.range 64).foldl (fun r t => r.round (K t) (schedule block t)) hash)

/-- The bytes of a word and of a double word, the most significant first. -/
def bytes {w : ℕ} (x : BitVec (8 * w)) : List UInt8 :=
  (List.range w).map fun i => ⟨x.extractLsb' (8 * (w - 1 - i)) 8⟩

/-- The padded message: a one bit, as few zeros as make whole blocks of it, and its length in bits. -/
def pad (message : List UInt8) : List UInt8 :=
  message ++ 0x80 :: List.replicate ((119 - message.length % 64) % 64) 0
    ++ bytes (w := 8) (BitVec.ofNat 64 (8 * message.length))

/-- The hash value of a message. -/
def digest (initial : Registers) (message : List UInt8) : List UInt8 :=
  (absorb 64 (compress K) initial (pad message)).1.toList.flatMap (bytes (w := 4))

theorem length_bytes {w : ℕ} (x : BitVec (8 * w)) : (bytes x).length = w := by simp [bytes]

/-- The schedule a window of sixteen words at a time. -/
theorem schedule_add_sixteen (block : List UInt8) (t : ℕ) : schedule block (t + 16)
    = smallSigma1 (schedule block (t + 14)) + schedule block (t + 9)
      + smallSigma0 (schedule block (t + 1)) + schedule block t := by
  rw [schedule, if_neg (by omega)]
  rfl

end Tfs.Sha256
