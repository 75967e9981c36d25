import Mathlib
import Tfs.Basic
import Tfs.Lib.Framing

/-! The packets of the network layer (`net/define.h`, `net/pack.cpp`, `utils/util.cpp`).

    A `CommonMsg` is serialised, summed and framed: four bytes of length, the data, and behind it the
    checksum, the flag and the end flag as little-endian words. The serialisation is the message's
    own; the packet depends on its bytes only. -/

namespace Tfs.Net

open Tfs.Framing

/-- `END_FLAG`. -/
def END_FLAG : UInt32 := 7777777

/-- `NetPack` with its default values. -/
structure NetPack where
  len : UInt32 := 0
  data : Str := []
  checkSum : UInt32 := 0
  flag : UInt32 := 0
  endFlag : UInt32 := END_FLAG
  deriving DecidableEq, Repr

/-- One turn of the loop of `Util::adler32`. -/
def adler32Step (ab : UInt32 × UInt32) (byte : UInt8) : UInt32 × UInt32 :=
  let a := (ab.1 + byte.toUInt32) % 65521
  (a, (ab.2 + a) % 65521)

/-- `Util::adler32`. -/
def adler32 (data : Str) : UInt32 :=
  let ab := data.foldl adler32Step (1, 0)
  (ab.2 <<< 16) ||| ab.1

/-- `Pack::PackagToBuff`: the bytes copied into the buffer. -/
def packagToBuff (pack : NetPack) : Str :=
  le32 pack.len ++ pack.data ++ le32 pack.checkSum ++ le32 pack.flag ++ le32 pack.endFlag

/-- `Pack::PackagToStr`: a zeroed buffer of `pack.len + 4` bytes, filled from the front. -/
def packagToStr (pack : NetPack) : Str :=
  let buffSize := pack.len.toNat + 4
  (packagToBuff pack ++ List.replicate (buffSize - (packagToBuff pack).length) 0).take buffSize

/-- `Pack::ApartPack`: `none` where it returns `false` and leaves the packet as it was. -/
def apartPack (pack : Str) : Option NetPack :=
  if pack.length < 12 then none
  else
    let data := pack.take (pack.length - 12)
    some { len := UInt32.ofNat pack.length
           data := data
           checkSum := fromLe32 (pack.drop data.length)
           flag := fromLe32 (pack.drop (data.length + 4))
           endFlag := fromLe32 (pack.drop (data.length + 4 + 4)) }

/-- `Pack::PackCommonMsg` on the serialised message. -/
def packCommonMsg (serialized : Str) (priority : Int8) : NetPack :=
  { len := UInt32.ofNat (serialized.length + 4 + 4 + 4)
    data := serialized
    checkSum := adler32 serialized
    flag := (priority.toUInt8 &&& 0xF).toUInt32 }

/-- A packet whose length and checksum are those of its data, within the length the reader takes. -/
structure NetPack.WellFramed (pack : NetPack) : Prop where
  len_eq : pack.len.toNat = pack.data.length + 12
  len_le : pack.len.toNat ≤ 100 * 1000 * 1000
  checkSum_eq : pack.checkSum = adler32 pack.data

theorem packCommonMsg_wellFramed {serialized : Str} (priority : Int8)
    (h : serialized.length + 12 ≤ 100 * 1000 * 1000) :
    (packCommonMsg serialized priority).WellFramed := by
  have hlen : (packCommonMsg serialized priority).len.toNat = serialized.length + 12 := by
    simp only [packCommonMsg, UInt32.toNat_ofNat']
    omega
  exact ⟨hlen, hlen ▸ h, rfl⟩

/-- What follows the length of a frame. -/
def NetPack.body (pack : NetPack) : Str :=
  pack.data ++ le32 pack.checkSum ++ le32 pack.flag ++ le32 pack.endFlag

@[simp] theorem NetPack.body_length (pack : NetPack) : pack.body.length = pack.data.length + 12 := by
  simp [NetPack.body]

/-- The frame of a packet is its length and its body. -/
theorem packagToStr_eq {pack : NetPack} (h : pack.WellFramed) :
    packagToStr pack = le32 pack.len ++ pack.body := by
  have hlen : (packagToBuff pack).length = pack.len.toNat + 4 := by
    simp only [packagToBuff, List.length_append, le32_length, h.len_eq]
    omega
  have hfull : packagToStr pack = packagToBuff pack := by
    simp [packagToStr, hlen]
  rw [hfull]
  simp [packagToBuff, NetPack.body]

/-- `ApartPack` takes a body apart into the packet it came from. -/
theorem apartPack_body {pack : NetPack} (h : pack.WellFramed) : apartPack pack.body = some pack := by
  have hdata : pack.body.take (pack.body.length - 12) = pack.data := by
    rw [NetPack.body_length, Nat.add_sub_cancel]
    simp [NetPack.body]
  have hlen : UInt32.ofNat pack.body.length = pack.len := by
    rw [NetPack.body_length, ← h.len_eq]
    simp
  have hsum : pack.body.drop pack.data.length
      = le32 pack.checkSum ++ (le32 pack.flag ++ le32 pack.endFlag) := by
    simp [NetPack.body]
  have hflag : pack.body.drop (pack.data.length + 4) = le32 pack.flag ++ le32 pack.endFlag := by
    rw [← List.drop_drop, hsum, List.drop_left' (le32_length _)]
  have hend : pack.body.drop (pack.data.length + 4 + 4) = le32 pack.endFlag := by
    rw [← List.drop_drop, hflag, List.drop_left' (le32_length _)]
  rw [apartPack, if_neg (by simp)]
  simp only [hdata, hlen, hsum, hflag, hend, fromLe32_le32_append, fromLe32_le32]

end Tfs.Net
