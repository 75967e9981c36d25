import Mathlib
import Tfs.Basic
import Tfs.Lib.Framing
import Tfs.Net.Pack

/-! The buffers of one connection (`net/socket_buf.cpp`).

    The reading side collects what the socket delivers in `_cache` and pushes every complete frame
    to the work queue. A length that cannot be right, or a checksum that does not fit, makes it look
    for the next end flag and go on behind it (`CorrectCache`). -/

namespace Tfs.Net

open Tfs.Framing

/-- `DataType`. -/
inductive DataType where
  | E_READ | E_WORK | E_WRITE
  deriving DecidableEq, Repr

/-- `MsgData`: a packet on its way through the queues. -/
structure MsgData where
  type : DataType
  fd : ℤ
  port : UInt16
  ip : UInt32
  data : Str
  pack : NetPack
  id : Str := []
  deriving DecidableEq, Repr

/-- `net_data::DataPackPortAndIpToInt`: port and address. -/
def dataPackPortAndIpToInt (portAndIp : UInt64) : UInt16 × UInt32 :=
  ((portAndIp >>> 32).toUInt16, ((portAndIp <<< 32) >>> 32).toUInt32)

/-- `SocketBuf`, its reading side, with what was pushed to `g_queueWork` so far. -/
structure ReadBuf where
  fd : ℤ
  portAndIp : UInt64
  cache : Str
  queueWork : List MsgData
  deriving DecidableEq, Repr

/-- `SocketBuf::CorrectCache`: everything up to the first end flag is dropped. -/
def correctCache (cache : Str) : Str :=
  if cache.length < 4 then []
  else
    match (List.range (cache.length - 4 + 1)).find? fun i => fromLe32 (cache.drop i) == END_FLAG with
    | some i => cache.drop (i + 4)
    | none => []

/-- `SocketBuf::VerifyCache`. -/
def verifyCache (cache : Str) (currMsgLen : ℕ) : Str :=
  if currMsgLen > 100 * 1000 * 1000 then correctCache cache else cache

/-- The packet of a frame's body as `_SendPkToMessQueue` hands it on; a body `ApartPack` refuses
    leaves the default packet. -/
def ReadBuf.msgOf (buf : ReadBuf) (data : Str) : MsgData :=
  { type := .E_WORK
    fd := buf.fd
    port := (dataPackPortAndIpToInt buf.portAndIp).1
    ip := (dataPackPortAndIpToInt buf.portAndIp).2
    data := data
    pack := (apartPack data).getD {} }

/-- `SocketBuf::_SendPkToMessQueue`. -/
def ReadBuf.sendPkToMessQueue (buf : ReadBuf) (data : Str) : ReadBuf :=
  { buf with queueWork := buf.queueWork ++ [buf.msgOf data] }

theorem correctCache_length_le (cache : Str) : (correctCache cache).length ≤ cache.length := by
  rw [correctCache]
  split
  · simp
  · split <;> simp

theorem verifyCache_length_le (cache : Str) (currMsgLen : ℕ) :
    (verifyCache cache currMsgLen).length ≤ cache.length := by
  rw [verifyCache]
  split
  · exact correctCache_length_le cache
  · exact le_rfl

/-- The loop of `AddDataToReadBuf`. -/
def ReadBuf.readLoop (buf : ReadBuf) (currMsgLen : ℕ) : Bool × ReadBuf :=
  if 4 + currMsgLen ≤ buf.cache.length then
    let cache := buf.cache.drop 4
    let readData := cache.take currMsgLen
    if readData.length < 4 * 3 then (false, { buf with cache := correctCache cache })
    else
      let checkSum := adler32 (readData.take (readData.length - 4 * 3))
      let packCheckSum := fromLe32 (cache.drop (readData.length - 4 * 3))
      if checkSum ≠ packCheckSum then (false, { buf with cache := correctCache cache })
      else
        let buf := { buf with cache := cache.drop currMsgLen }.sendPkToMessQueue readData
        if buf.cache.length < 4 then (true, buf)
        else
          let currMsgLen := (fromLe32 buf.cache).toNat
          { buf with cache := verifyCache buf.cache currMsgLen }.readLoop currMsgLen
  else (true, buf)
termination_by buf.cache.length
decreasing_by
  refine lt_of_le_of_lt (verifyCache_length_le _ _) ?_
  simp only [ReadBuf.sendPkToMessQueue, List.length_drop]
  omega

/-- `SocketBuf::AddDataToReadBuf`. -/
def ReadBuf.addDataToReadBuf (buf : ReadBuf) (data : Str) : Bool × ReadBuf :=
  if data.isEmpty then (false, buf)
  else
    let buf := { buf with cache := buf.cache ++ data }
    if 4 ≤ buf.cache.length then
      let currMsgLen := (fromLe32 buf.cache).toNat
      { buf with cache := verifyCache buf.cache currMsgLen }.readLoop currMsgLen
    else (true, buf)

/-! ### Frames read back -/

/-- What `AddDataToReadBuf` does with the cache: also what its loop does behind a frame. -/
def ReadBuf.scan (buf : ReadBuf) : Bool × ReadBuf :=
  if 4 ≤ buf.cache.length then
    let currMsgLen := (fromLe32 buf.cache).toNat
    { buf with cache := verifyCache buf.cache currMsgLen }.readLoop currMsgLen
  else (true, buf)

theorem ReadBuf.addDataToReadBuf_eq_scan (buf : ReadBuf) {data : Str} (h : data ≠ []) :
    buf.addDataToReadBuf data = { buf with cache := buf.cache ++ data }.scan := by
  simp [addDataToReadBuf, scan, h]

theorem verifyCache_of_le {currMsgLen : ℕ} (cache : Str) (h : currMsgLen ≤ 100 * 1000 * 1000) :
    verifyCache cache currMsgLen = cache := if_neg (by omega)

/-- The beginning of a frame stays in the cache: four bytes of it give a length the cache does not
    have yet. -/
theorem ReadBuf.scan_incomplete {buf : ReadBuf} {len : UInt32} {body : Str} (hlen : len.toNat = body.length)
    (hle : len.toNat ≤ 100 * 1000 * 1000) (hbegin : buf.cache <+: le32 len ++ body)
    (hlt : buf.cache.length < (le32 len ++ body).length) : buf.scan = (true, buf) := by
  rcases Nat.lt_or_ge buf.cache.length 4 with hshort | hlong
  · exact if_neg (by omega)
  obtain ⟨tail, htail⟩ := hbegin
  have hread : fromLe32 buf.cache = len := by
    rw [← fromLe32_append hlong tail, htail, fromLe32_le32_append]
  have hmore : ¬ 4 + len.toNat ≤ buf.cache.length := by
    rw [List.length_append, le32_length] at hlt
    omega
  rw [scan, if_pos hlong]
  simp only [hread, verifyCache_of_le _ hle]
  rw [readLoop, if_neg hmore]

/-- The beginning of the next packet's frame stays in the cache. -/
theorem ReadBuf.scan_pending {buf : ReadBuf} {todo : List NetPack}
    (hok : ∀ pack ∈ todo, pack.WellFramed) (h : Pending packagToStr todo buf.cache) :
    buf.scan = (true, buf) := by
  cases todo with
  | nil =>
    have hnil : buf.cache = [] := h
    simp [scan, hnil]
  | cons pack todo =>
    have hpack := hok pack List.mem_cons_self
    obtain ⟨hbegin, hlt⟩ := h
    rw [packagToStr_eq hpack] at hbegin hlt
    exact scan_incomplete (by rw [NetPack.body_length, hpack.len_eq]) hpack.len_le hbegin hlt

/-- A packet as it arrives in the work queue. -/
def ReadBuf.arrived (buf : ReadBuf) (pack : NetPack) : MsgData :=
  { buf.msgOf pack.body with pack := pack }

/-- How a packet arrives depends on the connection only. -/
theorem ReadBuf.arrived_of_queue (buf : ReadBuf) (cache : Str) (queueWork : List MsgData) :
    ReadBuf.arrived { buf with cache := cache, queueWork := queueWork } = buf.arrived := rfl

/-- A whole frame at the front is taken off and pushed. -/
theorem ReadBuf.scan_frame (buf : ReadBuf) {pack : NetPack} (hpack : pack.WellFramed) (more : Str) :
    { buf with cache := packagToStr pack ++ more }.scan =
      { buf with cache := more, queueWork := buf.queueWork ++ [buf.arrived pack] }.scan := by
  have hframe : packagToStr pack ++ more = le32 pack.len ++ (pack.body ++ more) := by
    rw [packagToStr_eq hpack, List.append_assoc]
  have hbody : pack.body.length = pack.len.toNat := by
    rw [NetPack.body_length, hpack.len_eq]
  have htake : (pack.body ++ more).take pack.len.toNat = pack.body := List.take_left' hbody
  have hdrop : (pack.body ++ more).drop pack.len.toNat = more := List.drop_left' hbody
  have hdata : pack.body.take (pack.body.length - 4 * 3) = pack.data := by
    rw [NetPack.body_length, Nat.add_sub_cancel]
    simp [NetPack.body]
  have hsum : fromLe32 ((pack.body ++ more).drop (pack.body.length - 4 * 3)) = pack.checkSum := by
    rw [NetPack.body_length, Nat.add_sub_cancel]
    simp [NetPack.body]
  have hmsg : (ReadBuf.msgOf { buf with cache := more } pack.body) = buf.arrived pack := by
    simp [msgOf, arrived, apartPack_body hpack]
  have hwhole : 4 + pack.len.toNat ≤ (le32 pack.len ++ (pack.body ++ more)).length := by
    simp only [List.length_append, le32_length, hbody]
    omega
  have hnot : ¬ pack.body.length < 4 * 3 := by simp
  rw [hframe, scan, if_pos (by simp), fromLe32_le32_append]
  simp only [verifyCache_of_le _ hpack.len_le]
  rw [readLoop, if_pos hwhole]
  simp only [List.drop_left' (le32_length _), htake, hdrop, hdata, hsum, hnot, if_false,
    hpack.checkSum_eq, ne_eq, not_true, sendPkToMessQueue, hmsg]
  rw [scan]
  rcases Nat.lt_or_ge more.length 4 with hshort | hlong
  · rw [if_pos hshort, if_neg (Nat.not_le.mpr hshort)]
  · rw [if_neg (Nat.not_lt.mpr hlong), if_pos hlong]

/-- All whole frames at the front are taken off, in order, and the beginning of the next stays. -/
theorem ReadBuf.scan_frames {todo : List NetPack} {rest : Str} (h : Pending packagToStr todo rest) :
    ∀ (packs : List NetPack) (buf : ReadBuf), (∀ pack ∈ packs ++ todo, pack.WellFramed) →
      { buf with cache := packs.flatMap packagToStr ++ rest }.scan =
        (true, { buf with cache := rest, queueWork := buf.queueWork ++ packs.map buf.arrived }) := by
  intro packs
  induction packs with
  | nil =>
    intro buf hok
    have hscan : { buf with cache := rest }.scan = (true, { buf with cache := rest }) :=
      scan_pending hok h
    simpa using hscan
  | cons pack packs ih =>
    intro buf hok
    rw [List.flatMap_cons, List.append_assoc, scan_frame buf (hok pack List.mem_cons_self)]
    have hrest := ih { buf with queueWork := buf.queueWork ++ [buf.arrived pack] }
      fun p hp => hok p (List.mem_cons_of_mem _ hp)
    rw [arrived_of_queue buf buf.cache (buf.queueWork ++ [buf.arrived pack])] at hrest
    simpa using hrest

/-- Every list of packets made by `PackCommonMsg` and serialised by `PackagToStr` comes out of
    `AddDataToReadBuf` as it went in, however the bytes are cut into reads. -/
theorem addDataToReadBuf_feedAll (buf : ReadBuf) (hempty : buf.cache = [])
    (msgs : List (Str × Int8)) (hlen : ∀ msg ∈ msgs, msg.1.length + 12 ≤ 100 * 1000 * 1000)
    (chunks : List Str) (hne : ∀ chunk ∈ chunks, chunk ≠ [])
    (hcut : chunks.flatten = (msgs.map fun msg => packCommonMsg msg.1 msg.2).flatMap packagToStr) :
    let packs := msgs.map fun msg => packCommonMsg msg.1 msg.2
    let reads := feedAll ReadBuf.addDataToReadBuf buf chunks
    (∀ ret ∈ reads.1, ret = true) ∧ reads.2.cache = [] ∧
      reads.2.queueWork = buf.queueWork ++ packs.map buf.arrived ∧
      (∀ pack ∈ packs, (buf.arrived pack).pack = pack ∧ apartPack (buf.arrived pack).data = some pack) := by
  intro packs reads
  have hok : ∀ pack ∈ packs, pack.WellFramed := by
    intro pack hpack
    obtain ⟨msg, hmsg, rfl⟩ := List.mem_map.mp hpack
    exact packCommonMsg_wellFramed msg.2 (hlen msg hmsg)
  -- between two reads the cache holds the beginning of the next frame
  let At : ReadBuf → List NetPack → Str → Prop := fun s done rest =>
    s = { buf with cache := rest, queueWork := buf.queueWork ++ done.map buf.arrived }
  have hread : ∀ {s done more todo rest rest' chunk}, (∀ f ∈ more ++ todo, NetPack.WellFramed f) →
      chunk ≠ [] → rest ++ chunk = more.flatMap packagToStr ++ rest' →
      Pending packagToStr todo rest' → At s done rest →
      (s.addDataToReadBuf chunk).1 = true ∧ At (s.addDataToReadBuf chunk).2 (done ++ more) rest' := by
    rintro s done more todo rest rest' chunk hmore hchunk hbytes hpending rfl
    rw [ReadBuf.addDataToReadBuf_eq_scan _ hchunk]
    simp only [hbytes]
    have hscan := ReadBuf.scan_frames hpending more
      { buf with queueWork := buf.queueWork ++ done.map buf.arrived } hmore
    simp only at hscan
    rw [hscan]
    refine ⟨rfl, ?_⟩
    simp [At, ReadBuf.arrived_of_queue]
  have hstart : Pending packagToStr packs [] := by
    cases hpacks : packs with
    | nil => rfl
    | cons pack rest =>
      refine ⟨List.nil_prefix, ?_⟩
      rw [packagToStr_eq (hok pack (hpacks ▸ List.mem_cons_self))]
      simp
  obtain ⟨hall, hend⟩ := feedAll_frames hread chunks hok hne hcut hstart
    (show At buf [] [] by simp [At, ← hempty])
  have hlast : reads.2 = { buf with cache := [], queueWork := buf.queueWork ++ packs.map buf.arrived } :=
    hend
  refine ⟨hall, by rw [hlast], by rw [hlast], ?_⟩
  intro pack hpack
  exact ⟨rfl, apartPack_body (hok pack hpack)⟩

/-- Two packets, cut inside the first length and inside the second checksum. -/
theorem addDataToReadBuf_feedAll_threeReads :
    let packs := [packCommonMsg [1, 2, 3] 5, packCommonMsg [] 0]
    let stream := packs.flatMap packagToStr
    let buf : ReadBuf := { fd := 7, portAndIp := 1, cache := [], queueWork := [] }
    let reads := feedAll ReadBuf.addDataToReadBuf buf
      [stream.take 2, (stream.drop 2).take 22, stream.drop 24]
    (∀ ret ∈ reads.1, ret = true) ∧ reads.2.cache = [] ∧ reads.2.queueWork.map (·.pack) = packs := by
  intro packs stream buf reads
  obtain ⟨hret, hcache, hqueue, -⟩ := addDataToReadBuf_feedAll buf rfl [([1, 2, 3], 5), ([], 0)]
    (by decide) [stream.take 2, (stream.drop 2).take 22, stream.drop 24] (by decide) (by decide)
  refine ⟨hret, hcache, ?_⟩
  rw [hqueue]
  rfl

end Tfs.Net
