import Tfs.Net.SocketBuf

/-! What the reader of frames reads, what it lets through, and how it finds its place again
    (`AddDataToReadBuf`, `VerifyCache` and `CorrectCache` in `net/socket_buf.cpp`).

    Behind a frame with a wrong checksum the reader drops everything up to the next end flag and
    ends the call. What is in the cache behind the flag is looked at when more bytes have come in.
    -/

namespace Tfs.Net

open Tfs.Framing

/-! ### Sound messages -/

/-- The data of a message ends with the three words, and the first of them is its checksum. -/
def SoundMsg (msg : MsgData) : Prop :=
  12 ≤ msg.data.length ∧
    adler32 (msg.data.take (msg.data.length - 12)) = fromLe32 (msg.data.drop (msg.data.length - 12))

/-- The first four bytes decide, also where the rest is cut off. -/
theorem fromLe32_take {bytes : Str} {n : ℕ} (hn : 4 ≤ n) (hbytes : 4 ≤ bytes.length) :
    fromLe32 (bytes.take n) = fromLe32 bytes := by
  rw [← fromLe32_append (by rw [List.length_take]; omega) (bytes.drop n), List.take_append_drop]

/-- A frame that has passed the two checks of the loop is sound. -/
theorem soundMsg_msgOf (buf : ReadBuf) {cache : Str} {currMsgLen : ℕ}
    (hlong : ¬ (cache.take currMsgLen).length < 4 * 3)
    (hsum : adler32 ((cache.take currMsgLen).take ((cache.take currMsgLen).length - 4 * 3)) =
      fromLe32 (cache.drop ((cache.take currMsgLen).length - 4 * 3))) :
    SoundMsg (buf.msgOf (cache.take currMsgLen)) := by
  have hlen := Nat.not_lt.mp hlong
  refine ⟨hlen, hsum.trans ?_⟩
  change _ = fromLe32 ((cache.take currMsgLen).drop ((cache.take currMsgLen).length - 4 * 3))
  rw [List.length_take] at hlen ⊢
  -- the checksum lies within the frame, so the cache and the frame have the same word there
  calc fromLe32 (cache.drop (min currMsgLen cache.length - 4 * 3))
      = fromLe32 ((cache.drop (min currMsgLen cache.length - 4 * 3)).take
          (currMsgLen - (min currMsgLen cache.length - 4 * 3))) :=
        (fromLe32_take (by omega) (by rw [List.length_drop]; omega)).symm
    _ = fromLe32 ((cache.take currMsgLen).drop (min currMsgLen cache.length - 4 * 3)) := by
        rw [List.drop_take]

/-- Pushing one sound message adds nothing but a sound message. -/
theorem ReadBuf.mem_sendPkToMessQueue {buf : ReadBuf} {data : Str} (hsound : SoundMsg (buf.msgOf data))
    {msg : MsgData}
    (hmsg : msg ∈ (buf.sendPkToMessQueue data).queueWork) : msg ∈ buf.queueWork ∨ SoundMsg msg := by
  rw [sendPkToMessQueue, List.mem_append, List.mem_singleton] at hmsg
  rcases hmsg with hold | rfl
  · exact .inl hold
  · exact .inr hsound

/-- What the loop pushes is sound. -/
theorem ReadBuf.readLoop_sound (buf : ReadBuf) (currMsgLen : ℕ) :
    ∀ msg ∈ (buf.readLoop currMsgLen).2.queueWork, msg ∈ buf.queueWork ∨ SoundMsg msg := by
  induction buf, currMsgLen using ReadBuf.readLoop.induct with
  | case1 buf currMsgLen hwhole cache readData hshort =>
    rw [readLoop, if_pos hwhole]
    dsimp only
    rw [if_pos hshort]
    exact fun msg hmsg => .inl hmsg
  | case2 buf currMsgLen hwhole cache readData hlong checkSum packCheckSum hsum =>
    rw [readLoop, if_pos hwhole]
    dsimp only
    rw [if_neg hlong, if_pos hsum]
    exact fun msg hmsg => .inl hmsg
  | case3 buf currMsgLen hwhole cache readData hlong checkSum packCheckSum hsum next hfew =>
    rw [readLoop, if_pos hwhole]
    dsimp only
    rw [if_neg hlong, if_neg hsum, if_pos hfew]
    exact fun msg => mem_sendPkToMessQueue (soundMsg_msgOf _ hlong (not_not.mp hsum))
  | case4 buf currMsgLen hwhole cache readData hlong checkSum packCheckSum hsum next hmore nextLen ih =>
    rw [readLoop, if_pos hwhole]
    dsimp only
    rw [if_neg hlong, if_neg hsum, if_neg hmore]
    intro msg hmsg
    rcases ih msg hmsg with hnext | hsound
    · exact mem_sendPkToMessQueue (soundMsg_msgOf _ hlong (not_not.mp hsum)) hnext
    · exact .inr hsound
  | case5 buf currMsgLen hpart =>
    rw [readLoop, if_neg hpart]
    exact fun msg hmsg => .inl hmsg

/-! ### Reads in bounds -/

/-- A read of so many bytes, from an offset in a buffer of some size. -/
structure Access where
  offset : ℕ
  width : ℕ
  size : ℕ

/-- The read does not go past the end of the buffer. -/
def Access.InBounds (a : Access) : Prop := a.offset + a.width ≤ a.size

/-- The words that `CorrectCache` reads, up to the first that is the end flag. -/
def searchReads (cache : Str) : List ℕ → List Access
  | [] => []
  | i :: rest => ⟨i, 4, cache.length⟩ :: if fromLe32 (cache.drop i) == END_FLAG then []
    else searchReads cache rest

/-- The reads of `CorrectCache`. -/
def correctCacheReads (cache : Str) : List Access :=
  if cache.length < 4 then [] else searchReads cache (List.range (cache.length - 4 + 1))

/-- The reads of `VerifyCache`. -/
def verifyCacheReads (cache : Str) (currMsgLen : ℕ) : List Access :=
  if currMsgLen > 100 * 1000 * 1000 then correctCacheReads cache else []

/-- The reads of `ApartPack`. -/
def apartPackReads (pack : Str) : List Access :=
  if pack.length < 12 then []
  else [⟨0, pack.length - 12, pack.length⟩, ⟨pack.length - 12, 4, pack.length⟩,
    ⟨pack.length - 12 + 4, 4, pack.length⟩, ⟨pack.length - 12 + 4 + 4, 4, pack.length⟩]

/-- The reads of the loop of `AddDataToReadBuf`, round by round as in the loop itself. -/
def ReadBuf.readLoopReads (buf : ReadBuf) (currMsgLen : ℕ) : List Access :=
  if 4 + currMsgLen ≤ buf.cache.length then
    let cache := buf.cache.drop 4
    let readData := cache.take currMsgLen
    ⟨0, currMsgLen, cache.length⟩ ::
      if readData.length < 4 * 3 then correctCacheReads cache
      else
        let checkSum := adler32 (readData.take (readData.length - 4 * 3))
        let packCheckSum := fromLe32 (cache.drop (readData.length - 4 * 3))
        ⟨0, readData.length - 4 * 3, readData.length⟩ :: ⟨readData.length - 4 * 3, 4, cache.length⟩ ::
          if checkSum ≠ packCheckSum then correctCacheReads cache
          else
            let buf := { buf with cache := cache.drop currMsgLen }.sendPkToMessQueue readData
            apartPackReads readData ++
              if buf.cache.length < 4 then []
              else
                let currMsgLen := (fromLe32 buf.cache).toNat
                ⟨0, 4, buf.cache.length⟩ :: verifyCacheReads buf.cache currMsgLen ++
                  { buf with cache := verifyCache buf.cache currMsgLen }.readLoopReads currMsgLen
  else []
termination_by buf.cache.length
decreasing_by
  refine lt_of_le_of_lt (verifyCache_length_le _ _) ?_
  simp only [ReadBuf.sendPkToMessQueue, List.length_drop]
  omega

/-- The reads of `AddDataToReadBuf`. -/
def ReadBuf.addDataReads (buf : ReadBuf) (data : Str) : List Access :=
  if data.isEmpty then []
  else
    let buf := { buf with cache := buf.cache ++ data }
    if 4 ≤ buf.cache.length then
      let currMsgLen := (fromLe32 buf.cache).toNat
      ⟨0, 4, buf.cache.length⟩ :: verifyCacheReads buf.cache currMsgLen ++
        { buf with cache := verifyCache buf.cache currMsgLen }.readLoopReads currMsgLen
    else []

theorem searchReads_inBounds {cache : Str} : ∀ {indices : List ℕ}, (∀ i ∈ indices, i + 4 ≤ cache.length) →
    ∀ a ∈ searchReads cache indices, a.InBounds
  | [], _, a, ha => by cases ha
  | i :: rest, h, a, ha => by
    obtain ⟨hi, hrest⟩ := List.forall_mem_cons.mp h
    rw [searchReads] at ha
    rcases List.mem_cons.mp ha with rfl | ha
    · exact hi
    · split_ifs at ha
      · cases ha
      · exact searchReads_inBounds hrest a ha

theorem correctCacheReads_inBounds (cache : Str) : ∀ a ∈ correctCacheReads cache, a.InBounds := by
  rw [correctCacheReads]
  split_ifs with hshort
  · exact nofun
  · refine searchReads_inBounds fun i hi => ?_
    rw [List.mem_range] at hi
    omega

theorem verifyCacheReads_inBounds (cache : Str) (currMsgLen : ℕ) :
    ∀ a ∈ verifyCacheReads cache currMsgLen, a.InBounds := by
  rw [verifyCacheReads]
  split_ifs
  · exact correctCacheReads_inBounds cache
  · exact nofun

theorem apartPackReads_inBounds (pack : Str) : ∀ a ∈ apartPackReads pack, a.InBounds := by
  rw [apartPackReads]
  split_ifs with hshort
  · exact nofun
  · simp only [List.forall_mem_cons, Access.InBounds]
    refine ⟨?_, ?_, ?_, ?_, nofun⟩ <;> omega

section Round

variable {cache : Str} {currMsgLen : ℕ}

theorem frame_inBounds (hwhole : 4 + currMsgLen ≤ cache.length) :
    Access.InBounds ⟨0, currMsgLen, (cache.drop 4).length⟩ := by
  rw [Access.InBounds, List.length_drop]
  dsimp only
  omega

theorem data_inBounds (readData : Str) : Access.InBounds ⟨0, readData.length - 4 * 3, readData.length⟩ := by
  rw [Access.InBounds]
  dsimp only
  omega

theorem checkSum_inBounds (hlong : ¬ (cache.take currMsgLen).length < 4 * 3) :
    Access.InBounds ⟨(cache.take currMsgLen).length - 4 * 3, 4, cache.length⟩ := by
  rw [Access.InBounds]
  rw [List.length_take] at hlong ⊢
  dsimp only
  omega

end Round

/-- No read of the loop goes past the end of its buffer. -/
theorem ReadBuf.readLoopReads_inBounds (buf : ReadBuf) (currMsgLen : ℕ) :
    ∀ a ∈ buf.readLoopReads currMsgLen, a.InBounds := by
  induction buf, currMsgLen using ReadBuf.readLoop.induct with
  | case1 buf currMsgLen hwhole cache readData hshort =>
    rw [readLoopReads, if_pos hwhole]
    dsimp only
    rw [if_pos hshort]
    exact List.forall_mem_cons.mpr ⟨frame_inBounds hwhole, correctCacheReads_inBounds _⟩
  | case2 buf currMsgLen hwhole cache readData hlong checkSum packCheckSum hsum =>
    rw [readLoopReads, if_pos hwhole]
    dsimp only
    rw [if_neg hlong, if_pos hsum]
    exact List.forall_mem_cons.mpr ⟨frame_inBounds hwhole,
      List.forall_mem_cons.mpr ⟨data_inBounds _,
        List.forall_mem_cons.mpr ⟨checkSum_inBounds hlong, correctCacheReads_inBounds _⟩⟩⟩
  | case3 buf currMsgLen hwhole cache readData hlong checkSum packCheckSum hsum next hfew =>
    rw [readLoopReads, if_pos hwhole]
    dsimp only
    rw [if_neg hlong, if_neg hsum, if_pos hfew, List.append_nil]
    exact List.forall_mem_cons.mpr ⟨frame_inBounds hwhole,
      List.forall_mem_cons.mpr ⟨data_inBounds _,
        List.forall_mem_cons.mpr ⟨checkSum_inBounds hlong, apartPackReads_inBounds _⟩⟩⟩
  | case4 buf currMsgLen hwhole cache readData hlong checkSum packCheckSum hsum next hmore nextLen ih =>
    rw [readLoopReads, if_pos hwhole]
    dsimp only
    rw [if_neg hlong, if_neg hsum, if_neg hmore]
    have hlength : Access.InBounds ⟨0, 4, next.cache.length⟩ := (Nat.zero_add 4).symm ▸ Nat.not_lt.mp hmore
    have hround := List.forall_mem_append.mpr ⟨verifyCacheReads_inBounds next.cache nextLen, ih⟩
    exact List.forall_mem_cons.mpr ⟨frame_inBounds hwhole,
      List.forall_mem_cons.mpr ⟨data_inBounds _,
        List.forall_mem_cons.mpr ⟨checkSum_inBounds hlong,
          List.forall_mem_append.mpr ⟨apartPackReads_inBounds _,
            List.forall_mem_cons.mpr ⟨hlength, hround⟩⟩⟩⟩⟩
  | case5 buf currMsgLen hpart =>
    rw [readLoopReads, if_neg hpart]
    exact nofun

/-! ### Finding the place again -/

/-- A body behind its length. -/
def frameOf (body : Str) : Str := le32 (UInt32.ofNat body.length) ++ body

/-- The end flag stands at the end of these bytes and nowhere else in them. -/
def OnlyFlagIsLast (bytes : Str) : Prop :=
  ∀ i, i + 4 ≤ bytes.length → (fromLe32 (bytes.drop i) = END_FLAG ↔ i + 4 = bytes.length)

/-- The body of a frame that has its length intact, its flag at the end only, and a wrong checksum. -/
structure Damaged (body : Str) : Prop where
  length_ge : 12 ≤ body.length
  length_lt : body.length < 2 ^ 32
  checkSum_ne : adler32 (body.take (body.length - 12)) ≠ fromLe32 (body.drop (body.length - 12))
  flag_last : OnlyFlagIsLast (frameOf body)

/-- A word that is the end flag has its bytes. -/
theorem take_of_fromLe32_eq {bytes : Str} (hlen : 4 ≤ bytes.length) (h : fromLe32 bytes = END_FLAG) :
    bytes.take 4 = [0xF1, 0xAD, 0x76, 0x00] := by
  rw [take_eq_le32 hlen, h]
  rfl

/-- Behind bytes without the flag's first byte, the flag is the only one. -/
theorem onlyFlagIsLast_of_notMem {front : Str} (h : 0xF1 ∉ front) :
    OnlyFlagIsLast (front ++ [0xF1, 0xAD, 0x76, 0x00]) := by
  intro i hi
  rw [List.length_append] at hi ⊢
  constructor
  · intro hflag
    have htake := take_of_fromLe32_eq (by rw [List.length_drop, List.length_append]; omega) hflag
    have hfirst : (front ++ [0xF1, 0xAD, 0x76, 0x00])[i]? = some 0xF1 := by
      calc (front ++ [0xF1, 0xAD, 0x76, 0x00])[i]?
          = (((front ++ [0xF1, 0xAD, 0x76, 0x00]).drop i).take 4)[0]? := by
            rw [List.getElem?_take_of_lt (by decide), List.getElem?_drop, Nat.add_zero]
        _ = some 0xF1 := by rw [htake]; rfl
    rcases Nat.lt_or_ge i front.length with hbefore | hbehind
    · rw [List.getElem?_append_left hbefore] at hfirst
      exact absurd (List.mem_of_getElem? hfirst) h
    · exact le_antisymm hi (Nat.add_le_add_right hbehind 4)
  · intro hlast
    rw [List.drop_left' (Nat.add_right_cancel hlast).symm]
    rfl

/-- What a stream is made of. -/
inductive StreamFrame where
  | good (pack : NetPack)
  | damaged (body : Str)

/-- The bytes of a frame. -/
def StreamFrame.bytes : StreamFrame → Str
  | .good pack => packagToStr pack
  | .damaged body => frameOf body

/-- The packets to be delivered. -/
def StreamFrame.pack? : StreamFrame → Option NetPack
  | .good pack => some pack
  | .damaged _ => none

/-- A valid frame, or a damaged one whose body is at most so long. -/
def StreamFrame.Within (limit : ℕ) : StreamFrame → Prop
  | .good pack => pack.WellFramed
  | .damaged body => Damaged body ∧ body.length ≤ limit

/-- `CorrectCache` drops a damaged body and nothing else. -/
theorem correctCache_damaged {body : Str} (hbody : Damaged body) (more : Str) :
    correctCache (body ++ more) = more := by
  have hge := hbody.length_ge
  have hword : ∀ i, i + 4 ≤ body.length → (fromLe32 ((body ++ more).drop i) = END_FLAG ↔
    i + 4 = body.length) := by
    intro i hi
    have hflag := hbody.flag_last (4 + i) (by rw [frameOf, List.length_append, le32_length]; omega)
    rw [frameOf, ← List.drop_drop, List.drop_left' (le32_length _), List.length_append, le32_length] at hflag
    rw [List.drop_append_of_le_length (by omega), fromLe32_append (by rw [List.length_drop]; omega), hflag]
    omega
  have hfind : ((List.range ((body ++ more).length - 4 + 1)).find?
      fun i => fromLe32 ((body ++ more).drop i) == END_FLAG) = some (body.length - 4) := by
    rw [List.find?_range_eq_some]
    refine ⟨?_, ?_, ?_⟩
    · rw [beq_iff_eq, hword _ (by omega)]
      omega
    · rw [List.mem_range, List.length_append]
      omega
    · intro j hj
      rw [Bool.not_eq_true', beq_eq_false_iff_ne, Ne, hword j (by omega)]
      omega
  rw [correctCache, if_neg (by rw [List.length_append]; omega), hfind]
  exact List.drop_left' (by omega)

/-- A damaged frame at the front is taken off, and ends the call. -/
theorem ReadBuf.scan_damaged (buf : ReadBuf) {body : Str} (hbody : Damaged body)
    (hle : body.length ≤ 100 * 1000 * 1000) (more : Str) :
    { buf with cache := frameOf body ++ more }.scan = (false, { buf with cache := more }) := by
  have hlen : (UInt32.ofNat body.length).toNat = body.length := by
    rw [UInt32.toNat_ofNat']
    exact Nat.mod_eq_of_lt hbody.length_lt
  have hge := hbody.length_ge
  have htake : (body ++ more).take body.length = body := List.take_left' rfl
  have hsum : fromLe32 ((body ++ more).drop (body.length - 4 * 3)) =
    fromLe32 (body.drop (body.length - 12)) := by
    rw [List.drop_append_of_le_length (by omega), fromLe32_append (by rw [List.length_drop]; omega)]
  have hwhole : 4 + body.length ≤ (le32 (UInt32.ofNat body.length) ++ (body ++ more)).length := by
    simp only [List.length_append, le32_length]
    omega
  rw [frameOf, List.append_assoc, scan, if_pos (by simp), fromLe32_le32_append]
  simp only [hlen, verifyCache_of_le _ hle]
  rw [readLoop, if_pos hwhole]
  simp only [List.drop_left' (le32_length _), htake, hsum]
  rw [if_neg (by omega), if_pos hbody.checkSum_ne, correctCache_damaged hbody]

/-- Every frame is a length and a body that the reader waits for. -/
theorem StreamFrame.bytes_eq : ∀ {f : StreamFrame}, f.Within (100 * 1000 * 1000) →
    ∃ (len : UInt32) (body : Str), f.bytes = le32 len ++ body ∧ len.toNat = body.length ∧
      len.toNat ≤ 100 * 1000 * 1000
  | .good pack, hpack => by
    refine ⟨pack.len, pack.body, packagToStr_eq hpack, ?_, hpack.len_le⟩
    rw [NetPack.body_length, hpack.len_eq]
  | .damaged body, ⟨hbody, hle⟩ => by
    have hlen : (UInt32.ofNat body.length).toNat = body.length := by
      rw [UInt32.toNat_ofNat']
      exact Nat.mod_eq_of_lt hbody.length_lt
    exact ⟨UInt32.ofNat body.length, body, rfl, hlen, hlen.le.trans hle⟩

theorem ReadBuf.scan_pendingFrame {buf : ReadBuf} {todo : List StreamFrame}
    (hok : ∀ f ∈ todo, f.Within (100 * 1000 * 1000)) (h : Pending StreamFrame.bytes todo buf.cache) :
    buf.scan = (true, buf) := by
  cases todo with
  | nil =>
    have hnil : buf.cache = [] := h
    simp [scan, hnil]
  | cons f todo =>
    obtain ⟨len, body, hbytes, hlen, hle⟩ := StreamFrame.bytes_eq (hok f List.mem_cons_self)
    obtain ⟨hbegin, hlt⟩ := h
    rw [hbytes] at hbegin hlt
    exact scan_incomplete hlen hle hbegin hlt

/-- The whole frames in the cache are taken off up to the first damaged one. Where the call does not
    end with `false`, all of them are. -/
theorem ReadBuf.scan_stream {todo : List StreamFrame} {rest : Str} (h : Pending StreamFrame.bytes todo rest) :
    ∀ (frames : List StreamFrame) (buf : ReadBuf), (∀ f ∈ frames ++ todo, f.Within (100 * 1000 * 1000)) →
      ∃ front back, frames = front ++ back ∧
        { buf with cache := frames.flatMap StreamFrame.bytes ++ rest }.scan.2 =
          { buf with cache := back.flatMap StreamFrame.bytes ++ rest
                     queueWork := buf.queueWork ++ (front.filterMap StreamFrame.pack?).map buf.arrived } ∧
        ({ buf with cache := frames.flatMap StreamFrame.bytes ++ rest }.scan.1 = true → back = []) := by
  intro frames
  induction frames with
  | nil =>
    intro buf hok
    have hscan : { buf with cache := rest }.scan = (true, { buf with cache := rest }) :=
      scan_pendingFrame hok h
    refine ⟨[], [], rfl, ?_, fun _ => rfl⟩
    simpa using congrArg Prod.snd hscan
  | cons f frames ih =>
    intro buf hok
    have hf := hok f List.mem_cons_self
    rw [List.flatMap_cons, List.append_assoc]
    cases f with
    | good pack =>
      rw [StreamFrame.bytes, scan_frame buf hf]
      obtain ⟨front, back, rfl, hbuf, hret⟩ :=
        ih { buf with queueWork := buf.queueWork ++ [buf.arrived pack] }
        fun f hf => hok f (List.mem_cons_of_mem _ hf)
      refine ⟨.good pack :: front, back, rfl, ?_, hret⟩
      rw [hbuf, arrived_of_queue buf buf.cache (buf.queueWork ++ [buf.arrived pack])]
      simp [StreamFrame.pack?]
    | damaged body =>
      rw [StreamFrame.bytes, scan_damaged buf hf.1 hf.2]
      refine ⟨[.damaged body], frames, rfl, ?_, nofun⟩
      simp [StreamFrame.pack?]

/-- Between two reads: the frames `front` are dealt with, the frames `back` are in the cache behind
    a damaged one, and the beginning of the next frame is behind them. -/
def InStream (buf : ReadBuf) (all : List StreamFrame) (ret : Bool) (got : Str) (s : ReadBuf) : Prop :=
  ∃ front back todo rest, all = front ++ back ++ todo ∧
    got = (front ++ back).flatMap StreamFrame.bytes ++ rest ∧ Pending StreamFrame.bytes todo rest ∧
    s = { buf with cache := back.flatMap StreamFrame.bytes ++ rest
                   queueWork := buf.queueWork ++ (front.filterMap StreamFrame.pack?).map buf.arrived } ∧
    (ret = true → back = [])

/-- Every read keeps the place in the stream. -/
theorem addDataToReadBuf_inStream {buf : ReadBuf} {all : List StreamFrame}
    (hok : ∀ f ∈ all, f.Within (100 * 1000 * 1000))
    {ret : Bool} {got chunk : Str} {s : ReadBuf} (hne : chunk ≠ [])
    (hbytes : got ++ chunk <+: all.flatMap StreamFrame.bytes)
    (h : InStream buf all ret got s) :
    InStream buf all (s.addDataToReadBuf chunk).1 (got ++ chunk) (s.addDataToReadBuf chunk).2 := by
  obtain ⟨front, back, todo, rest, rfl, rfl, -, rfl, -⟩ := h
  have harrived : rest ++ chunk <+: todo.flatMap StreamFrame.bytes := by
    simp only [List.flatMap_append, List.append_assoc] at hbytes
    exact (List.prefix_append_right_inj _).mp ((List.prefix_append_right_inj _).mp hbytes)
  obtain ⟨more, todo', rest', rfl, hsplit, hpending⟩ := exists_pending StreamFrame.bytes todo harrived
  have hcache : back.flatMap StreamFrame.bytes ++ rest ++ chunk =
    (back ++ more).flatMap StreamFrame.bytes ++ rest' := by
    rw [List.append_assoc, hsplit, List.flatMap_append, List.append_assoc]
  have hframes : ∀ f ∈ (back ++ more) ++ todo', f.Within (100 * 1000 * 1000) := by
    intro f hf
    refine hok f ?_
    rw [List.append_assoc front, ← List.append_assoc back]
    exact List.mem_append_right _ hf
  obtain ⟨front', back', hparts, hbuf, hret⟩ := ReadBuf.scan_stream hpending (back ++ more)
    { buf with queueWork := buf.queueWork ++ (front.filterMap StreamFrame.pack?).map buf.arrived } hframes
  rw [ReadBuf.addDataToReadBuf_eq_scan _ hne]
  dsimp only
  rw [hcache]
  refine ⟨front ++ front', back', todo', rest', ?_, ?_, hpending, ?_, hret⟩
  · rw [List.append_assoc front front', ← hparts]
    simp only [List.append_assoc]
  · rw [List.append_assoc front front', ← hparts]
    simp only [List.flatMap_append, List.append_assoc, hsplit]
  · rw [hbuf, List.filterMap_append, List.map_append, ← List.append_assoc]
    rfl

/-- Where the stream is made of valid frames and of damaged ones that are at most so long, and the
    last call has not returned `false`, the valid frames that have arrived are pushed, once and in
    order, and nothing else. -/
def DeliversValid (limit : ℕ) (buf : ReadBuf) (chunks : List Str) : Prop :=
  ∀ all : List StreamFrame, (∀ f ∈ all, f.Within limit) → chunks.flatten <+: all.flatMap StreamFrame.bytes →
    (feedAll ReadBuf.addDataToReadBuf buf chunks).1.getLastD true = true →
    ∃ arrived todo rest, all = arrived ++ todo ∧ chunks.flatten = arrived.flatMap StreamFrame.bytes ++ rest ∧
      Pending StreamFrame.bytes todo rest ∧
      (feedAll ReadBuf.addDataToReadBuf buf chunks).2.queueWork =
        buf.queueWork ++ (arrived.filterMap StreamFrame.pack?).map buf.arrived

theorem pending_nil : ∀ {all : List StreamFrame}, (∀ f ∈ all, f.Within (100 * 1000 * 1000)) →
    Pending StreamFrame.bytes all []
  | [], _ => rfl
  | f :: _, hok => by
    obtain ⟨len, body, hbytes, -, -⟩ := StreamFrame.bytes_eq (hok f List.mem_cons_self)
    refine ⟨List.nil_prefix, ?_⟩
    rw [hbytes, List.length_append, le32_length]
    exact Nat.add_pos_left (by decide) _

theorem deliversValid_of_empty {buf : ReadBuf} (hempty : buf.cache = []) {chunks : List Str}
    (hne : ∀ chunk ∈ chunks, chunk ≠ []) :
    DeliversValid (100 * 1000 * 1000) buf chunks := by
  intro all hok hbytes hlast
  have hstart : InStream buf all true [] buf := by
    refine ⟨[], [], all, [], rfl, rfl, pending_nil hok, ?_, fun _ => rfl⟩
    change buf = { buf with cache := [], queueWork := buf.queueWork ++ [] }
    rw [List.append_nil, ← hempty]
  obtain ⟨front, back, todo, rest, hall, hgot, hpending, hstate, hback⟩ :=
    feedAll_keeps (addDataToReadBuf_inStream hok) chunks hne hbytes hstart
  obtain rfl := hback hlast
  rw [List.append_nil] at hall hgot
  exact ⟨front, todo, rest, hall, hgot, hpending, congrArg ReadBuf.queueWork hstate⟩


/-! ### A whole run -/

/-- The reads of a run. -/
def ReadBuf.feedReads : ReadBuf → List Str → List Access
  | _, [] => []
  | buf, chunk :: chunks => buf.addDataReads chunk ++ (buf.addDataToReadBuf chunk).2.feedReads chunks

theorem ReadBuf.addDataReads_inBounds (buf : ReadBuf) (data : Str) : ∀ a ∈ buf.addDataReads data,
    a.InBounds := by
  rw [addDataReads]
  dsimp only
  split_ifs with hempty hword
  · exact nofun
  · refine List.forall_mem_cons.mpr ⟨(Nat.zero_add 4).symm ▸ hword, ?_⟩
    exact List.forall_mem_append.mpr ⟨verifyCacheReads_inBounds _ _, readLoopReads_inBounds _ _⟩
  · exact nofun

theorem ReadBuf.feedReads_inBounds (chunks : List Str) : ∀ buf : ReadBuf, ∀ a ∈ buf.feedReads chunks,
    a.InBounds := by
  induction chunks with
  | nil => exact fun _ => nofun
  | cons chunk chunks ih =>
    intro buf
    rw [feedReads]
    exact List.forall_mem_append.mpr ⟨buf.addDataReads_inBounds chunk, ih _⟩

/-- A call pushes sound messages only. -/
theorem ReadBuf.addDataToReadBuf_sound (buf : ReadBuf) (data : Str) :
    ∀ msg ∈ (buf.addDataToReadBuf data).2.queueWork, msg ∈ buf.queueWork ∨ SoundMsg msg := by
  rw [addDataToReadBuf]
  split_ifs with hempty
  · exact fun msg hmsg => .inl hmsg
  · dsimp only
    split_ifs with hword
    · exact readLoop_sound _ _
    · exact fun msg hmsg => .inl hmsg

theorem ReadBuf.feedAll_sound (buf : ReadBuf) {chunks : List Str} (hne : ∀ chunk ∈ chunks, chunk ≠ []) :
    ∀ msg ∈ (feedAll addDataToReadBuf buf chunks).2.queueWork, msg ∈ buf.queueWork ∨ SoundMsg msg := by
  refine @feedAll_keeps _ _ addDataToReadBuf (fun _ _ s => ∀ msg ∈ s.queueWork, msg ∈ buf.queueWork ∨
    SoundMsg msg)
    chunks.flatten ?_ chunks true [] buf hne List.prefix_rfl fun msg hmsg => .inl hmsg
  intro _ _ s chunk _ _ hs msg hmsg
  rcases s.addDataToReadBuf_sound chunk msg hmsg with hold | hsound
  · exact hs msg hold
  · exact .inr hsound

/-- Whatever comes in and however it is cut: what is pushed is sound and no read leaves its buffer.
    A damaged frame within the length that `VerifyCache` lets pass costs only itself. -/
theorem addDataToReadBuf_resynchronises {buf : ReadBuf} (hempty : buf.cache = []) {chunks : List Str}
    (hne : ∀ chunk ∈ chunks, chunk ≠ []) :
    (∀ msg ∈ (feedAll ReadBuf.addDataToReadBuf buf chunks).2.queueWork, msg ∈ buf.queueWork ∨ SoundMsg msg) ∧
      (∀ a ∈ buf.feedReads chunks, a.InBounds) ∧ DeliversValid (100 * 1000 * 1000) buf chunks :=
  ⟨buf.feedAll_sound hne, buf.feedReads_inBounds chunks, deliversValid_of_empty hempty hne⟩

/-- A damaged frame and a packet behind it, cut inside the packet: the first call is rejected, the
    second pushes the packet. -/
theorem addDataToReadBuf_resynchronises_twoReads :
    let body := List.replicate 8 0 ++ le32 END_FLAG
    let pack := packCommonMsg [1, 2, 3] 5
    let buf : ReadBuf := { fd := 7, portAndIp := 1, cache := [], queueWork := [] }
    let chunks := [frameOf body ++ (packagToStr pack).take 2, (packagToStr pack).drop 2]
    (feedAll ReadBuf.addDataToReadBuf buf chunks).2.queueWork.map (·.pack) = [pack] := by
  intro body pack buf chunks
  have hframe : frameOf body = ([12, 0, 0, 0] ++ List.replicate 8 0) ++ [0xF1, 0xAD, 0x76, 0x00] := by decide
  have hflag : OnlyFlagIsLast (frameOf body) := by
    rw [hframe]
    exact onlyFlagIsLast_of_notMem (by decide)
  have hbody : Damaged body := ⟨by decide, by decide, by decide, hflag⟩
  have hpack : pack.WellFramed := packCommonMsg_wellFramed 5 (by decide)
  have hok : ∀ f ∈ [StreamFrame.damaged body, .good pack], f.Within (100 * 1000 * 1000) := by
    refine List.forall_mem_cons.mpr ⟨⟨hbody, by decide⟩, List.forall_mem_singleton.mpr hpack⟩
  have hfirst : buf.addDataToReadBuf (frameOf body ++ (packagToStr pack).take 2) =
      (false, { buf with cache := (packagToStr pack).take 2 }) := by
    rw [ReadBuf.addDataToReadBuf_eq_scan _ (by decide)]
    exact buf.scan_damaged hbody (by decide) _
  have hsecond : (ReadBuf.addDataToReadBuf { buf with cache := (packagToStr pack).take 2 }
      ((packagToStr pack).drop 2)).1 = true := by
    rw [ReadBuf.addDataToReadBuf_eq_scan _ (by decide)]
    dsimp only
    rw [List.take_append_drop, ← List.append_nil (packagToStr pack), ReadBuf.scan_frame buf hpack]
    rfl
  have hbytes : chunks.flatten = [StreamFrame.damaged body, .good pack].flatMap StreamFrame.bytes := by
    simp [chunks, StreamFrame.bytes]
  have hlast : (feedAll ReadBuf.addDataToReadBuf buf chunks).1.getLastD true = true := by
    simp only [chunks, feedAll, hfirst, hsecond, List.getLastD]
    rfl
  obtain ⟨arrived, todo, rest, hall, hgot, hpending, hqueue⟩ :=
    (@addDataToReadBuf_resynchronises buf rfl chunks (by decide)).2.2 _ hok (hbytes ▸ List.prefix_rfl) hlast
  rw [hbytes, hall, List.flatMap_append] at hgot
  obtain rfl := List.append_cancel_left hgot
  obtain rfl := eq_nil_of_pending StreamFrame.bytes hpending
  rw [List.append_nil] at hall
  rw [hqueue, ← hall]
  rfl

/-! ### A frame over the limit -/

/-- Zeros and the end flag. -/
def zeros (n : ℕ) : Str := List.replicate n 0 ++ le32 END_FLAG

@[simp] theorem zeros_length (n : ℕ) : (zeros n).length = n + 4 := by
  simp [zeros]

theorem adler32_replicate_ne_zero (n : ℕ) : adler32 (List.replicate n 0) ≠ 0 := by
  -- the low word of the sum stays one
  have hlow : ∀ (n : ℕ) (b : UInt32), ((List.replicate n 0).foldl adler32Step (1, b)).1 = 1 := by
    intro n
    induction n with
    | zero => exact fun _ => rfl
    | succ n ih =>
      intro b
      rw [List.replicate_succ, List.foldl_cons]
      exact ih _
  intro h
  have hand := (UInt32.or_eq_zero_iff.mp h).2
  rw [hlow] at hand
  exact absurd hand (by decide)

/-- Where the third byte of the flag is missing, `CorrectCache` drops everything. -/
theorem correctCache_of_notMem {cache : Str} (h : 0x76 ∉ cache) : correctCache cache = [] := by
  rw [correctCache]
  split_ifs with hshort
  · rfl
  have hnone : ((List.range (cache.length - 4 + 1)).find? fun i =>
    fromLe32 (cache.drop i) == END_FLAG) = none := by
    rw [List.find?_eq_none]
    intro i hi hflag
    rw [List.mem_range] at hi
    have htake := take_of_fromLe32_eq (by rw [List.length_drop]; omega) (beq_iff_eq.mp hflag)
    have hmem : 0x76 ∈ (cache.drop i).take 4 := by
      rw [htake]
      decide
    exact h (List.mem_of_mem_drop (List.mem_of_mem_take hmem))
  rw [hnone]

section OverLong

variable {n : ℕ} (hn : n + 4 = 100 * 1000 * 1000 + 1)

include hn

theorem frameOf_zeros : frameOf (zeros n) = [0x01, 0xE1, 0xF5, 0x05] ++
    (List.replicate n 0 ++ [0xF1, 0xAD, 0x76, 0x00]) := by
  rw [frameOf, zeros_length, hn]
  rfl

theorem zeros_damaged : Damaged (zeros n) := by
  refine ⟨?_, ?_, ?_, ?_⟩
  · rw [zeros_length]
    omega
  · rw [zeros_length]
    omega
  · have hsplit : zeros n = List.replicate (n - 8) 0 ++ (List.replicate 8 0 ++ le32 END_FLAG) := by
      rw [zeros, ← List.append_assoc, List.replicate_append_replicate]
      congr 2
      omega
    have hlen : (zeros n).length - 12 = (List.replicate (n - 8) (0 : UInt8)).length := by
      rw [zeros_length, List.length_replicate]
      omega
    rw [hlen, hsplit, List.take_left, List.drop_left]
    exact adler32_replicate_ne_zero (n - 8)
  · rw [frameOf_zeros hn, ← List.append_assoc]
    refine onlyFlagIsLast_of_notMem fun hmem => ?_
    rcases List.mem_append.mp hmem with hlength | hzero
    · exact absurd hlength (by decide)
    · exact absurd (List.eq_of_mem_replicate hzero) (by decide)

end OverLong

/-- All but two bytes of the frame, and the rest of it with a whole packet behind. -/
theorem overLong_reads (n : ℕ) (buf : ReadBuf) :
    feedAll ReadBuf.addDataToReadBuf { buf with cache := [] }
      [[0x01, 0xE1, 0xF5, 0x05] ++ (List.replicate n 0 ++ [0xF1, 0xAD]), [0x76, 0x00] ++
        packagToStr (packCommonMsg [] 0)] =
        ([true, true], { buf with cache := [0x76, 0x00] ++ packagToStr (packCommonMsg [] 0) }) := by
  have hlen : (fromLe32 ([0x01, 0xE1, 0xF5, 0x05] ++ (List.replicate n 0 ++ [0xF1, 0xAD]))).toNat =
    100 * 1000 * 1000 + 1 := rfl
  have hnoFlag : correctCache ([0x01, 0xE1, 0xF5, 0x05] ++ (List.replicate n 0 ++ [0xF1, 0xAD])) = [] := by
    refine correctCache_of_notMem fun hmem => ?_
    rcases List.mem_append.mp hmem with hlength | hmem
    · exact absurd hlength (by decide)
    rcases List.mem_append.mp hmem with hzero | hflag
    · exact absurd (List.eq_of_mem_replicate hzero) (by decide)
    · exact absurd hflag (by decide)
  have hfirst : ReadBuf.addDataToReadBuf { buf with cache := [] } ([0x01, 0xE1, 0xF5, 0x05] ++
    (List.replicate n 0 ++ [0xF1, 0xAD])) =
      (true, { buf with cache := [] }) := by
    rw [ReadBuf.addDataToReadBuf_eq_scan _ (by simp), List.nil_append, ReadBuf.scan, if_pos (by simp)]
    dsimp only
    rw [hlen, verifyCache, if_pos (by decide), hnoFlag, ReadBuf.readLoop, if_neg (by simp)]
  have hsecond : ReadBuf.addDataToReadBuf { buf with cache := [] } ([0x76, 0x00] ++
    packagToStr (packCommonMsg [] 0)) =
      (true, { buf with cache := [0x76, 0x00] ++ packagToStr (packCommonMsg [] 0) }) := by
    have hword : 4 ≤ ([0x76, 0x00] ++ packagToStr (packCommonMsg [] 0)).length := by decide
    have hmore : ¬ 4 + (fromLe32 ([0x76, 0x00] ++ packagToStr (packCommonMsg [] 0))).toNat ≤
        ([0x76, 0x00] ++ packagToStr (packCommonMsg [] 0)).length := by decide
    rw [ReadBuf.addDataToReadBuf_eq_scan _ (by simp), List.nil_append, ReadBuf.scan, if_pos hword]
    dsimp only
    rw [verifyCache, if_neg (by decide), ReadBuf.readLoop, if_neg hmore]
  rw [feedAll, feedAll, feedAll, hfirst, hsecond]

/-- Over the limit, the two bytes that are left of a damaged frame are read as a length, and the
    packet behind it stays in the cache. -/
theorem overLong_costs_more : ¬ ∀ (buf : ReadBuf) (chunks : List Str), buf.cache = [] →
    (∀ chunk ∈ chunks, chunk ≠ []) →
    DeliversValid (2 ^ 32 - 1) buf chunks := by
  intro h
  obtain ⟨n, hn⟩ : ∃ n, n + 4 = 100 * 1000 * 1000 + 1 := ⟨100 * 1000 * 1000 - 3, by omega⟩
  let buf : ReadBuf := { fd := 7, portAndIp := 1, cache := [], queueWork := [] }
  let pack := packCommonMsg [] 0
  let chunks : List Str :=
    [[0x01, 0xE1, 0xF5, 0x05] ++ (List.replicate n 0 ++ [0xF1, 0xAD]), [0x76, 0x00] ++ packagToStr pack]
  have hne : ∀ chunk ∈ chunks, chunk ≠ [] := by simp [chunks]
  have hok : ∀ f ∈ [StreamFrame.damaged (zeros n), .good pack], f.Within (2 ^ 32 - 1) := by
    refine List.forall_mem_cons.mpr ⟨⟨zeros_damaged hn, ?_⟩, List.forall_mem_singleton.mpr ?_⟩
    · rw [zeros_length]
      omega
    · exact packCommonMsg_wellFramed 0 (by decide)
  have hbytes : chunks.flatten = [StreamFrame.damaged (zeros n), .good pack].flatMap StreamFrame.bytes := by
    simp [chunks, StreamFrame.bytes, frameOf_zeros hn]
  have hrun : feedAll ReadBuf.addDataToReadBuf buf chunks =
      ([true, true], { buf with cache := [0x76, 0x00] ++ packagToStr pack }) := overLong_reads n buf
  obtain ⟨arrived, todo, rest, hall, hgot, hpending, hqueue⟩ :=
    h buf chunks rfl hne _ hok (hbytes ▸ List.prefix_rfl) (by rw [hrun]; rfl)
  rw [hbytes, hall, List.flatMap_append] at hgot
  obtain rfl := List.append_cancel_left hgot
  obtain rfl := eq_nil_of_pending StreamFrame.bytes hpending
  rw [List.append_nil] at hall
  rw [hrun, ← hall] at hqueue
  exact absurd hqueue (List.cons_ne_nil _ _).symm

end Tfs.Net
