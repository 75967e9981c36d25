import Mathlib
import Tfs.Basic
import Tfs.Lib.Runs

/-! The sending side of one connection (`WorkThreads::HandleNetWrite` in `net/work_thread.cpp`,
    `net_tcp::Send` in `net/api.cpp`, `SocketBuf` and `BufferCrol` in `net/socket_buf.cpp`).

    Messages are appended to `_sendCache` by any thread. `HandleNetWrite` copies the cache, writes the
    copy to the socket as far as the socket takes it, and then pops as many bytes as were written; a
    mutex of the descriptor lets one thread at a time do so. A step below is one acquisition of the
    mutex of the cache, or one call of `write`. Sizes are converted to `int` on the way, which is where
    they can go wrong. -/

namespace Tfs.Net

/-- A size converted to `int`. -/
def asInt (n : ℤ) : ℤ := n.bmod (2 ^ 32)

theorem asInt_of_lt {n : ℕ} (h : n < 2 ^ 31) : asInt n = n := by
  rw [asInt, Int.bmod_eq_of_le] <;> omega

/-- `SocketBuf::PopNSendMsg`. -/
def popNSendMsg (sendCache : Str) (n : ℤ) : Str :=
  if n ≤ asInt sendCache.length then sendCache.drop (n % 2 ^ 64).toNat
  else sendCache.drop sendCache.length

/-- Where a `HandleNetWrite` stands: not called, in the loop of `Send` with `ptr` bytes of `buff`
    written, or back from `Send` with `ret`. -/
inductive Writer where
  | idle
  | sending (buff : Str) (ptr : ℕ) (bytesLeft : ℤ)
  | returned (buff : Str) (ptr : ℕ) (ret : ℤ)
  deriving DecidableEq, Repr

/-- How many bytes the writer has handed to the socket and not popped yet. -/
def Writer.handed : Writer → ℕ
  | .idle => 0
  | .sending _ ptr _ => ptr
  | .returned _ ptr _ => ptr

/-- A connection: whether `BufferCrol` still has its buffer, the cache, what went to the socket, the
    writer, and the messages pushed so far. -/
structure Connection where
  isExists : Bool
  sendCache : Str
  socket : Str
  writer : Writer
  pushed : List Str
  deriving DecidableEq, Repr

/-- A connection nothing was sent on. -/
def Connection.new : Connection := ⟨true, [], [], .idle, []⟩

/-- How a call of `write` ends. -/
inductive WriteResult where
  | wrote (n : ℕ)
  | eintr
  | eagain
  | failed
  deriving DecidableEq, Repr

/-- One step of one of the threads. -/
inductive SendStep where
  | pushSendMsg (data : Str)
  | getSendMsg
  | write (result : WriteResult)
  | popNSendMsg
  deriving DecidableEq, Repr

/-- The head of the loop of `net_tcp::Send`. -/
def Writer.sendLoop (buff : Str) (ptr : ℕ) (bytesLeft : ℤ) : Writer :=
  if 0 < bytesLeft then .sending buff ptr bytesLeft else .returned buff ptr (asInt buff.length)

/-- `HandleNetWrite` up to the call of `Send`. -/
def Connection.startWrite (c : Connection) : Connection :=
  if c.sendCache.length = 0 then c
  else { c with writer := .sendLoop c.sendCache 0 (asInt c.sendCache.length) }

/-- One turn of the loop of `net_tcp::Send`. A socket takes at most what it is offered; after an error
    `DeleteByFd` drops the buffer. -/
def Connection.write (c : Connection) (buff : Str) (ptr : ℕ) (bytesLeft : ℤ) :
    WriteResult → Connection
  | .wrote n =>
    let writtenBytes := min n bytesLeft.toNat
    { c with
      socket := c.socket ++ (buff.drop ptr).take writtenBytes
      writer := .sendLoop buff (ptr + writtenBytes) (bytesLeft - writtenBytes) }
  | .eintr => c
  | .eagain => { c with writer := .returned buff ptr (asInt (buff.length - bytesLeft)) }
  | .failed => { c with isExists := false, writer := .returned buff ptr (-2) }

/-- `BufferCrol::PopNWriteBufferQueue`. -/
def Connection.popNWriteBufferQueue (c : Connection) (n : ℤ) : Connection :=
  if c.isExists then { c with sendCache := Net.popNSendMsg c.sendCache n } else c

/-- `HandleNetWrite` from the return of `Send` on. Nothing is ever entered into `g_phoneList`. -/
def Connection.finishWrite (c : Connection) (buff : Str) (ret : ℤ) : Connection :=
  let done := { c with writer := .idle }
  if ret = -1 then done
  else if 0 < ret ∧ ret < asInt buff.length then done.popNWriteBufferQueue ret
  else if ret = asInt buff.length then done.popNWriteBufferQueue ret
  else done

/-- A step: `getSendMsg` waits for the mutex of the descriptor, `write` and `popNSendMsg` are the next
    things the thread that holds it does. -/
def Connection.step (c : Connection) : SendStep → Connection
  | .pushSendMsg data =>
    if c.isExists && ! data.isEmpty then
      { c with sendCache := c.sendCache ++ data, pushed := c.pushed ++ [data] }
    else c
  | .getSendMsg =>
    match c.writer with
    | .idle => if c.isExists then c.startWrite else c
    | _ => c
  | .write result =>
    match c.writer with
    | .sending buff ptr bytesLeft => c.write buff ptr bytesLeft result
    | _ => c
  | .popNSendMsg =>
    match c.writer with
    | .returned buff _ ret => c.finishWrite buff ret
    | _ => c

/-- Nothing is lost, repeated or reordered: what was handed to the socket, followed by what the cache
    holds beyond it, is what was pushed. Of a connection whose buffer is gone the socket has a
    beginning. -/
def Connection.NothingLost (c : Connection) : Prop :=
  if c.isExists then c.socket ++ c.sendCache.drop c.writer.handed = c.pushed.flatten
  else c.socket <+: c.pushed.flatten

/-- The cache is small enough, where it is copied and where it is popped, for its size to be an
    `int`. -/
def Connection.SizeFits (c : Connection) : SendStep → Prop
  | .getSendMsg => c.sendCache.length < 2 ^ 31
  | .popNSendMsg => c.sendCache.length < 2 ^ 31
  | _ => True

instance (c : Connection) : ∀ a, Decidable (c.SizeFits a)
  | .pushSendMsg _ => inferInstanceAs (Decidable True)
  | .getSendMsg => inferInstanceAs (Decidable (_ < _))
  | .write _ => inferInstanceAs (Decidable True)
  | .popNSendMsg => inferInstanceAs (Decidable (_ < _))

/-! ### The invariant -/

/-- The copy the writer works on is still the front of the cache, and its count of written bytes is
    right. -/
def Connection.WriterAt (c : Connection) : Prop :=
  match c.writer with
  | .idle => True
  | .sending buff ptr bytesLeft =>
    buff <+: c.sendCache ∧ buff.length < 2 ^ 31 ∧ 0 < bytesLeft ∧ ptr + bytesLeft = buff.length
  | .returned buff ptr ret =>
    buff <+: c.sendCache ∧ buff.length < 2 ^ 31 ∧ ptr ≤ buff.length ∧ 0 < buff.length ∧ ret = ptr

/-- An open connection has lost nothing and its writer is where it should be; a closed one has no
    writer in the loop. -/
def Connection.Inv (c : Connection) : Prop :=
  c.NothingLost ∧ (c.isExists = true → c.WriterAt) ∧
    (c.isExists = false → ∀ buff ptr bytesLeft, c.writer ≠ .sending buff ptr bytesLeft)

theorem Connection.nothingLost_iff {c : Connection} (h : c.isExists = true) :
    c.NothingLost ↔ c.socket ++ c.sendCache.drop c.writer.handed = c.pushed.flatten := by
  simp [NothingLost, h]

/-- For an open connection the invariant is two things. -/
theorem Connection.inv_of_open {c : Connection} (hopen : c.isExists = true)
    (hlost : c.socket ++ c.sendCache.drop c.writer.handed = c.pushed.flatten) (hat : c.WriterAt) :
    c.Inv :=
  ⟨(nothingLost_iff hopen).mpr hlost, fun _ => hat, fun hclosed => by simp [hopen] at hclosed⟩

/-- For a closed one, too. -/
theorem Connection.inv_of_closed {c : Connection} (hclosed : c.isExists = false)
    (hpre : c.socket <+: c.pushed.flatten)
    (hwriter : ∀ buff ptr bytesLeft, c.writer ≠ .sending buff ptr bytesLeft) : c.Inv := by
  refine ⟨?_, fun hopen => ?_, fun _ => hwriter⟩
  · simpa [NothingLost, hclosed] using hpre
  · simp [hclosed] at hopen

theorem Connection.WriterAt.handed_le {c : Connection} (h : c.WriterAt) :
    c.writer.handed ≤ c.sendCache.length := by
  cases hw : c.writer with
  | idle => simp [Writer.handed]
  | sending buff ptr bytesLeft =>
    simp only [WriterAt, hw] at h
    have := h.1.length_le
    simp only [Writer.handed]
    omega
  | returned buff ptr ret =>
    simp only [WriterAt, hw] at h
    have := h.1.length_le
    simp only [Writer.handed]
    omega

@[simp] theorem Writer.sendLoop_handed (buff : Str) (ptr : ℕ) (bytesLeft : ℤ) :
    (Writer.sendLoop buff ptr bytesLeft).handed = ptr := by
  rw [sendLoop]
  split <;> rfl

/-- The loop of `Send` keeps its count. -/
theorem Connection.writerAt_sendLoop {c : Connection} {buff : Str} {ptr : ℕ} {bytesLeft : ℤ}
    (hpre : buff <+: c.sendCache) (hlt : buff.length < 2 ^ 31) (hpos : 0 < buff.length)
    (hleft : 0 ≤ bytesLeft) (hsum : ptr + bytesLeft = buff.length) :
    { c with writer := .sendLoop buff ptr bytesLeft }.WriterAt := by
  rcases hleft.lt_or_eq with hmore | hdone
  · have hloop : Writer.sendLoop buff ptr bytesLeft = .sending buff ptr bytesLeft := if_pos hmore
    simpa only [WriterAt, hloop] using ⟨hpre, hlt, hmore, hsum⟩
  · have hloop : Writer.sendLoop buff ptr bytesLeft = .returned buff ptr buff.length := by
      rw [Writer.sendLoop, if_neg (by omega), asInt_of_lt hlt]
    simp only [WriterAt, hloop]
    exact ⟨hpre, hlt, by omega, hpos, by omega⟩

/-! ### Each step keeps it -/

theorem Connection.inv_pushSendMsg {c : Connection} (data : Str) (h : c.Inv) :
    (c.step (.pushSendMsg data)).Inv := by
  rw [step]
  split
  · rename_i hcond
    have hopen : c.isExists = true := by
      simp only [Bool.and_eq_true] at hcond
      exact hcond.1
    obtain ⟨hlost, hat, -⟩ := h
    have hat := hat hopen
    rw [nothingLost_iff hopen] at hlost
    refine inv_of_open hopen ?_ ?_
    · simp [List.drop_append_of_le_length hat.handed_le, ← hlost]
    · -- the copy of a writer stays in front of what is appended
      cases hw : c.writer with
      | idle => simp [WriterAt]
      | sending buff ptr bytesLeft =>
        simp only [WriterAt, hw] at hat ⊢
        exact ⟨hat.1.trans (List.prefix_append _ _), hat.2⟩
      | returned buff ptr ret =>
        simp only [WriterAt, hw] at hat ⊢
        exact ⟨hat.1.trans (List.prefix_append _ _), hat.2⟩
  · exact h

theorem Connection.inv_getSendMsg {c : Connection} (hfits : c.sendCache.length < 2 ^ 31)
    (h : c.Inv) : (c.step .getSendMsg).Inv := by
  rw [step]
  split
  · rename_i hidle
    split
    · rename_i hopen
      rw [startWrite]
      split
      · exact h
      · rename_i hne
        have hlost := (nothingLost_iff hopen).mp h.1
        simp only [hidle, Writer.handed] at hlost
        rw [asInt_of_lt hfits]
        refine inv_of_open hopen ?_ ?_
        · simpa using hlost
        · exact writerAt_sendLoop (List.prefix_refl _) hfits (by omega) (by omega) (by simp)
    · exact h
  · exact h

/-- Bytes that go from the cache to the socket. -/
theorem take_append_drop_front {buff cache : Str} (hpre : buff <+: cache) {ptr n : ℕ}
    (hn : ptr + n ≤ buff.length) :
    (buff.drop ptr).take n ++ cache.drop (ptr + n) = cache.drop ptr := by
  obtain ⟨tail, rfl⟩ := hpre
  have hdrop : (buff ++ tail).drop ptr = buff.drop ptr ++ tail :=
    List.drop_append_of_le_length (by omega)
  have htake : (buff.drop ptr).take n = ((buff ++ tail).drop ptr).take n := by
    rw [hdrop, List.take_append_of_le_length (by rw [List.length_drop]; omega)]
  rw [htake, ← List.drop_drop, List.take_append_drop]

theorem Connection.inv_write {c : Connection} (result : WriteResult) (h : c.Inv) :
    (c.step (.write result)).Inv := by
  rw [step]
  split
  · rename_i buff ptr bytesLeft hw
    obtain ⟨hlost, hat, hnot⟩ := h
    have hopen : c.isExists = true := by
      by_contra hclosed
      exact hnot (by simpa using hclosed) _ _ _ hw
    have hat := hat hopen
    rw [nothingLost_iff hopen, hw, Writer.handed] at hlost
    simp only [WriterAt, hw] at hat
    obtain ⟨hpre, hlt, hpos, hsum⟩ := hat
    cases result with
    | wrote n =>
      have hle : ptr + min n bytesLeft.toNat ≤ buff.length := by omega
      refine inv_of_open hopen ?_ ?_
      · simp only [write, Writer.sendLoop_handed, List.append_assoc]
        rw [take_append_drop_front hpre hle, hlost]
      · exact writerAt_sendLoop (c := { c with socket := _ }) hpre hlt (by omega) (by omega)
          (by push_cast; omega)
    | eintr =>
      refine inv_of_open hopen ?_ ?_
      · rw [write, hw, Writer.handed, hlost]
      · simpa only [write, WriterAt, hw] using ⟨hpre, hlt, hpos, hsum⟩
    | eagain =>
      refine inv_of_open hopen ?_ ?_
      · simpa only [write, Writer.handed] using hlost
      · have hret : asInt (buff.length - bytesLeft) = ptr := by
          rw [← hsum, add_sub_cancel_right, asInt_of_lt (by omega)]
        simp only [write, WriterAt, hret]
        exact ⟨hpre, hlt, by omega, by omega, trivial⟩
    | failed =>
      refine inv_of_closed rfl ?_ (by simp [write])
      rw [write, ← hlost]
      exact List.prefix_append _ _
  · exact h

/-- Popping what was written. -/
theorem popNSendMsg_of_fits {sendCache : Str} {n : ℕ} (hfits : sendCache.length < 2 ^ 31)
    (hn : n ≤ sendCache.length) : popNSendMsg sendCache n = sendCache.drop n := by
  have hmod : ((n : ℤ) % 2 ^ 64).toNat = n := by omega
  rw [popNSendMsg, if_pos (by rw [asInt_of_lt hfits]; omega), hmod]

theorem Connection.inv_popNSendMsg {c : Connection} (hfits : c.sendCache.length < 2 ^ 31)
    (h : c.Inv) : (c.step .popNSendMsg).Inv := by
  rw [step]
  split
  · rename_i buff ptr ret hw
    obtain ⟨hlost, hat, -⟩ := h
    rcases hopen : c.isExists with _ | _
    · -- the buffer is gone: there is nothing to pop
      have hdone : c.finishWrite buff ret = { c with writer := .idle } := by
        simp [finishWrite, popNWriteBufferQueue, hopen]
      rw [hdone]
      refine inv_of_closed hopen ?_ (by simp)
      simpa [NothingLost, hopen] using hlost
    · have hat := hat hopen
      rw [nothingLost_iff hopen, hw, Writer.handed] at hlost
      simp only [WriterAt, hw] at hat
      obtain ⟨hpre, hlt, hptr, hpos, rfl⟩ := hat
      have hle := hpre.length_le
      have hpop : c.finishWrite buff ptr
          = { c with writer := .idle, sendCache := c.sendCache.drop ptr } := by
        rcases Nat.eq_zero_or_pos ptr with rfl | hsome
        · rw [finishWrite, if_neg (by omega), if_neg (by omega),
            if_neg (by rw [asInt_of_lt hlt]; omega)]
          simp
        · have hpopped := popNSendMsg_of_fits hfits (hptr.trans hle)
          rw [finishWrite, if_neg (by omega)]
          rcases hptr.lt_or_eq with hpart | hall
          · rw [if_pos (by rw [asInt_of_lt hlt]; omega)]
            simp [popNWriteBufferQueue, hopen, hpopped]
          · rw [if_neg (by rw [asInt_of_lt hlt]; omega), if_pos (by rw [asInt_of_lt hlt]; omega)]
            simp [popNWriteBufferQueue, hopen, hpopped]
      rw [hpop]
      refine inv_of_open hopen ?_ (by simp [WriterAt])
      simpa [Writer.handed] using hlost
  · exact h

theorem Connection.inv_step {c : Connection} {a : SendStep} (hfits : c.SizeFits a) (h : c.Inv) :
    (c.step a).Inv := by
  cases a with
  | pushSendMsg data => exact inv_pushSendMsg data h
  | getSendMsg => exact inv_getSendMsg hfits h
  | write result => exact inv_write result h
  | popNSendMsg => exact inv_popNSendMsg hfits h

theorem Connection.inv_new : Connection.new.Inv :=
  inv_of_open rfl rfl trivial

/-- At every moment of a run in which the cache is copied and popped only while its size is an `int`,
    nothing is lost, repeated or reordered. -/
theorem nothingLost_of_sizeFits (acts : List SendStep)
    (h : EveryStep Connection.step Connection.SizeFits .new acts) :
    ∀ done, done <+: acts → (done.foldl Connection.step .new).NothingLost := by
  rintro done ⟨rest, rfl⟩
  have hdone := (everyStep_append.mp h).1
  exact (hdone.invariant (P := Connection.Inv) (fun _ _ => Connection.inv_step) Connection.inv_new).1

/-- A message pushed between the copy and the pop, and a socket that takes two bytes first. -/
theorem nothingLost_of_sizeFits_shortWrite :
    let acts : List SendStep := [.pushSendMsg [1, 2, 3], .getSendMsg, .write (.wrote 2),
      .pushSendMsg [4], .write .eagain, .popNSendMsg, .getSendMsg, .write (.wrote 2), .popNSendMsg]
    EveryStep Connection.step Connection.SizeFits .new acts ∧
      (acts.foldl Connection.step .new).NothingLost ∧
      (acts.foldl Connection.step .new).socket = [1, 2, 3, 4] := by
  intro acts
  have hfits : EveryStep Connection.step Connection.SizeFits .new acts := by decide
  exact ⟨hfits, nothingLost_of_sizeFits acts hfits acts (List.prefix_refl _), by decide⟩

/-! ### A cache of two gigabytes -/

/-- Pushed messages pile up. -/
theorem Connection.foldl_pushSendMsg : ∀ (msgs : List Str) (c : Connection), c.isExists = true →
    (∀ m ∈ msgs, m ≠ []) →
    (msgs.map SendStep.pushSendMsg).foldl step c
      = { c with sendCache := c.sendCache ++ msgs.flatten, pushed := c.pushed ++ msgs } := by
  intro msgs
  induction msgs with
  | nil => intro c _ _; simp
  | cons m msgs ih =>
    intro c hopen hne
    have hpush : c.step (.pushSendMsg m)
        = { c with sendCache := c.sendCache ++ m, pushed := c.pushed ++ [m] } := by
      simp [step, hopen, hne m List.mem_cons_self]
    rw [List.map_cons, List.foldl_cons, hpush, ih]
    · simp
    · exact hopen
    · exact fun x hx => hne x (List.mem_cons_of_mem _ hx)

/-- A cache whose size is a negative `int` is emptied without a single `write`. -/
theorem Connection.emptied_of_asInt_neg {c : Connection} (hopen : c.isExists = true)
    (hidle : c.writer = .idle) (hneg : asInt c.sendCache.length < -1)
    (hlen : c.sendCache.length < 2 ^ 32) :
    ([.getSendMsg, .popNSendMsg] : List SendStep).foldl step c = { c with sendCache := [] } := by
  have hlow : -2 ^ 31 ≤ asInt c.sendCache.length := Int.le_bmod (by decide)
  have hne : c.sendCache.length ≠ 0 := by
    intro h
    rw [h] at hneg
    exact absurd hneg (by decide)
  have hcopy : c.step .getSendMsg
      = { c with writer := .returned c.sendCache 0 (asInt c.sendCache.length) } := by
    rw [step, hidle]
    simp only [hopen, if_true]
    rw [startWrite, if_neg hne, Writer.sendLoop, if_neg (by omega), hopen]
  have hall : c.sendCache.length ≤ (asInt c.sendCache.length % 2 ^ 64).toNat := by omega
  rw [List.foldl_cons, hcopy, List.foldl_cons, List.foldl_nil, step]
  simp only
  rw [finishWrite, if_neg (by omega), if_neg (by omega), if_pos rfl]
  simp only [popNWriteBufferQueue, hopen, if_true]
  rw [Net.popNSendMsg, if_pos le_rfl, List.drop_eq_nil_of_le hall, hidle]

/-- Messages that pile up to such a size are lost. -/
theorem Connection.lost_of_asInt_neg (msgs : List Str) (hne : ∀ m ∈ msgs, m ≠ [])
    (hneg : asInt msgs.flatten.length < -1) (hlen : msgs.flatten.length < 2 ^ 32) :
    ¬ ((msgs.map SendStep.pushSendMsg ++ [SendStep.getSendMsg, SendStep.popNSendMsg]).foldl step
      .new).NothingLost := by
  let c : Connection := ⟨true, msgs.flatten, [], .idle, msgs⟩
  have hpushed : (msgs.map SendStep.pushSendMsg).foldl step .new = c := by
    rw [foldl_pushSendMsg msgs .new rfl hne]
    simp [Connection.new, c]
  have hend : ([.getSendMsg, .popNSendMsg] : List SendStep).foldl step c = { c with sendCache := [] } :=
    emptied_of_asInt_neg rfl rfl hneg hlen
  have hsome : msgs.flatten ≠ [] := by
    intro hnil
    rw [hnil] at hneg
    exact absurd hneg (by decide)
  rw [List.foldl_append, hpushed, hend, nothingLost_iff rfl]
  intro hlost
  exact hsome hlost.symm

/-- So are equal messages whose sizes add up to it. -/
theorem Connection.lost_of_replicate (k size : ℕ) (hsize : size ≠ 0)
    (hneg : asInt (k * size : ℕ) < -1) (hlen : k * size < 2 ^ 32) :
    ∃ acts : List SendStep, ¬ (acts.foldl step .new).NothingLost := by
  have hlength : (List.replicate k (List.replicate size (0 : UInt8))).flatten.length = k * size := by
    simp
  refine ⟨_, lost_of_asInt_neg (List.replicate k (List.replicate size 0)) ?_ ?_ ?_⟩
  · intro m hm
    rw [List.eq_of_mem_replicate hm, ne_eq, List.replicate_eq_nil_iff]
    exact hsize
  · rw [hlength]
    exact hneg
  · rw [hlength]
    exact hlen

/-- Twenty-two messages of 100,000,000 bytes for a peer that does not read: the cache is erased before a
    byte of it was written. -/
theorem nothingLost_fails_twoGigabytes :
    ¬ ∀ (acts done : List SendStep), done <+: acts → (done.foldl Connection.step .new).NothingLost := by
  intro hall
  obtain ⟨acts, hlost⟩ : ∃ acts : List SendStep, ¬ (acts.foldl Connection.step .new).NothingLost :=
    Connection.lost_of_replicate 22 100000000 (by decide) (by decide) (by decide)
  exact hlost (hall acts acts (List.prefix_refl acts))

end Tfs.Net
