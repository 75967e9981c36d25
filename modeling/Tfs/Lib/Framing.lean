import Mathlib

/-! Frames on a byte stream.

    A reader of frames gets the bytes of a stream in pieces that have nothing to do with the frames:
    what it holds between two reads is the beginning of the next frame. `feedAll_frames` says that a
    reader which, after every read, has delivered the frames that are complete and holds what is left
    over delivers every frame once and in order, however the stream is cut. Lengths travel as
    little-endian 32-bit words (`le32`, `fromLe32`). -/

namespace Tfs.Framing

/-! ### Little-endian words -/

/-- The four bytes of a word, the low one first. -/
def le32 (w : UInt32) : List UInt8 :=
  [UInt8.ofNat w.toNat, UInt8.ofNat (w.toNat / 2 ^ 8), UInt8.ofNat (w.toNat / 2 ^ 16),
    UInt8.ofNat (w.toNat / 2 ^ 24)]

/-- The word in the first four bytes. -/
def fromLe32 : List UInt8 → UInt32
  | b₀ :: b₁ :: b₂ :: b₃ :: _ =>
    UInt32.ofNat (b₀.toNat + 2 ^ 8 * b₁.toNat + 2 ^ 16 * b₂.toNat + 2 ^ 24 * b₃.toNat)
  | _ => 0

@[simp] theorem le32_length (w : UInt32) : (le32 w).length = 4 := rfl

@[simp] theorem fromLe32_le32_append (w : UInt32) (rest : List UInt8) :
    fromLe32 (le32 w ++ rest) = w := by
  have hlt := w.toNat_lt
  apply UInt32.toNat_inj.mp
  simp only [le32, fromLe32, List.cons_append, UInt8.toNat_ofNat', UInt32.toNat_ofNat']
  omega

@[simp] theorem fromLe32_le32 (w : UInt32) : fromLe32 (le32 w) = w := by
  simpa using fromLe32_le32_append w []

/-- The first four bytes decide. -/
theorem fromLe32_append {bytes : List UInt8} (h : 4 ≤ bytes.length) (rest : List UInt8) :
    fromLe32 (bytes ++ rest) = fromLe32 bytes := by
  obtain _ | ⟨b₀, _ | ⟨b₁, _ | ⟨b₂, _ | ⟨b₃, tail⟩⟩⟩⟩ := bytes
  all_goals first | rfl | simp at h

/-- The first four bytes are those of the word they make. -/
theorem take_eq_le32 {bytes : List UInt8} (h : 4 ≤ bytes.length) : bytes.take 4 = le32 (fromLe32 bytes) := by
  obtain _ | ⟨b₀, _ | ⟨b₁, _ | ⟨b₂, _ | ⟨b₃, tail⟩⟩⟩⟩ := bytes
  iterate 4 (simp at h)
  have h₀ := b₀.toNat_lt
  have h₁ := b₁.toNat_lt
  have h₂ := b₂.toNat_lt
  have h₃ := b₃.toNat_lt
  simp only [List.take_succ_cons, List.take_zero, le32, fromLe32, List.cons.injEq, and_true, ← UInt8.toNat_inj,
    UInt8.toNat_ofNat', UInt32.toNat_ofNat']
  omega

/-! ### Cut streams -/

section Stream

variable {φ β σ : Type} (encode : φ → List β)

/-- What is held of the next frame of `todo`: a proper beginning of it, and nothing behind the last
    frame. -/
def Pending : List φ → List β → Prop
  | [], rest => rest = []
  | f :: _, rest => rest <+: encode f ∧ rest.length < (encode f).length

/-- What has arrived of a stream of frames is some whole frames and the beginning of the next. -/
theorem exists_pending : ∀ (frames : List φ) {bytes : List β}, bytes <+: frames.flatMap encode →
    ∃ done todo rest, frames = done ++ todo ∧ bytes = done.flatMap encode ++ rest ∧
      Pending encode todo rest
  | [], bytes, h => by
    refine ⟨[], [], [], rfl, ?_, rfl⟩
    simpa using h
  | f :: frames, bytes, h => by
    rw [List.flatMap_cons] at h
    rcases lt_or_ge bytes.length (encode f).length with hlt | hge
    · refine ⟨[], f :: frames, bytes, rfl, by simp, ?_, hlt⟩
      exact List.prefix_of_prefix_length_le h (List.prefix_append _ _) hlt.le
    · obtain ⟨more, rfl⟩ := List.prefix_of_prefix_length_le (List.prefix_append _ _) h hge
      obtain ⟨done, todo, rest, rfl, rfl, hpending⟩ :=
        exists_pending frames ((List.prefix_append_right_inj _).mp h)
      exact ⟨f :: done, todo, rest, rfl, by simp, hpending⟩

/-- What is pending is a beginning only: where all bytes of the frames are there, no frame is pending. -/
theorem eq_nil_of_pending : ∀ {todo : List φ}, Pending encode todo (todo.flatMap encode) → todo = []
  | [], _ => rfl
  | f :: todo, h => by
    exfalso
    have hlt := h.2
    rw [List.flatMap_cons, List.length_append] at hlt
    omega

/-- The reads are made one after the other; what each of them returned, and the state at the end. -/
def feedAll (read : σ → List β → Bool × σ) : σ → List (List β) → List Bool × σ
  | s, [] => ([], s)
  | s, chunk :: chunks =>
    let r := read s chunk
    let r' := feedAll read r.2 chunks
    (r.1 :: r'.1, r'.2)

variable {encode}

/-- What every read keeps, with what it returned and the bytes that have arrived, a run of reads keeps. -/
theorem feedAll_keeps {read : σ → List β → Bool × σ} {Keeps : Bool → List β → σ → Prop} {stream : List β}
    (hread : ∀ {b got s chunk}, chunk ≠ [] → got ++ chunk <+: stream → Keeps b got s →
      Keeps (read s chunk).1 (got ++ chunk) (read s chunk).2) :
    ∀ (chunks : List (List β)) {b : Bool} {got : List β} {s : σ}, (∀ chunk ∈ chunks, chunk ≠ []) →
      got ++ chunks.flatten <+: stream → Keeps b got s →
      Keeps ((feedAll read s chunks).1.getLastD b) (got ++ chunks.flatten) (feedAll read s chunks).2
  | [], b, got, s, _, _, hkeeps => by
    rw [List.flatten_nil, List.append_nil]
    exact hkeeps
  | chunk :: chunks, b, got, s, hne, hbytes, hkeeps => by
    rw [List.flatten_cons, ← List.append_assoc] at hbytes ⊢
    have harrived : got ++ chunk <+: stream := (List.prefix_append _ _).trans hbytes
    have hnext := hread (hne _ List.mem_cons_self) harrived hkeeps
    have hrest := feedAll_keeps hread chunks (fun c hc => hne c (List.mem_cons_of_mem _ hc)) hbytes hnext
    rw [feedAll, List.getLastD_cons]
    exact hrest

/-- A reader that keeps its place in the stream (`At s done rest`: the frames `done` are delivered
    and `rest` is held) delivers all frames, once each and in order, however the stream is cut. -/
theorem feedAll_frames {read : σ → List β → Bool × σ} {At : σ → List φ → List β → Prop}
    {Ok : φ → Prop}
    (hread : ∀ {s done more todo rest rest' chunk}, (∀ f ∈ more ++ todo, Ok f) → chunk ≠ [] →
      rest ++ chunk = more.flatMap encode ++ rest' → Pending encode todo rest' → At s done rest →
      (read s chunk).1 = true ∧ At (read s chunk).2 (done ++ more) rest') :
    ∀ (chunks : List (List β)) {s : σ} {done todo : List φ} {rest : List β},
      (∀ f ∈ todo, Ok f) → (∀ chunk ∈ chunks, chunk ≠ []) →
      rest ++ chunks.flatten = todo.flatMap encode → Pending encode todo rest → At s done rest →
      (∀ b ∈ (feedAll read s chunks).1, b = true) ∧
        At (feedAll read s chunks).2 (done ++ todo) []
  | [], s, done, todo, rest, _, _, hbytes, hpending, hat => by
    rw [List.flatten_nil, List.append_nil] at hbytes
    -- nothing more arrives, so the beginning held is all there is: no frame is left
    subst hbytes
    obtain rfl := eq_nil_of_pending encode hpending
    simpa [feedAll] using hat
  | chunk :: chunks, s, done, todo, rest, hok, hne, hbytes, hpending, hat => by
    have harrived : rest ++ chunk <+: todo.flatMap encode := by
      rw [← hbytes, List.flatten_cons, ← List.append_assoc]
      exact List.prefix_append _ _
    obtain ⟨more, todo, rest', rfl, hsplit, hpending'⟩ := exists_pending encode todo harrived
    obtain ⟨htrue, hat'⟩ := hread hok (hne _ List.mem_cons_self) hsplit hpending' hat
    have hbytes' : rest' ++ chunks.flatten = todo.flatMap encode := by
      rw [List.flatten_cons, ← List.append_assoc, hsplit, List.flatMap_append,
        List.append_assoc] at hbytes
      exact List.append_cancel_left hbytes
    obtain ⟨hall, hend⟩ := feedAll_frames hread chunks
      (fun f hf => hok f (List.mem_append_right _ hf))
      (fun c hc => hne c (List.mem_cons_of_mem _ hc)) hbytes' hpending' hat'
    refine ⟨?_, ?_⟩
    · intro b hb
      rcases List.mem_cons.mp hb with rfl | hb
      · exact htrue
      · exact hall b hb
    · rw [List.append_assoc] at hend
      exact hend

end Stream

end Tfs.Framing
