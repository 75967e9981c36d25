import Tfs.Proto
import Tfs.Lib.Sorted
import Tfs.Lib.Tally

/-! Which missing blocks are taken over (`SendBlockByHashReq` in `ca/block_helper.cpp`, once the answers are
    in).

    More than `succentCount / 5 * 4` nodes have to send a block. The count of a hash starts at one with its
    first report, and is then increased for this report too; a hash that an answer lists twice is counted
    twice. -/

namespace Tfs.Ca.SeekBlocks

/-! ### The function -/

/-- `message HashType`, as it is answered. -/
structure HashType where
  hash : Str
  blockRaw : Str

/-- `message GetBlockByHashAck`. -/
structure GetBlockByHashAck where
  addr : Str
  blocks : List HashType

/-- A report of a block: the first one also counts for the entry that it makes. -/
def recordBlock (value : Option (Str × ℕ)) (blockRaw : Str) : Str × ℕ :=
  let value := value.getD (blockRaw, 1)
  (value.1, value.2 + 1)

/-- `seekBlockHashes`. -/
def seekBlockHashes (acks : List GetBlockByHashAck) : SortedMap Str (Str × ℕ) :=
  acks.foldl (fun m ack => ack.blocks.foldl (fun m block =>
    m.upsert block.hash fun value => recordBlock value block.blockRaw) m) .empty

/-- `verifyNum`. -/
def verifyNum (succentCount : ℕ) : ℕ := succentCount / 5 * 4

section Function
variable (parseFromString : Str → Option CBlock)

/-- The loop over `seekBlockHashes`: `none` where a block does not parse. -/
def seekBlocks (verifyNum : ℕ) : List (Str × (Str × ℕ)) → Option (List (CBlock × Str))
  | [] => some []
  | it :: rest =>
    if it.2.2 > verifyNum then
      match parseFromString it.2.1 with
      | none => none
      | some block => (seekBlocks verifyNum rest).map fun blocks => (block, it.1) :: blocks
    else seekBlocks verifyNum rest

/-- `SendBlockByHashReq` for the parsed answers: its return value, and what is passed to `AddSeekBlock`. -/
def sendBlockByHashReq (acks : List GetBlockByHashAck) : ℤ × Option (List (CBlock × Str)) :=
  match seekBlocks parseFromString (verifyNum acks.length) (seekBlockHashes acks).entries with
  | none => (-8, none)
  | some blocks => (0, some blocks)

end Function

/-! ### The counts -/

section Counts
variable (acks : List GetBlockByHashAck)

/-- The blocks of the answers, each under its hash. -/
def reports : List (Str × Str) := acks.flatMap fun ack => ack.blocks.map fun block => (block.hash, block.blockRaw)

/-- The blocks that are sent for a hash. -/
def blocksOf (hash : Str) : List Str := SortedMap.valuesOf hash (reports acks)

/-- The answers that contain a hash. -/
def holders (hash : Str) : ℕ := acks.countP fun ack => hash ∈ ack.blocks.map (·.hash)

theorem foldl_recordBlock (rest : List Str) : ∀ value : Str × ℕ,
    rest.foldl (fun value blockRaw => recordBlock (some value) blockRaw) value = (value.1, value.2 + rest.length) := by
  induction rest with
  | nil => exact fun _ => rfl
  | cons blockRaw rest ih =>
    intro value
    rw [List.foldl_cons, ih, recordBlock, List.length_cons, Option.getD_some, Nat.add_right_comm, Nat.add_assoc]

/-- An entry has the first block of its hash, and counts one more than there are. -/
theorem mem_seekBlockHashes {hash blockRaw : Str} {count : ℕ} : (hash, (blockRaw, count)) ∈ (seekBlockHashes acks).entries ↔
    (blocksOf acks hash).head? = some blockRaw ∧ count = (blocksOf acks hash).length + 1 := by
  have hfold : seekBlockHashes acks = SortedMap.insertEach recordBlock .empty (reports acks) := by
    rw [seekBlockHashes, SortedMap.insertEach, reports, List.foldl_flatMap]
    simp only [List.foldl_map]
  rw [SortedMap.mem_iff_find, hfold, SortedMap.find_insertEach_empty, blocksOf]
  cases SortedMap.valuesOf hash (reports acks) with
  | nil => simp
  | cons first rest =>
    have hrest := foldl_recordBlock rest (recordBlock none first)
    have hcount : (recordBlock none first).2 + rest.length = (first :: rest).length + 1 := by
      exact Nat.add_comm 2 rest.length
    simp only [hrest, hcount, List.head?_cons, Option.some_inj, Prod.mk.injEq]
    exact and_congr_right fun _ => eq_comm

/-- A node that sends a hash does so at least once. -/
theorem holders_le_length_blocksOf (hash : Str) : holders acks hash ≤ (blocksOf acks hash).length := by
  rw [blocksOf, SortedMap.valuesOf, List.length_map, ← List.countP_eq_length_filter, reports]
  induction acks with
  | nil => exact le_rfl
  | cons ack acks ih =>
    simp only [holders, List.flatMap_cons, List.countP_append, List.countP_cons, decide_eq_true_eq] at ih ⊢
    split_ifs with hin
    · obtain ⟨block, hblock, rfl⟩ := List.mem_map.mp hin
      rw [Nat.add_comm]
      exact Nat.add_le_add (List.countP_pos_iff.mpr ⟨_, List.mem_map_of_mem hblock, by simp⟩) ih
    · exact ih.trans (Nat.le_add_left _ _)

/-- A hash is selected with its first block when it is counted often enough. -/
def Selected (hash blockRaw : Str) : Prop :=
  (blocksOf acks hash).head? = some blockRaw ∧ verifyNum acks.length ≤ (blocksOf acks hash).length

variable (parseFromString : Str → Option CBlock)

/-- The loop fails at an entry that is counted often enough and does not parse. -/
theorem seekBlocks_eq_none (k : ℕ) : ∀ {entries : List (Str × (Str × ℕ))},
    seekBlocks parseFromString k entries = none ↔ ∃ it ∈ entries, it.2.2 > k ∧ parseFromString it.2.1 = none
  | [] => iff_of_false nofun (by simp)
  | it :: rest => by
    rw [seekBlocks, List.exists_mem_cons_iff]
    split_ifs with hmany
    · cases hparse : parseFromString it.2.1 with
      | none => exact iff_of_true rfl (.inl ⟨hmany, rfl⟩)
      | some block =>
        rw [Option.map_eq_none_iff, seekBlocks_eq_none k, or_iff_right nofun]
    · rw [seekBlocks_eq_none k, or_iff_right fun h => hmany h.1]

/-- Otherwise it passes on the blocks of the entries that are counted often enough. -/
theorem mem_seekBlocks (k : ℕ) {hash : Str} : ∀ {entries : List (Str × (Str × ℕ))} {blocks : List (CBlock × Str)},
    seekBlocks parseFromString k entries = some blocks →
      ((∃ block, (block, hash) ∈ blocks) ↔ ∃ it ∈ entries, it.2.2 > k ∧ it.1 = hash)
  | [], blocks, h => by
    cases h
    exact iff_of_false nofun (by simp)
  | it :: rest, blocks, h => by
    rw [seekBlocks] at h
    rw [List.exists_mem_cons_iff]
    split_ifs at h with hmany
    · cases hparse : parseFromString it.2.1 with
      | none =>
        rw [hparse] at h
        cases h
      | some block =>
        simp only [hparse] at h
        obtain ⟨others, hrest, rfl⟩ := Option.map_eq_some_iff.mp h
        rw [← mem_seekBlocks k hrest, and_iff_right hmany]
        constructor
        · rintro ⟨block', hin⟩
          rcases List.mem_cons.mp hin with heq | hin
          · exact .inl (congrArg Prod.snd heq).symm
          · exact .inr ⟨block', hin⟩
        · rintro (rfl | ⟨block', hin⟩)
          · exact ⟨block, List.mem_cons_self⟩
          · exact ⟨block', List.mem_cons_of_mem _ hin⟩
    · rw [mem_seekBlocks k h, or_iff_right fun h => hmany h.1]

/-- Every block that is passed on is contained in more than four fifths of the answers. -/
def QuorumKept : Prop := ∀ blocks, (sendBlockByHashReq parseFromString acks).2 = some blocks →
  ∀ e ∈ blocks, 4 * acks.length < 5 * holders acks e.2

/-- The entries that are counted often enough are the hashes that are selected. -/
theorem exists_entry_iff {p : Str → Str → Prop} :
    (∃ it ∈ (seekBlockHashes acks).entries, it.2.2 > verifyNum acks.length ∧ p it.1 it.2.1) ↔
      ∃ hash blockRaw, Selected acks hash blockRaw ∧ p hash blockRaw := by
  constructor
  · rintro ⟨⟨hash, blockRaw, count⟩, hin, hmany, hp⟩
    obtain ⟨hfirst, rfl⟩ := (mem_seekBlockHashes acks).mp hin
    exact ⟨hash, blockRaw, ⟨hfirst, Nat.le_of_lt_succ hmany⟩, hp⟩
  · rintro ⟨hash, blockRaw, ⟨hfirst, hmany⟩, hp⟩
    exact ⟨_, (mem_seekBlockHashes acks).mpr ⟨hfirst, rfl⟩, Nat.lt_succ_of_le hmany, hp⟩

/-- Rounding lets the hash through: the nodes that send it are at least `verifyNum`, and exceed it by no more
    than four fifths of the remainder that `succentCount / 5` drops. -/
def LetThroughByRounding (hash : Str) : Prop :=
  verifyNum acks.length ≤ holders acks hash ∧
    holders acks hash ≤ verifyNum acks.length + 4 * (acks.length % 5) / 5

/-- Repetition lets the hash through: too few nodes send it, but some do so more than once. -/
def LetThroughByRepetition (hash : Str) : Prop :=
  holders acks hash < verifyNum acks.length ∧ verifyNum acks.length ≤ (blocksOf acks hash).length

/-- Between `verifyNum` and more than four fifths of the answers there is nothing else. -/
theorem let_through_iff (hash : Str) :
    (verifyNum acks.length ≤ (blocksOf acks hash).length ∧ 5 * holders acks hash ≤ 4 * acks.length) ↔
      LetThroughByRounding acks hash ∨ LetThroughByRepetition acks hash := by
  have hle := holders_le_length_blocksOf acks hash
  rw [LetThroughByRounding, LetThroughByRepetition, verifyNum]
  omega

end Counts

/-- It is so when the first block of a selected hash does not parse, or no hash is let through by rounding or by
    repetition. -/
theorem quorum_kept_iff (parseFromString : Str → Option CBlock) (acks : List GetBlockByHashAck) :
    QuorumKept acks parseFromString ↔
      (∃ hash blockRaw, Selected acks hash blockRaw ∧ parseFromString blockRaw = none) ∨
        ∀ hash ∈ (reports acks).map Prod.fst,
          ¬ LetThroughByRounding acks hash ∧ ¬ LetThroughByRepetition acks hash := by
  have hfail := (@seekBlocks_eq_none parseFromString (verifyNum acks.length) (seekBlockHashes acks).entries).trans
    (exists_entry_iff acks (p := fun _ blockRaw => parseFromString blockRaw = none))
  have hsent (hash : Str) : hash ∈ (reports acks).map Prod.fst ↔ ∃ blockRaw, (blocksOf acks hash).head? = some blockRaw := by
    rw [← Option.isSome_iff_exists, List.isSome_head?, blocksOf, Ne, SortedMap.valuesOf_eq_nil, not_not]
  rw [QuorumKept, sendBlockByHashReq]
  cases hloop : seekBlocks parseFromString (verifyNum acks.length) (seekBlockHashes acks).entries with
  | none => exact iff_of_true nofun (.inl (hfail.mp hloop))
  | some blocks =>
    rw [or_iff_right fun h => by rw [hfail.mpr h] at hloop; cases hloop]
    have hpassed : ∀ hash, (∃ block, (block, hash) ∈ blocks) ↔ ∃ blockRaw, Selected acks hash blockRaw := by
      intro hash
      rw [mem_seekBlocks parseFromString _ hloop, exists_entry_iff acks (p := fun key _ => key = hash)]
      constructor
      · rintro ⟨hash', blockRaw, hsel, rfl⟩
        exact ⟨blockRaw, hsel⟩
      · exact fun ⟨blockRaw, hsel⟩ => ⟨hash, blockRaw, hsel, rfl⟩
    constructor
    · intro hall hash hin
      refine not_or.mp fun hbad => ?_
      obtain ⟨hmany, hfew⟩ := (let_through_iff acks hash).mpr hbad
      obtain ⟨blockRaw, hfirst⟩ := (hsent hash).mp hin
      obtain ⟨block, hin⟩ := (hpassed hash).mpr ⟨blockRaw, hfirst, hmany⟩
      exact absurd (hall blocks rfl _ hin) (not_lt.mpr hfew)
    · rintro hall _ ⟨⟩ e he
      obtain ⟨blockRaw, hfirst, hmany⟩ := (hpassed e.2).mp ⟨e.1, he⟩
      by_contra hfew
      exact not_or.mpr (hall e.2 ((hsent e.2).mpr ⟨blockRaw, hfirst⟩))
        ((let_through_iff acks e.2).mp ⟨hmany, not_lt.mp hfew⟩)

/-- Two nodes answer, and a block that one of them sends is taken over: `verifyNum` is 0. -/
theorem block_of_one_taken : ¬ QuorumKept [⟨[97], [⟨[103], []⟩]⟩, ⟨[98], []⟩]
    fun _ => some ⟨0, [103], [], 1, [], []⟩ := by
  intro h
  exact absurd (h [(⟨0, [103], [], 1, [], []⟩, [103])] (by decide) _ (List.mem_singleton_self _)) (by decide)

end Tfs.Ca.SeekBlocks
