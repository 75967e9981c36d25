import Tfs.Basic
import Tfs.Lib.Double
import Tfs.Lib.Sorted
import Tfs.Lib.Tally

/-! Which hash the nodes give for the block before (`BlockStroage::_SeekPreHashByNode` in
    `ca/block_stroage.cpp`, once the answers are in).

    An answer says itself which height it is about, and the hashes are counted under that height. The heights
    are then gone through in their order, and the first one that has a hash with 70 percent gives the result,
    whichever height was asked for. -/

namespace Tfs.Ca.SeekPreHash

/-! ### The function -/

/-- `message SeekPreHashByHightAck`. -/
structure SeekPreHashByHightAck where
  seekHeight : UInt64
  prehashes : List Str

/-- `seekPreHashes`. -/
def seekPreHashes (acks : List SeekPreHashByHightAck) : SortedMap UInt64 (SortedMap Str ℕ) :=
  acks.foldl (fun m ack => ack.prehashes.foldl (fun m prehash =>
    m.upsert ack.seekHeight fun votes => SortedMap.countOne (votes.getD .empty) prehash) m) .empty

/-- `prehash.second / (double)succentCount * 100` as a `uint16_t`; of a larger number, which only repeated hashes
    give, the low digits are taken. -/
def percentage (count succentCount : ℕ) : ℕ :=
  ⌊toDouble (toDouble (count / succentCount) * 100)⌋₊ % 2 ^ 16

/-- `verifyNum`. -/
def verifyNum (succentCount : ℕ) : ℕ := succentCount / 5 * 3

/-- One round of the loop over the hashes of a height: `maxPercentage` and `maxPercentagePrehash`. -/
def bestStep (succentCount : ℕ) (best : ℕ × Str) (prehash : Str × ℕ) : ℕ × Str :=
  if prehash.2 ≥ verifyNum succentCount then
    if best.1 < percentage prehash.2 succentCount then (percentage prehash.2 succentCount, prehash.1) else best
  else best

/-- One round of the loop over the heights: the result, if the height gives one. -/
def heightResult (succentCount : ℕ) (iter : UInt64 × SortedMap Str ℕ) : Option (Str × ℕ) :=
  let best := iter.2.entries.foldl (bestStep succentCount) (0, [])
  if best.1 ≥ 70 then some (best.2, best.1) else none

/-- `BlockStroage::_SeekPreHashByNode` for the parsed answers. The height that is asked for is only sent to the
    nodes. -/
def seekPreHashByNode (acks : List SeekPreHashByHightAck) : Str × ℕ :=
  ((seekPreHashes acks).entries.findSome? (heightResult acks.length)).getD ([], 0)

/-! ### The votes -/

section Votes
variable (acks : List SeekPreHashByHightAck)

/-- What the answers list, each hash under the height of its answer. -/
def listed : List (UInt64 × Str) := acks.flatMap fun ack => ack.prehashes.map (ack.seekHeight, ·)

/-- The share of a hash of a height, as it is computed; a hash that is counted too rarely has none. -/
def share (height : UInt64) (prehash : Str) : ℕ :=
  if (listed acks).count (height, prehash) ≥ verifyNum acks.length then
    percentage ((listed acks).count (height, prehash)) acks.length
  else 0

/-- The hash is the first of those with the largest share of a height, which is 70 at least. -/
def Wins (height : UInt64) (prehash : Str) : Prop :=
  (height, prehash) ∈ listed acks ∧ 70 ≤ share acks height prehash ∧
    ∀ other, (height, other) ∈ listed acks → share acks height other < share acks height prehash ∨
      share acks height other = share acks height prehash ∧ prehash ≤ other

/-- The hash wins at the first height that has a winner. -/
def Elected (prehash : Str) : Prop :=
  ∃ height, Wins acks height prehash ∧ ∀ height' < height, ∀ other, ¬ Wins acks height' other

/-- The answers that list the hash for the height. -/
def listers (height : UInt64) (prehash : Str) : ℕ :=
  acks.countP fun ack => ack.seekHeight = height ∧ prehash ∈ ack.prehashes

theorem seekPreHashes_eq : seekPreHashes acks = SortedMap.tallyEach (listed acks) := by
  rw [seekPreHashes, SortedMap.tallyEach, SortedMap.insertEach, listed, List.foldl_flatMap]
  simp only [List.foldl_map]

/-- The share that a round of the loop compares. -/
def shareOf (succentCount : ℕ) (prehash : Str × ℕ) : ℕ :=
  if prehash.2 ≥ verifyNum succentCount then percentage prehash.2 succentCount else 0

theorem bestStep_eq (n : ℕ) : bestStep n = fun best prehash =>
    if best.1 < shareOf n prehash then (shareOf n prehash, prehash.1) else best := by
  funext best prehash
  rw [bestStep, shareOf]
  by_cases hmany : prehash.2 ≥ verifyNum n
  · rw [if_pos hmany, if_pos hmany]
  · rw [if_neg hmany, if_neg hmany, if_neg (Nat.not_lt_zero _)]

theorem mem_votes {height : UInt64} {prehash : Str} {count : ℕ} :
    (prehash, count) ∈ (SortedMap.tally (SortedMap.valuesOf height (listed acks))).entries ↔
      (height, prehash) ∈ listed acks ∧ count = (listed acks).count (height, prehash) := by
  rw [SortedMap.mem_tally, SortedMap.mem_valuesOf, SortedMap.count_valuesOf]

/-- A height gives a result when it has a winner, and then the winner with its share. -/
theorem heightResult_eq_some {height : UInt64} {r : Str × ℕ} :
    heightResult acks.length (height, SortedMap.tally (SortedMap.valuesOf height (listed acks))) = some r ↔
      Wins acks height r.1 ∧ r.2 = share acks height r.1 := by
  have hshare : ∀ prehash count,
      (prehash, count) ∈ (SortedMap.tally (SortedMap.valuesOf height (listed acks))).entries →
        shareOf acks.length (prehash, count) = share acks height prehash := by
    intro prehash count hin
    rw [shareOf, share, ((mem_votes acks).mp hin).2]
  have hmax := SortedMap.isRunningMax_foldl (shareOf acks.length) []
    (SortedMap.tally (SortedMap.valuesOf height (listed acks))).entries
    (SortedMap.tally (SortedMap.valuesOf height (listed acks))).sorted
  rw [heightResult]
  simp only [bestStep_eq]
  generalize ((SortedMap.tally (SortedMap.valuesOf height (listed acks))).entries.foldl
    (fun best e => if best.1 < shareOf acks.length e then (shareOf acks.length e, e.1) else best) (0, [])) = best at hmax ⊢
  obtain ⟨hle, hfirst⟩ := hmax
  constructor
  · intro h
    split_ifs at h with hseventy
    cases h
    obtain ⟨e, he, rfl, hmin⟩ := hfirst (by omega)
    refine ⟨⟨((mem_votes acks).mp he).1, ?_, fun other hother => ?_⟩, hshare e.1 e.2 he⟩
    · rw [← hshare e.1 e.2 he]
      exact hseventy
    · have hin := (mem_votes acks).mpr ⟨hother, rfl⟩
      rw [← hshare e.1 e.2 he, ← hshare other _ hin]
      rcases (hle _ hin).lt_or_eq with hlt | heq
      · exact .inl hlt
      · exact .inr ⟨heq, hmin _ hin heq⟩
  · rintro ⟨⟨hin, hseventy, hall⟩, hr⟩
    have hin' := (mem_votes acks).mpr ⟨hin, rfl⟩
    have hbest := hle _ hin'
    rw [hshare r.1 _ hin'] at hbest
    obtain ⟨e, he, rfl, hmin⟩ := hfirst (by omega)
    have heq : share acks height e.1 = share acks height r.1 ∧ r.1 ≤ e.1 := by
      refine (hall e.1 ((mem_votes acks).mp he).1).resolve_left (not_lt.mpr ?_)
      rw [← hshare e.1 e.2 he]
      exact hbest
    have hleast := hmin _ hin' (by rw [hshare e.1 e.2 he, hshare r.1 _ hin', heq.1])
    have hfirst' : e.1 = r.1 := le_antisymm hleast heq.2
    have hshare' := hshare e.1 e.2 he
    rw [if_pos (by rw [hshare', heq.1]; exact hseventy), hshare', heq.1, ← hr, hfirst']

/-- The loop over the heights finds the hash that is elected. -/
theorem findSome?_heightResult {r : Str × ℕ} : (seekPreHashes acks).entries.findSome? (heightResult acks.length) = some r ↔
    ∃ height, (Wins acks height r.1 ∧ r.2 = share acks height r.1) ∧
      ∀ height' < height, ∀ other, ¬ Wins acks height' other := by
  have hnone : ∀ {height}, heightResult acks.length (height, SortedMap.tally (SortedMap.valuesOf height (listed acks))) =
      none ↔ ∀ other, ¬ Wins acks height other := by
    intro height
    rw [Option.eq_none_iff_forall_ne_some]
    constructor
    · exact fun h other hwins => h (other, share acks height other) ((heightResult_eq_some acks).mpr ⟨hwins, rfl⟩)
    · exact fun h r' hsome => h r'.1 ((heightResult_eq_some acks).mp hsome).1
  have hvotes : ∀ height, height ∈ (listed acks).map Prod.fst →
      (height, SortedMap.tally (SortedMap.valuesOf height (listed acks))) ∈ (SortedMap.tallyEach (listed acks)).entries :=
    fun height hin => SortedMap.mem_tallyEach.mpr ⟨hin, rfl⟩
  have hkey : ∀ {height prehash}, Wins acks height prehash → height ∈ (listed acks).map Prod.fst :=
    fun h => List.mem_map.mpr ⟨_, h.1, rfl⟩
  rw [seekPreHashes_eq, SortedMap.findSome?_entries]
  constructor
  · rintro ⟨⟨height, votes⟩, he, hsome, hbefore⟩
    obtain ⟨-, rfl⟩ := SortedMap.mem_tallyEach.mp he
    refine ⟨height, (heightResult_eq_some acks).mp hsome, fun height' hlt other hwins => ?_⟩
    exact hnone.mp (hbefore _ (hvotes height' (hkey hwins)) hlt) other hwins
  · rintro ⟨height, hwins, hbefore⟩
    refine ⟨_, hvotes height (hkey hwins.1), (heightResult_eq_some acks).mpr hwins, fun e' he' hlt => ?_⟩
    obtain ⟨height', votes⟩ := e'
    obtain ⟨-, rfl⟩ := SortedMap.mem_tallyEach.mp he'
    exact hnone.mpr (hbefore height' hlt)

/-- The result that is not empty is the hash that is elected. -/
theorem seekPreHashByNode_iff {prehash : Str} (hsome : prehash ≠ []) :
    (seekPreHashByNode acks).1 = prehash ↔ Elected acks prehash := by
  rw [seekPreHashByNode]
  constructor
  · intro h
    cases hfound : (seekPreHashes acks).entries.findSome? (heightResult acks.length) with
    | none =>
      rw [hfound] at h
      exact absurd h.symm hsome
    | some r =>
      rw [hfound, Option.getD_some] at h
      obtain ⟨height, ⟨hwins, -⟩, hbefore⟩ := (findSome?_heightResult acks).mp hfound
      exact ⟨height, h ▸ hwins, hbefore⟩
  · rintro ⟨height, hwins, hbefore⟩
    have hfound := (@findSome?_heightResult acks (prehash, share acks height prehash)).mpr
      ⟨height, ⟨hwins, rfl⟩, hbefore⟩
    rw [hfound, Option.getD_some]

/-- The height decides: it is the lowest one that has a hash with a share of 70. -/
def Decides (height : UInt64) : Prop :=
  (∃ prehash, (height, prehash) ∈ listed acks ∧ 70 ≤ share acks height prehash) ∧
    ∀ height' < height, ∀ prehash, (height', prehash) ∈ listed acks → share acks height' prehash < 70

/-- The hash is the first of those with the largest share of a height. -/
def Leads (height : UInt64) (prehash : Str) : Prop :=
  (height, prehash) ∈ listed acks ∧ ∀ other, (height, other) ∈ listed acks →
    share acks height other < share acks height prehash ∨
      share acks height other = share acks height prehash ∧ prehash ≤ other

theorem exists_wins_iff {height : UInt64} : (∃ prehash, Wins acks height prehash) ↔
    ∃ prehash, (height, prehash) ∈ listed acks ∧ 70 ≤ share acks height prehash := by
  constructor
  · exact fun ⟨prehash, hin, hseventy, _⟩ => ⟨prehash, hin, hseventy⟩
  · rintro ⟨prehash, hin, hseventy⟩
    -- the loop over the hashes of the height finds one
    have hsome : (heightResult acks.length
        (height, SortedMap.tally (SortedMap.valuesOf height (listed acks)))).isSome := by
      have hmax := SortedMap.isRunningMax_foldl (shareOf acks.length) []
        (SortedMap.tally (SortedMap.valuesOf height (listed acks))).entries
        (SortedMap.tally (SortedMap.valuesOf height (listed acks))).sorted
      have hentry := (mem_votes acks).mpr ⟨hin, rfl⟩
      have hbest := hmax.1 _ hentry
      rw [heightResult]
      simp only [bestStep_eq]
      rw [if_pos (hseventy.trans (by simpa only [shareOf, share] using hbest))]
      rfl
    obtain ⟨r, hr⟩ := Option.isSome_iff_exists.mp hsome
    exact ⟨r.1, ((heightResult_eq_some acks).mp hr).1⟩

/-- The hash that is elected leads at the height that decides. -/
theorem elected_iff {prehash : Str} : Elected acks prehash ↔
    ∃ height, Decides acks height ∧ Leads acks height prehash := by
  have hnone {height : UInt64} : (∀ other, ¬ Wins acks height other) ↔
      ∀ other, (height, other) ∈ listed acks → share acks height other < 70 := by
    rw [← not_exists, exists_wins_iff]
    push Not
    rfl
  constructor
  · rintro ⟨height, hwins, hbefore⟩
    exact ⟨height, ⟨⟨prehash, hwins.1, hwins.2.1⟩, fun height' hlt => hnone.mp (hbefore height' hlt)⟩,
      hwins.1, hwins.2.2⟩
  · rintro ⟨height, ⟨⟨first, hin, hseventy⟩, hbefore⟩, hleads, hlargest⟩
    have hwins : Wins acks height prehash := by
      refine ⟨hleads, ?_, hlargest⟩
      rcases hlargest first hin with hlt | ⟨heq, -⟩
      · omega
      · omega
    exact ⟨height, hwins, fun height' hlt => hnone.mpr (hbefore height' hlt)⟩

/-- The entries for a hash and a height that repeat one of the same answer. -/
def repetitions (height : UInt64) (prehash : Str) : ℕ :=
  ((acks.filter fun ack => ack.seekHeight = height).map fun ack => ack.prehashes.count prehash - 1).sum

/-- An entry is the only one of its answer or repeats another. -/
theorem count_listed (height : UInt64) (prehash : Str) : (listed acks).count (height, prehash) =
    listers acks height prehash + repetitions acks height prehash := by
  have hpair (h : UInt64) (hashes : List Str) :
      (hashes.map (h, ·)).count (height, prehash) = if h = height then hashes.count prehash else 0 := by
    by_cases heq : h = height
    · rw [if_pos heq, heq]
      exact List.count_map_of_injective hashes (height, ·) (fun _ _ hab => congrArg Prod.snd hab) prehash
    · rw [if_neg heq]
      refine List.count_eq_zero.mpr fun hin => heq ?_
      obtain ⟨hash, -, hhash⟩ := List.mem_map.mp hin
      exact congrArg Prod.fst hhash
  induction acks with
  | nil => rfl
  | cons ack acks ih =>
    rw [listed, List.flatMap_cons, List.count_append, hpair, ← listed, ih, listers, listers, repetitions, repetitions,
      List.countP_cons, List.filter_cons]
    by_cases heq : ack.seekHeight = height
    · by_cases hin : prehash ∈ ack.prehashes
      · have := List.count_pos_iff.mpr hin
        simp [heq, hin]
        omega
      · simp [heq, hin, List.count_eq_zero.mpr hin]
    · simp [heq]

/-- The height asked for gives the hash, but without the repetitions it would not have 70 percent. -/
def LiftedByRepetition (seekHeight height : UInt64) (prehash : Str) : Prop :=
  height = seekHeight ∧
    100 * ((listed acks).count (height, prehash) - repetitions acks height prehash) < 70 * acks.length

/-- A hash that is returned is listed for the height asked for by 70 percent of the answers. -/
def SeekVoted (seekHeight : UInt64) : Prop := (seekPreHashByNode acks).1 ≠ [] →
  70 * acks.length ≤ 100 * listers acks seekHeight (seekPreHashByNode acks).1

end Votes

/-- Seventy percent as they are computed are seventy percent: the rounding is too fine to matter. -/
theorem le_of_seventy_le_percentage {count succentCount : ℕ} (hpos : 0 < succentCount) (hbound : succentCount < 2 ^ 48)
    (h : 70 ≤ percentage count succentCount) : 70 * succentCount ≤ 100 * count := by
  have hfloor : 70 ≤ ⌊toDouble (toDouble (count / succentCount) * 100)⌋₊ := h.trans (Nat.mod_le _ _)
  have hseventy : (70 : ℚ) ≤ toDouble (toDouble (count / succentCount) * 100) := by
    exact_mod_cast (Nat.le_floor_iff' (by decide)).mp hfloor
  rcases Nat.eq_zero_or_pos count with rfl | hcount
  · rw [Nat.cast_zero, zero_div, toDouble_zero, zero_mul, toDouble_zero] at hseventy
    norm_num at hseventy
  have hn : (0 : ℚ) < succentCount := Nat.cast_pos.mpr hpos
  have hquot : (0 : ℚ) < count / succentCount := div_pos (Nat.cast_pos.mpr hcount) hn
  -- each of the two operations rounds up by one part in `2 ^ 53` at most
  have hfirst := toDouble_le hquot
  have hsecond := toDouble_le (mul_pos (toDouble_pos hquot) (by norm_num : (0 : ℚ) < 100))
  have hall : (70 : ℚ) ≤ 100 * (count / succentCount) * (1 + 1 / 2 ^ 51) := by
    linarith
  have hscaled : (70 : ℚ) * succentCount ≤ 100 * count * (1 + 1 / 2 ^ 51) := by
    have hcancel : (count / succentCount : ℚ) * succentCount = count := div_mul_cancel₀ _ hn.ne'
    calc (70 : ℚ) * succentCount ≤ 100 * (count / succentCount) * (1 + 1 / 2 ^ 51) * succentCount :=
          mul_le_mul_of_nonneg_right hall hn.le
      _ = 100 * (count / succentCount * succentCount) * (1 + 1 / 2 ^ 51) := by ring
      _ = 100 * count * (1 + 1 / 2 ^ 51) := by rw [hcancel]
  by_contra hlt
  have hgap : (100 * count + 10 : ℚ) ≤ 70 * succentCount := by
    have hnat : 100 * count + 10 ≤ 70 * succentCount := by omega
    exact_mod_cast hnat
  have hsmall : (succentCount : ℚ) < 2 ^ 48 := by exact_mod_cast hbound
  linarith

/-- An answer is about one height. -/
theorem listers_add_le (acks : List SeekPreHashByHightAck) {height height' : UInt64} (hne : height ≠ height')
    (prehash : Str) : listers acks height prehash + listers acks height' prehash ≤ acks.length := by
  refine SortedMap.countP_add_countP_le fun ack _ h h' => hne ?_
  exact (of_decide_eq_true h).1.symm.trans (of_decide_eq_true h').1

/-- Where another height decides and no answer repeats the hash that leads there, it is returned without its
    votes. -/
theorem not_seekVoted_of_other_height {acks : List SeekPreHashByHightAck} {seekHeight height : UInt64}
    {prehash : Str} (hbound : acks.length < 2 ^ 48) (hdecides : Decides acks height)
    (hleads : Leads acks height prehash) (hsome : prehash ≠ []) (hother : height ≠ seekHeight)
    (honce : repetitions acks height prehash = 0) : ¬ SeekVoted acks seekHeight := by
  intro hvoted
  have hret := (seekPreHashByNode_iff acks hsome).mpr ((elected_iff acks).mpr ⟨height, hdecides, hleads⟩)
  have hvotes := hvoted (hret ▸ hsome)
  rw [hret] at hvotes
  obtain ⟨first, hin, hseventy⟩ := hdecides.1
  have hpos : 0 < acks.length := by
    refine List.length_pos_iff.mpr ?_
    rintro rfl
    cases hin
  have hshare : 70 ≤ share acks height prehash := by
    rcases hleads.2 first hin with hlt | ⟨heq, -⟩
    · omega
    · omega
  rw [share] at hshare
  split_ifs at hshare with hmany
  · have hcount := le_of_seventy_le_percentage hpos hbound hshare
    rw [count_listed, honce, Nat.add_zero] at hcount
    have hboth := listers_add_le acks hother prehash
    omega
  · omega

/-- The answers are about the height asked for, and list no hash twice. -/
structure Regular (acks : List SeekPreHashByHightAck) (seekHeight : UInt64) : Prop where
  asked : ∀ ack ∈ acks, ack.seekHeight = seekHeight
  once : ∀ ack ∈ acks, ack.prehashes.Nodup

/-- Then a hash is counted once for each answer that lists it. -/
theorem count_listed_le {acks : List SeekPreHashByHightAck} {seekHeight : UInt64} (h : Regular acks seekHeight)
    (height : UInt64) (prehash : Str) :
    (listed acks).count (height, prehash) ≤ listers acks seekHeight prehash := by
  have hnodup : ∀ ack ∈ acks, (ack.prehashes.map fun hash => (ack.seekHeight, hash)).Nodup := fun ack hack =>
    (h.once ack hack).map fun a b hab => congrArg Prod.snd hab
  rw [listed, SortedMap.count_flatMap_of_nodup _ _ hnodup, listers]
  refine List.countP_mono_left fun ack hack hin => ?_
  obtain ⟨hash, hhash, heq⟩ := List.mem_map.mp (List.contains_iff_mem.mp hin)
  obtain rfl : hash = prehash := congrArg Prod.snd heq
  exact decide_eq_true ⟨h.asked ack hack, hhash⟩

/-- With such answers a hash that is returned has its votes. -/
theorem seekVoted_of_regular {acks : List SeekPreHashByHightAck} {seekHeight : UInt64} (h : Regular acks seekHeight)
    (hbound : acks.length < 2 ^ 48) : SeekVoted acks seekHeight := by
  intro hsome
  obtain ⟨height, ⟨hin, hseventy, -⟩, -⟩ := (seekPreHashByNode_iff acks hsome).mp rfl
  have hpos : 0 < acks.length := by
    refine List.length_pos_iff.mpr ?_
    rintro rfl
    cases hin
  rw [share] at hseventy
  split_ifs at hseventy with hmany
  · have hcount := count_listed_le h height (seekPreHashByNode acks).1
    have := le_of_seventy_le_percentage hpos hbound hseventy
    omega
  · omega

end Tfs.Ca.SeekPreHash
