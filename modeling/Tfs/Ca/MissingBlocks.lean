import Tfs.Ca.BlockHelper
import Tfs.Lib.SearchTree

/-! The blocks that other nodes are asked for (`_missingBlocks` in `ca/block_helper.h`).

    `MissingBlock::operator<` calls two entries of one hash equal and goes by their times otherwise. Two
    entries of different hashes at one time are then equal too, and an entry can lie between two of
    another hash; only where neither happens (`Separated`) is this an order, and the set has one
    entry for each hash. -/

namespace Tfs.Ca
open SearchTree

/-! ### The source -/

/-- `MissingBlock`. -/
structure MissingBlock where
  hash : Str
  time : UInt64
  txOrBlock : Bool
  triggerCount : UInt64
  deriving DecidableEq

namespace MissingBlock

/-- `MissingBlock(hash, time, txOrBlock)`. -/
def new (hash : Str) (time : UInt64) (txOrBlock : Bool) : MissingBlock := ⟨hash, time, txOrBlock, 0⟩

/-- `operator<`. -/
def Less (left right : MissingBlock) : Prop :=
  if left.hash = right.hash then False else left.time < right.time

instance : DecidableRel Less := fun left right =>
  inferInstanceAs (Decidable (if left.hash = right.hash then False else left.time < right.time))

theorem less_iff {a b : MissingBlock} : a.Less b ↔ a.hash ≠ b.hash ∧ a.time < b.time := by
  rw [Less]
  split_ifs with h
  · exact iff_of_false id fun hand => hand.1 h
  · exact (and_iff_right h).symm

end MissingBlock

/-- `std::set<MissingBlock>`. -/
abbrev MissingBlockSet := BinaryTree MissingBlock

section Source
variable {δ : Type} (env : HelperEnv δ) (balance : Balance MissingBlock)

/-- What `AddPendingBlock` inserts. -/
def missingPrev (db : δ) (nowTime : UInt64) (block : CBlock) : Option MissingBlock :=
  match env.getBlockTop db with
  | none => none
  | some selfNodeHeight =>
    if block.height.toUInt64 > selfNodeHeight + 3 then none
    else some (.new block.prevHash nowTime false)

/-- An entry has the time it is inserted at. -/
theorem missingPrev_time {db : δ} {nowTime : UInt64} {block : CBlock} {entry : MissingBlock}
    (h : missingPrev env db nowTime block = some entry) : entry.time = nowTime := by
  rw [missingPrev] at h
  split at h
  · cases h
  · split_ifs at h
    cases h
    rfl

/-- `_missingBlocks` after `AddPendingBlock`. -/
def addMissingPrev (db : δ) (nowTime : UInt64) (missingBlocks : MissingBlockSet) (block : CBlock) :
    MissingBlockSet :=
  match missingPrev env db nowTime block with
  | none => missingBlocks
  | some entry => insert MissingBlock.Less balance missingBlocks entry

/-- A run of `AddPendingBlock` is a row of insertions. -/
theorem foldl_addMissingPrev (calls : List (δ × UInt64 × CBlock)) :
    calls.foldl (fun missingBlocks c => addMissingPrev env balance c.1 c.2.1 missingBlocks c.2.2) .nil =
      insertAll MissingBlock.Less balance (calls.filterMap fun c => missingPrev env c.1 c.2.1 c.2.2) := by
  rw [insertAll, List.foldl_filterMap]
  congr 1
  funext missingBlocks c
  rw [addMissingPrev]
  cases missingPrev env c.1 c.2.1 c.2.2 <;> rfl

end Source

/-! ### The order -/

namespace MissingBlock

/-- Entries of different hashes have different times, and none lies between two of another hash. -/
structure Separated (entries : List MissingBlock) : Prop where
  time_ne : ∀ a ∈ entries, ∀ b ∈ entries, a.hash ≠ b.hash → a.time ≠ b.time
  not_between : ∀ a ∈ entries, ∀ b ∈ entries, ∀ c ∈ entries,
    a.hash = c.hash → a.hash ≠ b.hash → ¬ (a.time < b.time ∧ b.time < c.time)

/-- The entries are compared by a strict weak ordering, as `std::set` asks for. -/
def IsOrdered (entries : List MissingBlock) : Prop := IsStrictWeakOrder _ (Subrel Less (· ∈ entries))

variable {entries : List MissingBlock}

/-- Neither of two entries is less. -/
theorem incomp_iff {a b : MissingBlock} : ¬ a.Less b ∧ ¬ b.Less a ↔ a.hash = b.hash ∨ a.time = b.time := by
  rw [less_iff, less_iff]
  constructor
  · rintro ⟨hab, hba⟩
    by_cases hhash : a.hash = b.hash
    · exact .inl hhash
    · have hle : b.time ≤ a.time := UInt64.not_lt.mp fun hlt => hab ⟨hhash, hlt⟩
      have hge : a.time ≤ b.time := UInt64.not_lt.mp fun hlt => hba ⟨Ne.symm hhash, hlt⟩
      exact .inr (UInt64.le_antisymm hge hle)
  · rintro (hhash | htime)
    · exact ⟨fun h => h.1 hhash, fun h => h.1 hhash.symm⟩
    · exact ⟨fun h => UInt64.lt_irrefl _ (htime ▸ h.2), fun h => UInt64.lt_irrefl _ (htime ▸ h.2)⟩

/-- Separated entries are equal to the comparison exactly if their hashes are. -/
theorem Separated.incomp_iff (h : Separated entries) {a b : MissingBlock}
    (ha : a ∈ entries) (hb : b ∈ entries) : ¬ a.Less b ∧ ¬ b.Less a ↔ a.hash = b.hash := by
  rw [MissingBlock.incomp_iff, or_iff_left_iff_imp]
  intro htime
  by_contra hhash
  exact h.time_ne a ha b hb hhash htime

theorem Separated.isOrdered (h : Separated entries) : IsOrdered entries where
  irrefl a hlt := (less_iff.mp hlt).1 rfl
  trans a b c hab hbc := by
    obtain ⟨hab, htab⟩ := less_iff.mp hab
    obtain ⟨-, htbc⟩ := less_iff.mp hbc
    refine less_iff.mpr ⟨fun hac => ?_, UInt64.lt_trans htab htbc⟩
    exact h.not_between a.1 a.2 b.1 b.2 c.1 c.2 hac hab ⟨htab, htbc⟩
  incomp_trans a b c hab hbc := by
    rw [subrel_val, subrel_val, h.incomp_iff a.2 b.2] at hab
    rw [subrel_val, subrel_val, h.incomp_iff b.2 c.2] at hbc
    rw [subrel_val, subrel_val, h.incomp_iff a.2 c.2]
    exact hab.trans hbc

/-! ### The set -/

/-- The entries come with times that do not decrease. -/
abbrev InTime (entries : List MissingBlock) : Prop := entries.Pairwise fun a b => a.time ≤ b.time

/-- There is exactly one entry for each hash that was inserted. -/
def OnePerHash (entries : List MissingBlock) (missingBlocks : MissingBlockSet) : Prop :=
  ((inorder missingBlocks).map hash).Nodup ∧
    ∀ h, h ∈ (inorder missingBlocks).map hash ↔ h ∈ entries.map hash

variable (balance : Balance MissingBlock)

/-- `_missingBlocks` after these insertions. -/
abbrev inserted (entries : List MissingBlock) : MissingBlockSet := insertAll Less balance entries

/-- A later entry goes to the end of the set, or nowhere. -/
theorem inorder_insert {missingBlocks : MissingBlockSet} {k : MissingBlock}
    (h : ∀ x ∈ inorder missingBlocks, x.time ≤ k.time) : inorder (insert Less balance missingBlocks k) =
      if ∀ b ∈ (inorder missingBlocks).getLast?, b.Less k then inorder missingBlocks ++ [k]
      else inorder missingBlocks :=
  inorder_insert_of_not_lt balance fun x hx hlt => UInt64.not_le.mpr (less_iff.mp hlt).2 (h x hx)

/-- The last of a list in time is the latest. -/
theorem time_le_last {l : List MissingBlock} (h : l.Pairwise fun a b => a.time < b.time) {x b : MissingBlock}
    (hx : x ∈ l) (hb : b ∈ l.getLast?) : x = b ∨ x.time < b.time := by
  obtain ⟨front, rfl⟩ : ∃ front, l = front ++ [b] := List.getLast?_eq_some_iff.mp hb
  rcases List.mem_append.mp hx with hx | hx
  · exact .inr ((List.pairwise_append.mp h).2.2 x hx b List.mem_cons_self)
  · exact .inl (List.mem_singleton.mp hx)

/-- The set holds some of the entries, each later than the one before it. -/
theorem inserted_spec (h : InTime entries) : (∀ x ∈ inorder (inserted balance entries), x ∈ entries) ∧
    (inorder (inserted balance entries)).Pairwise fun a b => a.time < b.time := by
  induction entries using List.reverseRecOn with
  | nil => exact ⟨fun x hx => hx, List.Pairwise.nil⟩
  | append_singleton entries k ih =>
    obtain ⟨hentries, -, hk⟩ := List.pairwise_append.mp h
    obtain ⟨hmem, hsorted⟩ := ih hentries
    have hle : ∀ x ∈ inorder (inserted balance entries), x.time ≤ k.time := fun x hx =>
      hk x (hmem x hx) k List.mem_cons_self
    rw [inserted, insertAll_concat, inorder_insert balance hle]
    split_ifs with hlast
    · refine ⟨fun x hx => ?_,
        List.pairwise_append.mpr ⟨hsorted, List.pairwise_singleton _ _, fun x hx y hy => ?_⟩⟩
      · rcases List.mem_append.mp hx with hx | hx
        · exact List.mem_append_left _ (hmem x hx)
        · exact List.mem_append_right _ hx
      · obtain rfl := List.mem_singleton.mp hy
        have hne : inorder (inserted balance entries) ≠ [] := List.ne_nil_of_mem hx
        obtain ⟨-, hlt⟩ := less_iff.mp (hlast _ (List.getLast?_eq_some_getLast hne))
        rcases time_le_last hsorted hx (List.getLast?_eq_some_getLast hne) with heq | hbefore
        · rwa [heq]
        · exact UInt64.lt_trans hbefore hlt
    · exact ⟨fun x hx => List.mem_append_left _ (hmem x hx), hsorted⟩

/-- What one more insertion does. -/
theorem inorder_inserted_concat (entries : List MissingBlock) (k : MissingBlock)
    (h : InTime (entries ++ [k])) :
    inorder (inserted balance (entries ++ [k])) =
      if ∀ b ∈ (inorder (inserted balance entries)).getLast?, b.Less k then
        inorder (inserted balance entries) ++ [k]
      else inorder (inserted balance entries) := by
  obtain ⟨hentries, -, hk⟩ := List.pairwise_append.mp h
  rw [inserted, insertAll_concat, inorder_insert balance fun x hx =>
    hk x ((inserted_spec balance hentries).1 x hx) k List.mem_cons_self]

/-- Part of separated entries is separated. -/
theorem Separated.of_subset {part : List MissingBlock} (h : Separated entries) (hsub : part ⊆ entries) :
    Separated part where
  time_ne a ha b hb := h.time_ne a (hsub ha) b (hsub hb)
  not_between a ha b hb c hc := h.not_between a (hsub ha) b (hsub hb) c (hsub hc)

/-- Separated entries are kept once for each hash. -/
theorem Separated.onePerHash (h : Separated entries) (htime : InTime entries) :
    OnePerHash entries (inserted balance entries) := by
  induction entries using List.reverseRecOn with
  | nil => exact ⟨List.nodup_nil, fun _ => Iff.rfl⟩
  | append_singleton entries k ih =>
    obtain ⟨hentries, -, hk⟩ := List.pairwise_append.mp htime
    obtain ⟨hnodup, hhash⟩ := ih (h.of_subset (List.subset_append_left _ _)) hentries
    obtain ⟨hmem, hsorted⟩ := inserted_spec balance hentries
    have hle : ∀ x ∈ inorder (inserted balance entries), x.time ≤ k.time := fun x hx =>
      hk x (hmem x hx) k List.mem_cons_self
    have hin : ∀ {x}, x ∈ inorder (inserted balance entries) → x ∈ entries ++ [k] := fun hx =>
      List.mem_append_left _ (hmem _ hx)
    have hkin : k ∈ entries ++ [k] := List.mem_append_right _ List.mem_cons_self
    rw [OnePerHash, inorder_inserted_concat balance entries k htime]
    by_cases hold : k.hash ∈ entries.map hash
    · -- the last of the set is the entry of this hash, or else it lies between that one and the new one
      obtain ⟨e, he, hehash⟩ := List.mem_map.mp ((hhash _).mpr hold)
      have hne : inorder (inserted balance entries) ≠ [] := List.ne_nil_of_mem he
      have hnot : ¬ ∀ b ∈ (inorder (inserted balance entries)).getLast?, b.Less k := by
        intro hlast
        have hb := List.getLast_mem hne
        obtain ⟨hbk, hlt⟩ := less_iff.mp (hlast _ (List.getLast?_eq_some_getLast hne))
        rcases time_le_last hsorted he (List.getLast?_eq_some_getLast hne) with heq | hbefore
        · exact hbk (heq ▸ hehash)
        · refine h.not_between e (hin he) _ (hin hb) k hkin hehash (fun heq => hbk ?_) ⟨hbefore, hlt⟩
          rw [← heq, hehash]
      rw [if_neg hnot]
      refine ⟨hnodup, fun x => ?_⟩
      rw [hhash, List.map_append, List.mem_append, List.map_singleton, List.mem_singleton]
      exact (or_iff_left_of_imp fun heq => heq ▸ hold).symm
    · have hnew : ∀ b ∈ (inorder (inserted balance entries)).getLast?, b.Less k := by
        intro b hb
        have hb := List.mem_of_getLast? hb
        have hbk : b.hash ≠ k.hash := fun heq => hold (heq ▸ List.mem_map_of_mem (hmem b hb))
        exact less_iff.mpr ⟨hbk, UInt64.lt_of_le_of_ne (hle b hb) (h.time_ne b (hin hb) k hkin hbk)⟩
      rw [if_pos hnew, List.map_append, List.map_singleton]
      refine ⟨?_, fun x => ?_⟩
      · rw [← List.concat_eq_append, List.nodup_concat]
        exact ⟨fun hin => hold ((hhash _).mp hin), hnodup⟩
      · rw [List.mem_append, hhash, List.map_append, List.mem_append, List.map_singleton]

/-- A run of `AddPendingBlock` whose insertions are separated: each missing predecessor is there once. -/
theorem addMissingPrev_onePerHash {δ : Type} (env : HelperEnv δ) {calls : List (δ × UInt64 × CBlock)}
    (htime : calls.Pairwise fun a b => a.2.1 ≤ b.2.1)
    (h : Separated (calls.filterMap fun c => missingPrev env c.1 c.2.1 c.2.2)) :
    OnePerHash (calls.filterMap fun c => missingPrev env c.1 c.2.1 c.2.2)
      (calls.foldl (fun missingBlocks c => addMissingPrev env balance c.1 c.2.1 missingBlocks c.2.2) .nil) := by
  rw [foldl_addMissingPrev]
  refine h.onePerHash balance (htime.filterMap _ fun a b hab x hx y hy => ?_)
  rwa [missingPrev_time env hx, missingPrev_time env hy]

/-- Entries of one time have one hash where the order holds and no hash is lost. -/
theorem IsOrdered.separated (h : IsOrdered entries) (htime : InTime entries)
    (hone : OnePerHash entries (inserted balance entries)) : Separated entries where
  not_between a ha b hb c hc hac hab hbetween := by
    have hless : a.Less c := h.toIsTrans.trans ⟨a, ha⟩ ⟨b, hb⟩ ⟨c, hc⟩ (less_iff.mpr ⟨hab, hbetween.1⟩)
      (less_iff.mpr ⟨fun hbc => hab (hac.trans hbc.symm), hbetween.2⟩)
    exact (less_iff.mp hless).1 hac
  time_ne a ha b hb hab heq := by
    obtain ⟨hmem, hsorted⟩ := inserted_spec balance htime
    obtain ⟨a', ha', hahash⟩ := List.mem_map.mp ((hone.2 _).mpr (List.mem_map_of_mem ha))
    obtain ⟨b', hb', hbhash⟩ := List.mem_map.mp ((hone.2 _).mpr (List.mem_map_of_mem hb))
    -- what is in the set for the one hash is equal to the other entry, which has the same time
    have hincomp : ∀ x y z (hx : x ∈ entries) (hy : y ∈ entries) (hz : z ∈ entries), x.hash = y.hash →
        y.time = z.time → x.hash ≠ z.hash → x.time = z.time := fun x y z hx hy hz hxy hyz hxz =>
      (incomp_iff.mp (h.incomp_trans ⟨x, hx⟩ ⟨y, hy⟩ ⟨z, hz⟩ (incomp_iff.mpr (.inl hxy))
        (incomp_iff.mpr (.inr hyz)))).resolve_left hxz
    have hta : a'.time = b.time := hincomp a' a b (hmem _ ha') ha hb hahash heq (hahash ▸ hab)
    have htb : b'.time = a'.time := hincomp b' b a' (hmem _ hb') hb (hmem _ ha') hbhash hta.symm
      (by rw [hbhash, hahash]; exact hab.symm)
    have hnodup : ((inorder (inserted balance entries)).map time).Nodup :=
      List.pairwise_map.mpr (hsorted.imp fun hlt => UInt64.ne_of_lt hlt)
    have hsame : a' = b' := List.inj_on_of_nodup_map hnodup ha' hb' htb.symm
    exact hab (by rw [← hahash, ← hbhash, hsame])

/-- For entries whose times do not decrease: they are ordered and the set holds one entry for each
    hash all along, exactly when they are separated. -/
theorem missingBlocks_iff (entries : List MissingBlock) (htime : InTime entries) :
    (IsOrdered entries ∧ ∀ done, done <+: entries → OnePerHash done (inserted balance done)) ↔
      Separated entries := by
  constructor
  · rintro ⟨hordered, hone⟩
    exact hordered.separated balance htime (hone entries List.prefix_rfl)
  · intro h
    exact ⟨h.isOrdered, fun done hdone =>
      (h.of_subset hdone.subset).onePerHash balance (htime.sublist hdone.sublist)⟩

/-- Two hashes, the second of them twice. -/
theorem missingBlocks_pair : IsOrdered [new [65] 1 false, new [66] 2 true, new [66] 3 false] ∧
    ∀ done, done <+: [new [65] 1 false, new [66] 2 true, new [66] 3 false] →
      OnePerHash done (inserted .none done) :=
  (missingBlocks_iff .none _ (by decide)).mpr ⟨by decide, by decide⟩

/-- One hash is missed, another one, and the first again: it is in the set twice. Over all entries
    `operator<` is no order, for the same three. -/
theorem hash_twice : ¬ IsStrictWeakOrder MissingBlock Less ∧ ∀ balance : Balance MissingBlock,
    ¬ ∀ entries, InTime entries → OnePerHash entries (inserted balance entries) := by
  refine ⟨fun h => ?_, fun balance h => ?_⟩
  · have hless := h.toIsTrans.trans (new [65] 1 false) (new [66] 2 false) (new [65] 3 false)
      (by decide) (by decide)
    exact absurd hless (by decide)
  · have hempty : inorder (inserted balance []) = [] := rfl
    have hone := inorder_inserted_concat balance [] (new [65] 1 false) (by decide)
    rw [hempty, if_pos (by decide), List.nil_append] at hone
    have htwo := inorder_inserted_concat balance [new [65] 1 false] (new [66] 2 false) (by decide)
    rw [hone, if_pos (by decide)] at htwo
    have hthree := inorder_inserted_concat balance [new [65] 1 false, new [66] 2 false]
      (new [65] 3 false) (by decide)
    rw [← List.singleton_append, htwo, if_pos (by decide)] at hthree
    have hnodup := (h [new [65] 1 false, new [66] 2 false, new [65] 3 false] (by decide)).1
    have hset : inorder (inserted balance [new [65] 1 false, new [66] 2 false, new [65] 3 false]) =
        [new [65] 1 false, new [66] 2 false, new [65] 3 false] := hthree
    rw [hset] at hnodup
    exact absurd hnodup (by decide)

/-- Two hashes at one time: the second is not inserted. -/
example : (inorder (inserted .none [new [65] 1 false, new [66] 1 false])).map hash = [[65]] := by decide

end MissingBlock

end Tfs.Ca
