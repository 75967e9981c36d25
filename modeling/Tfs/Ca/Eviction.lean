import Tfs.Ca.BroadcastPool

/-! What a pooled block gives way to.

    `AddBroadcastBlock` takes a conflicting block out of the pool before it has asked the database about
    the new one. Nothing that happens later puts it back, so that each way of dropping the new block
    leaves the pool without both. -/

namespace Tfs.Ca

variable {δ : Type} {env : HelperEnv δ} {h : BlockHelper} {block : CBlock}

/-! ### Blocks the helper holds -/

/-- The block waits in `_pendingBlocks`. -/
def Waits (pendingBlocks : SortedMap ℕ (List (Str × CBlock))) (block : CBlock) : Prop :=
  ∃ height waiting, pendingBlocks.find height = some waiting ∧ block ∈ waiting.map Prod.snd

/-- The block is in `_broadcastBlocks` or in `_pendingBlocks`. -/
def BlockHelper.Holds (h : BlockHelper) (block : CBlock) : Prop :=
  block ∈ h.broadcastBlocks ∨ Waits h.pendingBlocks block

/-- `_pendingBlocks` takes the block while it has fewer than a thousand heights and the top can be
    read. -/
theorem waits_addPendingBlock (db : δ) (pendingBlocks : SortedMap ℕ (List (Str × CBlock)))
    (block : CBlock) : Waits (addPendingBlock env db pendingBlocks block) block ↔
      Waits pendingBlocks block ∨
        (env.getBlockTop db).isSome ∧ pendingBlocks.entries.length < 1000 := by
  rw [addPendingBlock]
  split_ifs with hroom
  · refine iff_of_true ?_ (.inr hroom)
    have hfind := SortedMap.find_upsert pendingBlocks (heightKey block) (heightKey block)
      fun value => value.getD [] ++ [(block.prevHash, block)]
    rw [if_pos rfl] at hfind
    exact ⟨_, _, hfind, by simp⟩
  · exact (or_iff_left hroom).symm

/-! ### The condition -/

/-- The block would take a pooled block out: it is new, and the first pooled block it conflicts with is
    later. -/
def Evicts (env : HelperEnv δ) (h : BlockHelper) (block : CBlock) : Prop :=
  h.seen block = false ∧ ∃ curr, h.firstConflict env block = some curr ∧ keepsPlace curr block = false

/-- The contract check lets the block through: it is no contract block, or it waits for no contract
    transaction. -/
def PassesContractCheck (env : HelperEnv δ) (db : δ) (h : BlockHelper) (block : CBlock) : Prop :=
  env.isContractBlock block = true →
    0 ≤ (checkContractBlock env db h.contractBlocks block).ret ∧
      (checkContractBlock env db h.contractBlocks block).contractTxPreHash = []

/-- The database after the contract check, which can roll blocks back. -/
def dbAfterCheck (env : HelperEnv δ) (db : δ) (h : BlockHelper) (block : CBlock) : δ :=
  if env.isContractBlock block then (checkContractBlock env db h.contractBlocks block).db else db

/-- There is a place for the block: in the pool when its predecessor is saved, which takes a height near
    the top that no pooled block has at the same time, and in `_pendingBlocks` otherwise. -/
def HasPlace (env : HelperEnv δ) (db : δ) (h : BlockHelper) (block : CBlock) : Prop :=
  ∃ selfNodeHeight, env.getBlockTop db = some selfNodeHeight ∧ PassesContractCheck env db h block ∧
    if (env.getBlockByBlockHash db block.prevHash).isSome then
      block.height.toUInt64 ≤ selfNodeHeight + 1000 ∧
        ∀ p ∈ h.broadcastBlocks, ¬ (block.height = p.height ∧ block.time = p.time)
    else (env.getBlockTop (dbAfterCheck env db h block)).isSome ∧ h.pendingBlocks.entries.length < 1000

/-- What `askDatabase` answers, in the words of the condition. -/
theorem askDatabase_eq {db : δ} {selfNodeHeight : UInt64}
    (htop : env.getBlockTop db = some selfNodeHeight) :
    (PassesContractCheck env db h block → askDatabase env db h.contractBlocks block =
      (if (env.getBlockByBlockHash db block.prevHash).isSome then
        if block.height.toUInt64 ≤ selfNodeHeight + 1000 then .pool else .dropped else .pending,
        (askDatabase env db h.contractBlocks block).2.1, dbAfterCheck env db h block)) ∧
    (¬ PassesContractCheck env db h block →
      (askDatabase env db h.contractBlocks block).1 = .dropped) := by
  simp only [askDatabase, htop, PassesContractCheck, dbAfterCheck]
  cases hcontract : env.isContractBlock block with
  | false => simp
  | true =>
    simp only [if_true, true_imp_iff]
    constructor
    · rintro ⟨hret, hpre⟩
      rw [if_neg (not_or.mpr ⟨not_lt.mpr hret, not_not.mpr hpre⟩)]
    · intro hnot
      rw [if_pos]
      by_contra hno
      rw [not_or, not_lt, not_not] at hno
      exact hnot hno

theorem place_dropped {db : δ} (hdrop : (askDatabase env db h.contractBlocks block).1 = .dropped) :
    (h.place env db block).1.Holds block ↔ h.Holds block := by
  rw [BlockHelper.place]
  generalize askDatabase env db h.contractBlocks block = asked at hdrop
  obtain ⟨admission, contractBlocks, db'⟩ := asked
  cases hdrop
  exact Iff.rfl

/-- A block that is not in the pool is held after the database has had its say exactly when it was
    waiting already or there is a place for it. -/
theorem place_holds_iff (db : δ) (hout : block ∉ h.broadcastBlocks) :
    (h.place env db block).1.Holds block ↔
      Waits h.pendingBlocks block ∨ HasPlace env db h block := by
  have hheld : h.Holds block ↔ Waits h.pendingBlocks block := or_iff_right hout
  have hdropped (hdrop : (askDatabase env db h.contractBlocks block).1 = .dropped)
      (hno : ¬ HasPlace env db h block) : (h.place env db block).1.Holds block ↔
        Waits h.pendingBlocks block ∨ HasPlace env db h block := by
    rw [place_dropped hdrop, hheld, or_iff_left hno]
  cases htop : env.getBlockTop db with
  | none =>
    refine hdropped (by simp only [askDatabase, htop]) ?_
    rintro ⟨selfNodeHeight, htop', -⟩
    rw [htop] at htop'
    cases htop'
  | some selfNodeHeight =>
    obtain ⟨hpass, hfail⟩ := @askDatabase_eq δ env h block _ _ htop
    by_cases hcheck : PassesContractCheck env db h block
    · have hask := hpass hcheck
      have hplace : HasPlace env db h block ↔ if (env.getBlockByBlockHash db block.prevHash).isSome then
          block.height.toUInt64 ≤ selfNodeHeight + 1000 ∧
            ∀ p ∈ h.broadcastBlocks, ¬ (block.height = p.height ∧ block.time = p.time)
          else (env.getBlockTop (dbAfterCheck env db h block)).isSome ∧
            h.pendingBlocks.entries.length < 1000 := by
        constructor
        · rintro ⟨_, htop', -, hplace⟩
          rw [htop] at htop'
          cases htop'
          exact hplace
        · exact fun hplace => ⟨selfNodeHeight, htop, hcheck, hplace⟩
      by_cases hprev : (env.getBlockByBlockHash db block.prevHash).isSome
      · rw [if_pos hprev] at hask hplace
        by_cases hheight : block.height.toUInt64 ≤ selfNodeHeight + 1000
        · rw [if_pos hheight] at hask
          rw [hplace, and_iff_right hheight, BlockHelper.place, hask]
          simp only [BlockHelper.Holds, StdSet.mem_insert, hout, false_or, true_and, equiv_iff]
          exact or_comm
        · rw [if_neg hheight] at hask
          exact hdropped (by rw [hask]) fun hno => hheight (hplace.mp hno).1
      · rw [if_neg hprev] at hask hplace
        rw [hplace, BlockHelper.place, hask]
        simp only [BlockHelper.Holds, hout, false_or]
        exact waits_addPendingBlock _ _ _
    · refine hdropped (hfail hcheck) ?_
      rintro ⟨_, -, hcheck', -⟩
      exact hcheck hcheck'

/-! ### A replacement for what is taken out -/

/-- `AddBroadcastBlock` takes a conflicting block out of the pool only for a block it holds on return,
    and leaves the pool as it is where it does not hold the block. -/
def EvictionReplaced (env : HelperEnv δ) (db : δ) (h : BlockHelper) (block : CBlock) (status : Bool) :
    Prop :=
  let h' := (addBroadcastBlock env db h block status).1
  (∀ p ∈ h.broadcastBlocks, checkConflict env p block = true → p ∉ h'.broadcastBlocks →
      h'.Holds block) ∧
    (¬ h'.Holds block → h'.broadcastBlocks = h.broadcastBlocks)

/-- Inserting an element that does not get in changes nothing. -/
theorem insertElem_eq_self {α : Type} {lt : α → α → Prop} [DecidableRel lt] [IsTrans α lt] {x y : α} :
    ∀ {l : List α}, l.Pairwise lt → y ∈ l → StdSet.Equiv lt x y → StdSet.insertElem lt x l = l
  | [], _, hy, _ => absurd hy List.not_mem_nil
  | a :: l, hs, hy, heq => by
    obtain ⟨ha, hl⟩ := List.pairwise_cons.mp hs
    have hxa : ¬ lt x a := by
      intro hxa
      rcases List.mem_cons.mp hy with rfl | hy
      · exact heq.1 hxa
      · exact heq.1 (IsTrans.trans _ _ _ hxa (ha y hy))
    rw [StdSet.insertElem, if_neg hxa]
    split_ifs with hax
    · rcases List.mem_cons.mp hy with rfl | hy
      · exact absurd hax heq.2
      · rw [insertElem_eq_self hl hy heq]
    · rfl

/-- A block that takes a pooled one out is not pooled: it would have met itself before. -/
theorem Evicts.not_mem (hev : Evicts env h block) : block ∉ h.broadcastBlocks := by
  obtain ⟨-, curr, hfirst, hkeep⟩ := hev
  intro hmem
  obtain ⟨hconf, before, after, hl, hbefore⟩ := List.find?_eq_some_iff_append.mp hfirst
  have hlater : BlockTimeAscending block curr := keepsPlace_iff.mp hkeep
  have hself : checkConflict env block block = true := by
    simp only [checkConflict, List.any_eq_true, Bool.and_eq_true, decide_eq_true_eq,
      checkConflictTx] at hconf ⊢
    obtain ⟨-, -, -, tx, htx, htype, u, -, hu⟩ := hconf
    exact ⟨tx, htx, htype, tx, htx, htype, u, hu, hu⟩
  have hsorted := h.broadcastBlocks.sorted
  rw [StdSet.mem_def, hl] at hmem
  rw [hl] at hsorted
  rcases List.mem_append.mp hmem with hmem | hmem
  · simpa [hself] using hbefore block hmem
  · rcases List.mem_cons.mp hmem with rfl | hmem
    · exact blockTimeAscending_irrefl _ hlater
    · have hearlier := (List.pairwise_cons.mp (List.pairwise_append.mp hsorted).2.1).1 block hmem
      exact blockTimeAscending_irrefl _ (IsTrans.trans _ _ _ hlater hearlier)

/-- A call whose block takes nothing out leaves the pool as it is unless the block gets in. -/
theorem pool_of_not_evicts (db : δ) (status : Bool) (hev : ¬ Evicts env h block) :
    (addBroadcastBlock env db h block status).1.broadcastBlocks = h.broadcastBlocks ∨
      (addBroadcastBlock env db h block status).1.broadcastBlocks = h.broadcastBlocks.insert block := by
  rw [addBroadcastBlock_pool]
  by_cases hseen : h.seen block
  · exact .inl (if_pos hseen)
  · rw [if_neg hseen]
    cases hfirst : h.firstConflict env block with
    | none =>
      dsimp only
      split_ifs
      · exact .inr rfl
      · exact .inl rfl
    | some curr =>
      have hkeep : keepsPlace curr block = true := by
        by_contra hno
        exact hev ⟨by simpa using hseen, curr, hfirst, by simpa using hno⟩
      exact .inl (if_pos hkeep)

/-- The helper after a call whose block takes a pooled one out. -/
theorem addBroadcastBlock_evicts (db : δ) (status : Bool) (hev : Evicts env h block) :
    ∃ h₁ : BlockHelper, addBroadcastBlock env db h block status = h₁.place env db block ∧
      h₁.broadcastBlocks = h.broadcastBlocks.eraseFirst (fun curr => checkConflict env curr block) ∧
      h₁.pendingBlocks = h.pendingBlocks ∧ h₁.contractBlocks = h.contractBlocks := by
  obtain ⟨hseen, curr, hfirst, hkeep⟩ := hev
  rw [addBroadcastBlock, if_neg (by simp [hseen])]
  dsimp only
  rw [show BlockHelper.firstConflict env { h with
    duplicateChecker := h.duplicateChecker.set block.hash (status, block.time) } block = some curr
    from hfirst]
  dsimp only
  rw [if_neg (by simp [hkeep])]
  exact ⟨_, rfl, rfl, rfl, rfl⟩

/-- The pool gets a replacement for what it loses exactly when a block that takes a pooled one out is
    waiting already or finds a place. -/
theorem eviction_replaced_iff (env : HelperEnv δ) (db : δ) (h : BlockHelper) (block : CBlock)
    (status : Bool) : EvictionReplaced env db h block status ↔
      (Evicts env h block → Waits h.pendingBlocks block ∨ HasPlace env db h block) := by
  have hreplaced : EvictionReplaced env db h block status ↔
      (∀ p ∈ h.broadcastBlocks, checkConflict env p block = true →
        p ∉ (addBroadcastBlock env db h block status).1.broadcastBlocks →
          (addBroadcastBlock env db h block status).1.Holds block) ∧
      (¬ (addBroadcastBlock env db h block status).1.Holds block →
        (addBroadcastBlock env db h block status).1.broadcastBlocks = h.broadcastBlocks) := Iff.rfl
  rw [hreplaced]
  by_cases hev : Evicts env h block
  · obtain ⟨h₁, hadd, hpool, hpending, hcontract⟩ := addBroadcastBlock_evicts db status hev
    have hout := hev.not_mem
    obtain ⟨-, curr, hfirst, hkeep⟩ := id hev
    have hlater : BlockTimeAscending block curr := keepsPlace_iff.mp hkeep
    have hcurr : curr ∈ h.broadcastBlocks := List.mem_of_find?_eq_some hfirst
    have hconf : checkConflict env curr block = true := by
      simpa using (List.find?_eq_some_iff_append.mp hfirst).1
    have hrest : ∀ {p}, p ∈ h₁.broadcastBlocks ↔ p ∈ h.broadcastBlocks ∧ p ≠ curr := by
      rw [hpool]
      exact StdSet.mem_eraseFirst blockTimeAscending_irrefl hfirst
    have hplace : HasPlace env db h₁ block ↔ HasPlace env db h block := by
      have hroom : (∀ p ∈ h₁.broadcastBlocks, ¬ (block.height = p.height ∧ block.time = p.time)) ↔
          ∀ p ∈ h.broadcastBlocks, ¬ (block.height = p.height ∧ block.time = p.time) := by
        constructor
        · intro hall p hp heq
          by_cases hpc : p = curr
          · rw [hpc] at heq
            exact (equiv_iff.mpr heq).1 hlater
          · exact hall p (hrest.mpr ⟨hp, hpc⟩) heq
        · exact fun hall p hp => hall p (hrest.mp hp).1
      simp only [HasPlace, PassesContractCheck, dbAfterCheck, hcontract, hpending, hroom]
    have hgone : curr ∉ (addBroadcastBlock env db h block status).1.broadcastBlocks := by
      rw [hadd, place_broadcastBlocks]
      have hne : curr ∉ h₁.broadcastBlocks := fun hmem => (hrest.mp hmem).2 rfl
      split_ifs
      · rw [StdSet.mem_insert]
        rintro (hmem | ⟨rfl, -⟩)
        · exact hne hmem
        · exact blockTimeAscending_irrefl _ hlater
      · exact hne
    have hholds : (addBroadcastBlock env db h block status).1.Holds block ↔
        Waits h.pendingBlocks block ∨ HasPlace env db h block := by
      rw [hadd, place_holds_iff db fun hmem => hout (hrest.mp hmem).1, hpending, hplace]
    rw [hholds]
    constructor
    · exact fun hrep _ => hrep.1 curr hcurr hconf hgone
    · exact fun hyes => ⟨fun _ _ _ _ => hyes hev, fun hno => absurd (hyes hev) hno⟩
  · refine iff_of_true ⟨fun p hp hc hgone => ?_, fun hno => ?_⟩ fun hyes => absurd hyes hev
    · rcases pool_of_not_evicts db status hev with heq | heq <;> rw [heq] at hgone
      · exact absurd hp hgone
      · exact absurd (StdSet.mem_insert_of_mem hp) hgone
    · rcases pool_of_not_evicts db status hev with heq | heq
      · exact heq
      · rw [heq]
        by_cases hsep : ∀ p ∈ h.broadcastBlocks, ¬ StdSet.Equiv BlockTimeAscending block p
        · refine absurd (.inl ?_) hno
          rw [heq]
          exact StdSet.mem_insert_self hsep
        · push Not at hsep
          obtain ⟨p, hp, hequiv⟩ := hsep
          exact StdSet.eq_of_elems (insertElem_eq_self h.broadcastBlocks.sorted hp hequiv)

/-- A pooled block has the height and time of the new one, and another one spends its output: that one
    is taken out, and the new block does not get in. -/
theorem eviction_without_replacement : ¬ EvictionReplaced sampleHelperEnv ()
    (runArrivals sampleHelperEnv .fresh [⟨(), sampleSpend "c" 6 100 ["v"], false⟩,
      ⟨(), sampleSpend "b" 6 101 ["u"], false⟩])
    (sampleSpend "a" 6 100 ["u"]) false := by
  intro hrep
  have hbefore : (runArrivals sampleHelperEnv .fresh [⟨(), sampleSpend "c" 6 100 ["v"], false⟩,
      ⟨(), sampleSpend "b" 6 101 ["u"], false⟩]).broadcastBlocks.elems
      = [sampleSpend "c" 6 100 ["v"], sampleSpend "b" 6 101 ["u"]] := by decide
  have hafter : (addBroadcastBlock sampleHelperEnv () (runArrivals sampleHelperEnv .fresh
      [⟨(), sampleSpend "c" 6 100 ["v"], false⟩, ⟨(), sampleSpend "b" 6 101 ["u"], false⟩])
      (sampleSpend "a" 6 100 ["u"]) false).1.broadcastBlocks.elems
      = [sampleSpend "c" 6 100 ["v"]] := by decide
  rcases hrep.1 (sampleSpend "b" 6 101 ["u"]) (by rw [StdSet.mem_def, hbefore]; simp) (by decide)
    (by rw [StdSet.mem_def, hafter, List.mem_singleton]; decide) with hheld | ⟨_, _, hfind, -⟩
  · rw [StdSet.mem_def, hafter, List.mem_singleton] at hheld
    revert hheld
    decide
  · cases hfind

end Tfs.Ca
