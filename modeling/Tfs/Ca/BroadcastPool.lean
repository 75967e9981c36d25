import Tfs.Ca.BlockHelper
import Tfs.Lib.Runs

/-! What the pool of broadcast blocks guarantees.

    A new block is weighed against the first pooled block it conflicts with and against no other, and
    that pooled block is taken out before the database has agreed to the new one. The pool stays free of
    conflicts exactly as long as no block that gets in conflicts with two pooled ones; of a conflicting
    pair the earlier block survives in both orders exactly when the database agrees to it. -/

namespace Tfs.Ca

variable {δ : Type} {env : HelperEnv δ} {h : BlockHelper}

/-! ### Safety of the pool -/

/-- A call of `AddBroadcastBlock`, with the database as it is then. -/
structure Arrival (δ : Type) where
  db : δ
  block : CBlock
  status : Bool

/-- The helper after a call. -/
def arrive (env : HelperEnv δ) (h : BlockHelper) (a : Arrival δ) : BlockHelper :=
  (addBroadcastBlock env a.db h a.block a.status).1

/-- The helper after a sequence of calls. -/
def runArrivals (env : HelperEnv δ) (h : BlockHelper) (arrivals : List (Arrival δ)) : BlockHelper :=
  arrivals.foldl (arrive env) h

/-- The block of a call gets into the pool: it is new, no pooled block it meets keeps its place, the
    database agrees, and no pooled block has its height and time. -/
def Enters (env : HelperEnv δ) (h : BlockHelper) (a : Arrival δ) : Prop :=
  h.seen a.block = false ∧
    (∀ curr, h.firstConflict env a.block = some curr → keepsPlace curr a.block = false) ∧
    Admits env a.db h a.block ∧
    ∀ p ∈ h.broadcastBlocks, ¬ (a.block.height = p.height ∧ a.block.time = p.time)

/-- A block that gets into the pool conflicts with at most one pooled block. -/
def ClearArrival (env : HelperEnv δ) (h : BlockHelper) (a : Arrival δ) : Prop :=
  Enters env h a → ∀ p ∈ h.broadcastBlocks, ∀ q ∈ h.broadcastBlocks,
    checkConflict env p a.block → checkConflict env q a.block → p = q

/-- Every call of a sequence is clear when it is made. -/
def AllClear (env : HelperEnv δ) : BlockHelper → List (Arrival δ) → Prop
  | _, [] => True
  | h, a :: arrivals => ClearArrival env h a ∧ AllClear env (arrive env h a) arrivals

theorem ConflictFree.mono {pool pool' : StdSet BlockTimeAscending} (hfree : ConflictFree env pool)
    (hsub : ∀ b ∈ pool', b ∈ pool) : ConflictFree env pool' :=
  fun b hb b' hb' => hfree b (hsub b hb) b' (hsub b' hb')

/-- A pool without conflicts that takes a block in stays free of them when none conflicts with it. -/
theorem conflictFree_insert_iff {pool : StdSet BlockTimeAscending} {block : CBlock}
    (hfree : ConflictFree env pool) (hsep : ∀ p ∈ pool, ¬ StdSet.Equiv BlockTimeAscending block p) :
    ConflictFree env (pool.insert block) ↔ ∀ p ∈ pool, checkConflict env p block = false := by
  constructor
  · intro hins p hp
    refine hins p (StdSet.mem_insert_of_mem hp) block (StdSet.mem_insert_self hsep) ?_
    rintro rfl
    exact hsep p hp ⟨blockTimeAscending_irrefl p, blockTimeAscending_irrefl p⟩
  · intro hnone b hb b' hb' hne
    rcases StdSet.mem_insert.mp hb with hold | ⟨hnew, -⟩ <;>
      rcases StdSet.mem_insert.mp hb' with hold' | ⟨hnew', -⟩
    · exact hfree b hold b' hold' hne
    · rw [hnew']; exact hnone b hold
    · rw [hnew, checkConflict_symm]; exact hnone b' hold'
    · exact absurd (hnew.trans hnew'.symm) hne

/-- The pool after taking a block in: free of conflicts when, unless another block has its height and
    time, it conflicts with none. -/
theorem conflictFree_insert_iff' {pool : StdSet BlockTimeAscending} {block : CBlock}
    (hfree : ConflictFree env pool) : ConflictFree env (pool.insert block) ↔
      ((∀ p ∈ pool, ¬ StdSet.Equiv BlockTimeAscending block p) →
        ∀ p ∈ pool, checkConflict env p block = false) := by
  by_cases hsep : ∀ p ∈ pool, ¬ StdSet.Equiv BlockTimeAscending block p
  · rw [conflictFree_insert_iff hfree hsep]
    exact ⟨fun hnone _ => hnone, fun hnone => hnone hsep⟩
  · refine iff_of_true (hfree.mono fun b hb => ?_) fun hall => absurd hall hsep
    rcases StdSet.mem_insert.mp hb with hb | ⟨-, hall⟩
    · exact hb
    · exact absurd hall hsep

/-- One call keeps the pool free of conflicts exactly when it is clear. -/
theorem arrive_conflictFree_iff (hfree : ConflictFree env h.broadcastBlocks) (a : Arrival δ) :
    ConflictFree env (arrive env h a).broadcastBlocks ↔ ClearArrival env h a := by
  rw [arrive, addBroadcastBlock_pool]
  cases hseen : h.seen a.block with
  | true =>
    refine iff_of_true hfree fun hent => ?_
    have := hent.1
    rw [hseen] at this
    cases this
  | false =>
    rw [if_neg (by simp)]
    cases hfirst : h.firstConflict env a.block with
    | none =>
      have hnone : ∀ p ∈ h.broadcastBlocks, checkConflict env p a.block = false := by
        intro p hp
        simpa using List.find?_eq_none.mp hfirst p hp
      refine iff_of_true ?_ fun _ p hp _ _ hcp => ?_
      · dsimp only
        split_ifs
        · exact (conflictFree_insert_iff' hfree).mpr fun _ => hnone
        · exact hfree
      · rw [hnone p hp] at hcp
        cases hcp
    | some curr =>
      dsimp only
      cases hkeep : keepsPlace curr a.block with
      | true =>
        refine iff_of_true hfree fun hent => ?_
        have := hent.2.1 curr hfirst
        rw [hkeep] at this
        cases this
      | false =>
        rw [if_neg (by simp)]
        have hmem : ∀ {x}, x ∈ h.broadcastBlocks.eraseFirst (fun curr => checkConflict env curr a.block) ↔
            x ∈ h.broadcastBlocks ∧ x ≠ curr := StdSet.mem_eraseFirst blockTimeAscending_irrefl hfirst
        have hrest : ConflictFree env (h.broadcastBlocks.eraseFirst
            fun curr => checkConflict env curr a.block) := hfree.mono fun b hb => (hmem.mp hb).1
        by_cases hadm : Admits env a.db h a.block
        · rw [if_pos hadm, conflictFree_insert_iff' hrest]
          have hcurr : curr ∈ h.broadcastBlocks := List.mem_of_find?_eq_some hfirst
          have hconf : checkConflict env curr a.block = true := by
            simpa using (List.find?_eq_some_iff_append.mp hfirst).1
          have hlater : BlockTimeAscending a.block curr := keepsPlace_iff.mp hkeep
          constructor
          · intro hnone hent p hp q hq hcp hcq
            have honly : ∀ p ∈ h.broadcastBlocks, checkConflict env p a.block = true → p = curr := by
              intro p hp hcp
              by_contra hne
              rw [hnone (fun q hq heq => hent.2.2.2 q (hmem.mp hq).1 (equiv_iff.mp heq)) p
                (hmem.mpr ⟨hp, hne⟩)] at hcp
              cases hcp
            rw [honly p hp hcp, honly q hq hcq]
          · intro hclear hsep p hp
            rw [Bool.eq_false_iff]
            intro hcp
            refine (hmem.mp hp).2 (hclear ⟨hseen, ?_, hadm, ?_⟩ p (hmem.mp hp).1 curr hcurr hcp hconf)
            · intro c hc
              rw [hfirst] at hc
              rwa [← Option.some.inj hc]
            · intro q hq heq
              by_cases hqc : q = curr
              · rw [hqc] at heq
                exact (equiv_iff.mpr heq).1 hlater
              · exact hsep q (hmem.mpr ⟨hq, hqc⟩) (equiv_iff.mpr heq)
        · rw [if_neg hadm]
          exact iff_of_true hrest fun hent => absurd hent.2.2.1 hadm

theorem allClear_iff_everyStep : ∀ {arrivals : List (Arrival δ)} {h : BlockHelper},
    AllClear env h arrivals ↔ EveryStep (arrive env) (ClearArrival env) h arrivals
  | [], _ => Iff.rfl
  | _ :: _, _ => and_congr_right' allClear_iff_everyStep

/-- From an empty pool, no two pooled blocks ever conflict exactly when no block that gets in conflicts
    with two pooled ones. -/
theorem broadcast_pool_safe_iff (env : HelperEnv δ) (h : BlockHelper)
    (hempty : h.broadcastBlocks = .empty) (arrivals : List (Arrival δ)) :
    (∀ done, done <+: arrivals → ConflictFree env (runArrivals env h done).broadcastBlocks) ↔
      AllClear env h arrivals := by
  have hfree : ConflictFree env h.broadcastBlocks := by
    rw [hempty]
    intro b hb
    exact absurd hb (StdSet.not_mem_empty b)
  rw [allClear_iff_everyStep]
  exact always_iff_everyStep (P := fun h : BlockHelper => ConflictFree env h.broadcastBlocks)
    (fun h a hfree => arrive_conflictFree_iff hfree a) hfree

/-- A transaction that spends the given outputs. -/
def sampleTx (utxos : List String) : CTransaction :=
  { CTransaction.cleared with
    txType := 1
    utxo := { CTxUtxo.cleared with
      owner := [str "o"]
      vin := [⟨utxos.map fun utxo => ⟨str utxo, 0⟩, some ⟨[], str "o"⟩, 0, []⟩] } }

/-- A block of one such transaction. -/
def sampleSpend (hash : String) (height : Int64) (time : UInt64) (utxos : List String) : CBlock :=
  { sampleBlock hash height time with txs := [sampleTx utxos], prevHash := str "p" }

/-- A world at height five in which the block `p` is saved; the database does not change. -/
def sampleHelperEnv : HelperEnv Unit where
  getTransactionType _ := .tx
  isContractBlock _ := false
  generateAddr := id
  parseBlock _ := none
  parseData _ := none
  getBlockTop _ := some 5
  getBlockByBlockHash _ hash := if hash = str "p" then some (str "raw") else none
  getLatestUtxoByContractAddr _ _ := none
  getBlockHashByTransactionHash _ _ := none
  getBlockHashesByBlockHeight _ _ _ := some []
  getBlocksByBlockHash _ _ := some []
  rollBackByHash _ _ := (0, ())

/-- Two blocks that spend one output, the earlier one last: the later one is taken out. -/
theorem broadcast_pool_safe_pair : ConflictFree sampleHelperEnv (runArrivals sampleHelperEnv .fresh
    [⟨(), sampleSpend "b" 6 101 ["u"], false⟩, ⟨(), sampleSpend "a" 6 100 ["u"], true⟩]).broadcastBlocks := by
  refine (broadcast_pool_safe_iff sampleHelperEnv .fresh rfl [⟨(), sampleSpend "b" 6 101 ["u"], false⟩,
    ⟨(), sampleSpend "a" 6 100 ["u"], true⟩]).mpr ⟨?_, ?_, trivial⟩ _ List.prefix_rfl
  · intro _ p hp
    exact absurd hp (StdSet.not_mem_empty p)
  · intro _ p hp q hq _ _
    have helems : (arrive sampleHelperEnv .fresh
        ⟨(), sampleSpend "b" 6 101 ["u"], false⟩).broadcastBlocks.elems
        = [sampleSpend "b" 6 101 ["u"]] := by decide
    rw [StdSet.mem_def, helems, List.mem_singleton] at hp hq
    rw [hp, hq]

/-- A block that conflicts with two pooled ones takes out the first of them only. -/
theorem broadcast_pool_keeps_conflict : ¬ ConflictFree sampleHelperEnv (runArrivals sampleHelperEnv .fresh
    [⟨(), sampleSpend "b" 6 101 ["u"], false⟩, ⟨(), sampleSpend "c" 6 102 ["v"], false⟩,
      ⟨(), sampleSpend "a" 6 100 ["u", "v"], false⟩]).broadcastBlocks := by
  intro hfree
  have helems : (runArrivals sampleHelperEnv .fresh
      [⟨(), sampleSpend "b" 6 101 ["u"], false⟩, ⟨(), sampleSpend "c" 6 102 ["v"], false⟩,
        ⟨(), sampleSpend "a" 6 100 ["u", "v"], false⟩]).broadcastBlocks.elems
      = [sampleSpend "a" 6 100 ["u", "v"], sampleSpend "c" 6 102 ["v"]] := by decide
  have hconf := hfree (sampleSpend "a" 6 100 ["u", "v"]) (by rw [StdSet.mem_def, helems]; simp)
    (sampleSpend "c" 6 102 ["v"]) (by rw [StdSet.mem_def, helems]; simp) (by decide)
  revert hconf
  decide

/-! ### The survivor of a conflicting pair -/

/-- Two calls of `AddBroadcastBlock`, one after the other. -/
def addBoth (env : HelperEnv δ) (db : δ) (h : BlockHelper) (x y : CBlock × Bool) : BlockHelper :=
  let r := addBroadcastBlock env db h x.1 x.2
  (addBroadcastBlock env r.2 r.1 y.1 y.2).1

/-- The block that the rule of `DealDoubleSpend` keeps when `block` meets the saved `pBlock`. -/
def doubleSpendKeeps (block pBlock : CBlock) : CBlock := if isNewDoubleSpend block pBlock then pBlock else block

/-- What `DealDoubleSpend` does when it decides: it holds the new block back, or rolls the saved one
    back. -/
theorem dealDoubleSpend_keeps {db db' : δ} {h' : BlockHelper} {block : CBlock} {tx : CTransaction}
    {missingUtxo : Str} {t : DoubleSpendType}
    (hd : dealDoubleSpend env db h block tx missingUtxo = (t, h', db')) :
    (t = .newDoubleSpend → ∃ pBlock, spendsUtxo env tx missingUtxo pBlock = true ∧
      doubleSpendKeeps block pBlock = pBlock ∧ (h'.doubleSpendBlocks block.hash).isSome) ∧
    (t = .oldDoubleSpend → ∃ pBlock, spendsUtxo env tx missingUtxo pBlock = true ∧
      doubleSpendKeeps block pBlock = block ∧ env.rollBackByHash db pBlock.hash = (0, db')) := by
  have hheld : ∀ winner, ((h.addDoubleSpend block).checkDoubleBlooming winner block).doubleSpendBlocks
      = (h.addDoubleSpend block).doubleSpendBlocks := by
    intro winner
    rw [BlockHelper.checkDoubleBlooming]
    split_ifs <;> rfl
  have hadd : ((h.addDoubleSpend block).doubleSpendBlocks block.hash).isSome := by
    rw [BlockHelper.addDoubleSpend]
    split_ifs with hin
    · exact hin
    · simp
  simp only [dealDoubleSpend] at hd
  split at hd
  · cases hd; exact ⟨by rintro ⟨⟩, by rintro ⟨⟩⟩
  split_ifs at hd
  · cases hd; exact ⟨by rintro ⟨⟩, by rintro ⟨⟩⟩
  split at hd
  · cases hd; exact ⟨by rintro ⟨⟩, by rintro ⟨⟩⟩
  split at hd
  · cases hd; exact ⟨by rintro ⟨⟩, by rintro ⟨⟩⟩
  rename_i pBlock hfind
  have hspends : spendsUtxo env tx missingUtxo pBlock = true := by
    simpa using (List.find?_eq_some_iff_append.mp hfind).1
  by_cases hnew : isNewDoubleSpend block pBlock
  · rw [if_pos hnew] at hd
    cases hd
    refine ⟨fun _ => ⟨pBlock, hspends, if_pos hnew, ?_⟩, by rintro ⟨⟩⟩
    rw [hheld]
    exact hadd
  · rw [if_neg hnew] at hd
    split_ifs at hd with hret
    · cases hd; exact ⟨by rintro ⟨⟩, by rintro ⟨⟩⟩
    · obtain ⟨rfl, -, rfl⟩ : _ ∧ _ ∧ _ := by simpa using hd
      exact ⟨by rintro ⟨⟩, fun _ => ⟨pBlock, hspends, if_neg hnew, Prod.ext (not_not.mp hret) rfl⟩⟩

/-- The pool holds `b` and not `other`. -/
def Keeps (pool : StdSet BlockTimeAscending) (b other : CBlock) : Prop := b ∈ pool ∧ other ∉ pool

/-- The pool keeps the same block of the pair in both orders, and it is the one `DealDoubleSpend` keeps
    whichever of the two is saved. -/
def SameSurvivor (env : HelperEnv δ) (db : δ) (h : BlockHelper) (x y : CBlock × Bool) : Prop :=
  ∃ b other, (b = x.1 ∧ other = y.1 ∨ b = y.1 ∧ other = x.1) ∧
    Keeps (addBoth env db h x y).broadcastBlocks b other ∧
    Keeps (addBoth env db h y x).broadcastBlocks b other ∧
    doubleSpendKeeps x.1 y.1 = b ∧ doubleSpendKeeps y.1 x.1 = b

/-- The pool takes a block that conflicts with nothing in it: it is new, the database agrees, and no
    pooled block has its height and time. -/
def Takes (env : HelperEnv δ) (db : δ) (h : BlockHelper) (b : CBlock) : Prop :=
  h.seen b = false ∧ Admits env db h b ∧
    ∀ p ∈ h.broadcastBlocks, ¬ StdSet.Equiv BlockTimeAscending b p

theorem place_seen (db : δ) (h : BlockHelper) (block y : CBlock) :
    (h.place env db block).1.seen y = h.seen y := by
  simp only [BlockHelper.place]
  split <;> rfl

/-- Which blocks count as seen after a call. -/
theorem addBroadcastBlock_seen (db : δ) (h : BlockHelper) (x y : CBlock) (status : Bool) :
    (addBroadcastBlock env db h x status).1.seen y = (h.seen y || x.hash = y.hash) := by
  have hmark : BlockHelper.seen { h with
      duplicateChecker := h.duplicateChecker.set x.hash (status, x.time) } y
      = (h.seen y || x.hash = y.hash) := by
    simp only [BlockHelper.seen]
    by_cases hxy : x.hash = y.hash
    · simp [hxy]
    · rw [StdMap.set_ne _ _ (Ne.symm hxy)]
      simp [hxy]
  by_cases hseen : h.seen x
  · have hsame : h.seen y = (h.seen y || x.hash = y.hash) := by
      by_cases hxy : x.hash = y.hash
      · simp only [BlockHelper.seen, hxy] at hseen ⊢
        simp [hseen]
      · simp [hxy]
    simp only [addBroadcastBlock, if_pos hseen, BlockHelper.repeated]
    split_ifs
    · exact hmark
    · exact hsame
  · simp only [addBroadcastBlock, if_neg hseen]
    split
    · rw [place_seen]; exact hmark
    · rename_i curr _
      by_cases hkeep : keepsPlace curr x
      · rw [if_pos hkeep]; exact hmark
      · rw [if_neg hkeep, place_seen]; exact hmark

/-- The pool after a call whose block conflicts with nothing in it. -/
theorem mem_pool_alone (db : δ) {h : BlockHelper} {x : CBlock} (status : Bool)
    (hnone : ∀ p ∈ h.broadcastBlocks, checkConflict env p x = false) {b : CBlock} :
    b ∈ (addBroadcastBlock env db h x status).1.broadcastBlocks ↔
      b ∈ h.broadcastBlocks ∨ b = x ∧ Takes env db h x := by
  have hfirst : h.firstConflict env x = none :=
    List.find?_eq_none.mpr fun p hp => by simpa using hnone p hp
  rw [addBroadcastBlock_pool, hfirst]
  dsimp only
  split_ifs with hseen hadm
  · refine (or_iff_left fun hb => ?_).symm
    rw [hb.2.1] at hseen
    cases hseen
  · rw [StdSet.mem_insert]
    refine or_congr_right (and_congr_right fun _ => ⟨fun hsep => ⟨by simpa using hseen, hadm, hsep⟩, ?_⟩)
    exact fun ht => ht.2.2
  · exact (or_iff_left fun hb => hadm hb.2.2.1).symm

/-- The pool after a call whose block conflicts with one pooled block only. -/
theorem mem_pool_pair (db : δ) {h : BlockHelper} {x y : CBlock} (status : Bool)
    (hx : x ∈ h.broadcastBlocks) (hconf : checkConflict env x y = true)
    (honly : ∀ p ∈ h.broadcastBlocks, checkConflict env p y = true → p = x) {b : CBlock} :
    b ∈ (addBroadcastBlock env db h y status).1.broadcastBlocks ↔
      if h.seen y ∨ keepsPlace x y then b ∈ h.broadcastBlocks
      else (b ∈ h.broadcastBlocks ∧ b ≠ x) ∨ b = y ∧ Admits env db h y ∧
        ∀ p ∈ h.broadcastBlocks, p ≠ x → ¬ StdSet.Equiv BlockTimeAscending y p := by
  have hfirst : h.firstConflict env y = some x := by
    cases hf : h.firstConflict env y with
    | none => simpa [hconf] using List.find?_eq_none.mp hf x hx
    | some c =>
      have hc : checkConflict env c y = true := by
        simpa using (List.find?_eq_some_iff_append.mp hf).1
      rw [honly c (List.mem_of_find?_eq_some hf) hc]
  have hmem : ∀ {z}, z ∈ h.broadcastBlocks.eraseFirst (fun curr => checkConflict env curr y) ↔
      z ∈ h.broadcastBlocks ∧ z ≠ x := StdSet.mem_eraseFirst blockTimeAscending_irrefl hfirst
  rw [addBroadcastBlock_pool, hfirst]
  dsimp only
  by_cases hseen : h.seen y
  · rw [if_pos hseen, if_pos (.inl hseen)]
  by_cases hkeep : keepsPlace x y
  · rw [if_neg hseen, if_pos hkeep, if_pos (.inr hkeep)]
  have hgoes : ¬ (h.seen y = true ∨ keepsPlace x y = true) := by simp [hseen, hkeep]
  rw [if_neg hseen, if_neg hkeep, if_neg hgoes]
  by_cases hadm : Admits env db h y
  · rw [if_pos hadm, StdSet.mem_insert, hmem]
    refine or_congr_right (and_congr_right fun _ => ?_)
    rw [and_iff_right hadm]
    exact ⟨fun hsep p hp hne => hsep p (hmem.mpr ⟨hp, hne⟩),
      fun hsep p hp => hsep p (hmem.mp hp).1 (hmem.mp hp).2⟩
  · rw [if_neg hadm, hmem]
    exact (or_iff_left fun hb => hadm hb.2.1).symm

/-- A pair of blocks that conflict with each other and with nothing in the pool, the earlier one first. -/
structure Rivals (env : HelperEnv δ) (h : BlockHelper) (e l : CBlock) : Prop where
  conflict : checkConflict env e l = true
  earlier : BlockTimeAscending e l
  aloneE : ∀ p ∈ h.broadcastBlocks, checkConflict env p e = false
  aloneL : ∀ p ∈ h.broadcastBlocks, checkConflict env p l = false

section Pair

variable {db : δ} {e l : CBlock} {se sl : Bool}

theorem Rivals.not_mem_left (hr : Rivals env h e l) : e ∉ h.broadcastBlocks := by
  intro he
  have := hr.aloneL e he
  rw [hr.conflict] at this
  cases this

theorem Rivals.not_mem_right (hr : Rivals env h e l) : l ∉ h.broadcastBlocks := by
  intro hl
  have := hr.aloneE l hl
  rw [checkConflict_symm, hr.conflict] at this
  cases this

theorem Rivals.ne (hr : Rivals env h e l) : e ≠ l := by
  rintro rfl
  exact blockTimeAscending_irrefl e hr.earlier

theorem Rivals.keepsPlace (hr : Rivals env h e l) : keepsPlace e l = true ∧ keepsPlace l e = false := by
  refine ⟨?_, keepsPlace_iff.mpr hr.earlier⟩
  by_contra hkeep
  have := keepsPlace_iff.mp (Bool.eq_false_iff.mpr hkeep)
  exact blockTimeAscending_irrefl e (IsTrans.trans _ _ _ hr.earlier this)

/-- The earlier block first, and the pool takes it: the later one changes nothing. -/
theorem Rivals.earlier_first_taken (hr : Rivals env h e l) (ht : Takes env db h e) {b : CBlock} :
    b ∈ (addBoth env db h (e, se) (l, sl)).broadcastBlocks ↔ b ∈ h.broadcastBlocks ∨ b = e := by
  have hpool : ∀ {b}, b ∈ (addBroadcastBlock env db h e se).1.broadcastBlocks ↔
      b ∈ h.broadcastBlocks ∨ b = e := by
    intro b
    rw [mem_pool_alone db se hr.aloneE, and_iff_left ht]
  have honly : ∀ p ∈ (addBroadcastBlock env db h e se).1.broadcastBlocks,
      checkConflict env p l = true → p = e := by
    intro p hp hc
    rcases hpool.mp hp with hp | hp
    · rw [hr.aloneL p hp] at hc
      cases hc
    · exact hp
  rw [addBoth, mem_pool_pair _ sl (hpool.mpr (.inr rfl)) hr.conflict honly,
    if_pos (.inr hr.keepsPlace.1), hpool]

/-- The earlier block first, and the pool does not take it: the later one is on its own. -/
theorem Rivals.earlier_first_left (hr : Rivals env h e l) (ht : ¬ Takes env db h e) {b : CBlock} :
    b ∈ (addBoth env db h (e, se) (l, sl)).broadcastBlocks ↔ b ∈ h.broadcastBlocks ∨
      b = l ∧ Takes env (addBroadcastBlock env db h e se).2 (addBroadcastBlock env db h e se).1 l := by
  have hpool : ∀ {b}, b ∈ (addBroadcastBlock env db h e se).1.broadcastBlocks ↔
      b ∈ h.broadcastBlocks := by
    intro b
    rw [mem_pool_alone db se hr.aloneE]
    exact or_iff_left fun hb => ht hb.2
  rw [addBoth, mem_pool_alone _ sl fun p hp => hr.aloneL p (hpool.mp hp), hpool]

/-- The later block first, and the pool takes it: the earlier one takes it out, in or not, unless it
    counts as seen. -/
theorem Rivals.later_first_taken (hr : Rivals env h e l) (ht : Takes env db h l) {b : CBlock} :
    b ∈ (addBoth env db h (l, sl) (e, se)).broadcastBlocks ↔
      if (addBroadcastBlock env db h l sl).1.seen e then b ∈ h.broadcastBlocks ∨ b = l
      else b ∈ h.broadcastBlocks ∨
        b = e ∧ Admits env (addBroadcastBlock env db h l sl).2 (addBroadcastBlock env db h l sl).1 e ∧
          ∀ p ∈ h.broadcastBlocks, ¬ StdSet.Equiv BlockTimeAscending e p := by
  have hpool : ∀ {b}, b ∈ (addBroadcastBlock env db h l sl).1.broadcastBlocks ↔
      b ∈ h.broadcastBlocks ∨ b = l := by
    intro b
    rw [mem_pool_alone db sl hr.aloneL, and_iff_left ht]
  have honly : ∀ p ∈ (addBroadcastBlock env db h l sl).1.broadcastBlocks,
      checkConflict env p e = true → p = l := by
    intro p hp hc
    rcases hpool.mp hp with hp | hp
    · rw [hr.aloneE p hp] at hc
      cases hc
    · exact hp
  have hne : ∀ {b}, b ∈ h.broadcastBlocks → b ≠ l := fun hb heq => hr.not_mem_right (heq ▸ hb)
  rw [addBoth, mem_pool_pair _ se (hpool.mpr (.inr rfl)) (by rw [checkConflict_symm]; exact hr.conflict)
    honly, hr.keepsPlace.2]
  simp only [Bool.false_eq_true, or_false, hpool]
  split_ifs
  · exact Iff.rfl
  · refine or_congr ?_ (and_congr_right fun _ => and_congr_right fun _ => ?_)
    · constructor
      · rintro ⟨hb | hb, hbl⟩
        · exact hb
        · exact absurd hb hbl
      · exact fun hb => ⟨.inl hb, hne hb⟩
    · exact ⟨fun hsep p hp => hsep p (.inl hp) (hne hp),
        fun hsep p hp hpl => hsep p (hp.resolve_right hpl)⟩

/-- The later block first, and the pool does not take it: the earlier one is on its own. -/
theorem Rivals.later_first_left (hr : Rivals env h e l) (ht : ¬ Takes env db h l) {b : CBlock} :
    b ∈ (addBoth env db h (l, sl) (e, se)).broadcastBlocks ↔ b ∈ h.broadcastBlocks ∨
      b = e ∧ (addBroadcastBlock env db h l sl).1.seen e = false ∧
        Admits env (addBroadcastBlock env db h l sl).2 (addBroadcastBlock env db h l sl).1 e ∧
          ∀ p ∈ h.broadcastBlocks, ¬ StdSet.Equiv BlockTimeAscending e p := by
  have hpool : ∀ {b}, b ∈ (addBroadcastBlock env db h l sl).1.broadcastBlocks ↔
      b ∈ h.broadcastBlocks := by
    intro b
    rw [mem_pool_alone db sl hr.aloneL]
    exact or_iff_left fun hb => ht hb.2
  rw [addBoth, mem_pool_alone _ se fun p hp => hr.aloneE p (hpool.mp hp), hpool]
  simp only [Takes, hpool]

/-- The value of a height read as `uint64_t`. -/
theorem toNat_toUInt64 (x : Int64) : (x.toUInt64.toNat : ℤ) = if x.toInt < 0 then x.toInt + 2 ^ 64
    else x.toInt := by
  have hnat : x.toUInt64.toNat = x.toBitVec.toNat := rfl
  have hint : x.toInt = x.toBitVec.toInt := rfl
  have hlt := x.toBitVec.isLt
  rw [hnat, hint, BitVec.toInt_eq_toNat_cond]
  split_ifs <;> omega

theorem isNewDoubleSpend_iff {block pBlock : CBlock} : isNewDoubleSpend block pBlock = true ↔
    (block.height.toUInt64.toNat = pBlock.height.toUInt64.toNat ∧ pBlock.time.toNat ≤ block.time.toNat) ∨
      pBlock.height.toUInt64.toNat < block.height.toUInt64.toNat := by
  simp only [isNewDoubleSpend, Bool.or_eq_true, Bool.and_eq_true, decide_eq_true_eq,
    ← UInt64.toNat_inj, ge_iff_le, gt_iff_lt, UInt64.le_iff_toNat_le, UInt64.lt_iff_toNat_lt]

/-- The rule of `DealDoubleSpend` keeps the earlier block, unless its height alone is negative. -/
theorem doubleSpendKeeps_eq (hlt : BlockTimeAscending e l) :
    doubleSpendKeeps e l = (if e.height < 0 ∧ 0 ≤ l.height then l else e) ∧
      doubleSpendKeeps l e = (if e.height < 0 ∧ 0 ≤ l.height then l else e) := by
  have he := toNat_toUInt64 e.height
  have hl := toNat_toUInt64 l.height
  have hzero : (0 : Int64).toInt = 0 := rfl
  have hmin := Int64.le_toInt e.height
  have hmax := Int64.toInt_lt l.height
  simp only [doubleSpendKeeps, isNewDoubleSpend_iff, Int64.lt_iff_toInt_lt, Int64.le_iff_toInt_le, hzero]
  rw [blockTimeAscending_iff, Int64.lt_iff_toInt_lt, ← Int64.toInt_inj, UInt64.lt_iff_toNat_lt] at hlt
  constructor
  · split_ifs with h1 h2 h2
    · rfl
    · split_ifs at he hl <;> omega
    · split_ifs at he hl <;> omega
    · rfl
  · split_ifs with h1 h2 h2
    · split_ifs at he hl <;> omega
    · rfl
    · rfl
    · split_ifs at he hl <;> omega

/-- The pool can keep the earlier block: it takes it on its own and also after the later one, which has
    another hash; and the heights are not of different sign. -/
def EarlierKept (env : HelperEnv δ) (db : δ) (h : BlockHelper) (e l : CBlock) (sl : Bool) : Prop :=
  ¬ (e.height < 0 ∧ 0 ≤ l.height) ∧ Takes env db h e ∧ e.hash ≠ l.hash ∧
    Admits env (addBroadcastBlock env db h l sl).2 (addBroadcastBlock env db h l sl).1 e

/-- The odd case: only the earlier block has a negative height, which `DealDoubleSpend` reads as a huge
    one, and it has been seen before, so that the pool takes the later one. -/
def LaterKept (env : HelperEnv δ) (db : δ) (h : BlockHelper) (e l : CBlock) : Prop :=
  (e.height < 0 ∧ 0 ≤ l.height) ∧ h.seen e = true ∧ Takes env db h l

theorem Rivals.mem_later_first (hr : Rivals env h e l) :
    (e ∈ (addBoth env db h (l, sl) (e, se)).broadcastBlocks ↔
      (addBroadcastBlock env db h l sl).1.seen e = false ∧
        Admits env (addBroadcastBlock env db h l sl).2 (addBroadcastBlock env db h l sl).1 e ∧
        ∀ p ∈ h.broadcastBlocks, ¬ StdSet.Equiv BlockTimeAscending e p) ∧
    (l ∈ (addBoth env db h (l, sl) (e, se)).broadcastBlocks ↔
      Takes env db h l ∧ (addBroadcastBlock env db h l sl).1.seen e = true) := by
  have he := hr.not_mem_left
  have hl := hr.not_mem_right
  have hne := hr.ne
  by_cases ht : Takes env db h l
  · rw [hr.later_first_taken ht, hr.later_first_taken ht]
    cases hseen : (addBroadcastBlock env db h l sl).1.seen e <;> simp [he, hl, hne, hne.symm, ht]
  · rw [hr.later_first_left ht, hr.later_first_left ht]
    simp [he, hl, hne.symm, ht]

/-- Where the rule keeps `b` either way, the survivor can only be `b`. -/
theorem sameSurvivor_of_rule {x y : CBlock × Bool} {b other : CBlock} (hne : x.1 ≠ y.1)
    (hxy : doubleSpendKeeps x.1 y.1 = b) (hyx : doubleSpendKeeps y.1 x.1 = b)
    (hpair : b = x.1 ∧ other = y.1 ∨ b = y.1 ∧ other = x.1) :
    SameSurvivor env db h x y ↔ Keeps (addBoth env db h x y).broadcastBlocks b other ∧
      Keeps (addBoth env db h y x).broadcastBlocks b other := by
  constructor
  · rintro ⟨b', other', hpair', hk, hk', hrule, -⟩
    obtain rfl : b = b' := hxy.symm.trans hrule
    have hother : other = other' := by
      rcases hpair with ⟨hb, ho⟩ | ⟨hb, ho⟩ <;> rcases hpair' with ⟨hb', ho'⟩ | ⟨hb', ho'⟩
      · exact ho.trans ho'.symm
      · exact absurd (hb.symm.trans hb') hne
      · exact absurd (hb'.symm.trans hb) hne
      · exact ho.trans ho'.symm
    rw [hother]
    exact ⟨hk, hk'⟩
  · rintro ⟨hk, hk'⟩
    exact ⟨b, other, hpair, hk, hk', hxy, hyx⟩

/-- A block that has been seen changes neither the pool nor what the database is asked. -/
theorem takes_after_seen (he : h.seen e = true) : Takes env (addBroadcastBlock env db h e se).2
      (addBroadcastBlock env db h e se).1 l ↔
    (h.seen l || e.hash = l.hash) = false ∧ Admits env db h l ∧
      ∀ p ∈ h.broadcastBlocks, ¬ StdSet.Equiv BlockTimeAscending l p := by
  have hadd : addBroadcastBlock env db h e se = (h.repeated e se, db) := by
    rw [addBroadcastBlock, if_pos he]
  have hpool : (h.repeated e se).broadcastBlocks = h.broadcastBlocks ∧
      (h.repeated e se).contractBlocks = h.contractBlocks := by
    rw [BlockHelper.repeated]
    split_ifs <;> exact ⟨rfl, rfl⟩
  rw [Takes, addBroadcastBlock_seen, hadd, Admits, Admits, hpool.1, hpool.2]

/-- The survivor of a pair, the earlier block given first. -/
theorem Rivals.sameSurvivor_iff (hr : Rivals env h e l) :
    SameSurvivor env db h (e, se) (l, sl) ↔
      EarlierKept env db h e l sl ∨ LaterKept env db h e l := by
  have hseen : (addBroadcastBlock env db h l sl).1.seen e = (h.seen e || l.hash = e.hash) :=
    addBroadcastBlock_seen db h l e sl
  have he := hr.not_mem_left
  have hl := hr.not_mem_right
  have hne := hr.ne
  obtain ⟨hrule, hrule'⟩ := doubleSpendKeeps_eq hr.earlier
  obtain ⟨hmemE, hmemL⟩ := @Rivals.mem_later_first δ env h db e l se sl hr
  rw [hseen] at hmemE hmemL
  by_cases hsign : e.height < 0 ∧ 0 ≤ l.height
  · -- the rule keeps the later block, which the pool does only if the earlier one is ignored
    rw [if_pos hsign] at hrule hrule'
    rw [sameSurvivor_of_rule hne hrule hrule' (.inr ⟨rfl, rfl⟩), Keeps, Keeps, hmemE, hmemL]
    constructor
    · rintro ⟨⟨hmem, -⟩, ⟨htl, hs⟩, -⟩
      by_cases hte : Takes env db h e
      · rw [hr.earlier_first_taken hte] at hmem
        exact (hmem.elim hl (Ne.symm hne)).elim
      · rw [hr.earlier_first_left hte] at hmem
        obtain ⟨-, ht⟩ := hmem.resolve_left hl
        have hfresh := ht.1
        rw [addBroadcastBlock_seen, Bool.or_eq_false_iff, decide_eq_false_iff_not] at hfresh
        rw [Bool.or_eq_true, decide_eq_true_eq] at hs
        exact .inr ⟨hsign, hs.resolve_right (Ne.symm hfresh.2), htl⟩
    · rintro (⟨hsame, -⟩ | ⟨-, hse, htl⟩)
      · exact absurd hsign hsame
      · have hte : ¬ Takes env db h e := by
          intro ht
          rw [ht.1] at hse
          cases hse
        have hhash : e.hash ≠ l.hash := by
          intro heq
          have hsl := htl.1
          simp only [BlockHelper.seen, heq] at hse hsl
          rw [hse] at hsl
          cases hsl
        have hfresh : (h.seen l || e.hash = l.hash) = false := by simp [htl.1, hhash]
        rw [hr.earlier_first_left hte, hr.earlier_first_left hte, takes_after_seen hse]
        refine ⟨⟨.inr ⟨rfl, hfresh, htl.2⟩, ?_⟩, ⟨htl, by rw [hse, Bool.true_or]⟩, ?_⟩
        · exact fun hmem => hmem.elim he fun heq => hne heq.1
        · rintro ⟨hs, -⟩
          rw [hse, Bool.true_or] at hs
          cases hs
  · -- the rule keeps the earlier block
    rw [if_neg hsign] at hrule hrule'
    rw [sameSurvivor_of_rule hne hrule hrule' (.inl ⟨rfl, rfl⟩), Keeps, Keeps, hmemE, hmemL]
    constructor
    · rintro ⟨⟨hmem, -⟩, ⟨hs, hadm, -⟩, -⟩
      by_cases hte : Takes env db h e
      · rw [Bool.or_eq_false_iff, decide_eq_false_iff_not] at hs
        exact .inl ⟨hsign, hte, Ne.symm hs.2, hadm⟩
      · rw [hr.earlier_first_left hte] at hmem
        exact absurd (hmem.resolve_left he).1 hne
    · rintro (⟨-, hte, hhash, hadm⟩ | ⟨hodd, -⟩)
      · have hfresh : (h.seen e || l.hash = e.hash) = false := by simp [hte.1, Ne.symm hhash]
        rw [hr.earlier_first_taken hte, hr.earlier_first_taken hte]
        refine ⟨⟨.inr rfl, fun hmem => hmem.elim hl (Ne.symm hne)⟩, ⟨hfresh, hadm, hte.2.2⟩, ?_⟩
        rintro ⟨-, hs⟩
        rw [hfresh] at hs
        cases hs
      · exact absurd hodd hsign

end Pair

/-- The pool can keep the survivor, whichever of the two blocks is the earlier one. -/
def SurvivorKept (env : HelperEnv δ) (db : δ) (h : BlockHelper) (x y : CBlock × Bool) : Prop :=
  if BlockTimeAscending x.1 y.1 then EarlierKept env db h x.1 y.1 y.2 ∨ LaterKept env db h x.1 y.1
  else EarlierKept env db h y.1 x.1 x.2 ∨ LaterKept env db h y.1 x.1

theorem sameSurvivor_comm (env : HelperEnv δ) (db : δ) (h : BlockHelper) (x y : CBlock × Bool) :
    SameSurvivor env db h x y ↔ SameSurvivor env db h y x := by
  constructor
  · rintro ⟨b, other, hpair, hk, hk', hrule, hrule'⟩
    exact ⟨b, other, hpair.symm, hk', hk, hrule', hrule⟩
  · rintro ⟨b, other, hpair, hk, hk', hrule, hrule'⟩
    exact ⟨b, other, hpair.symm, hk', hk, hrule', hrule⟩

/-- Two blocks that conflict with each other and with nothing in the pool, and differ in height or time,
    leave the same survivor in both orders, the one of `DealDoubleSpend`, exactly when the pool can keep
    the earlier one. -/
theorem survivor_order_iff (env : HelperEnv δ) (db : δ) (h : BlockHelper) (x y : CBlock × Bool)
    (hconf : checkConflict env x.1 y.1 = true)
    (hx : ∀ p ∈ h.broadcastBlocks, checkConflict env p x.1 = false)
    (hy : ∀ p ∈ h.broadcastBlocks, checkConflict env p y.1 = false)
    (hdist : ¬ (x.1.height = y.1.height ∧ x.1.time = y.1.time)) :
    SameSurvivor env db h x y ↔ SurvivorKept env db h x y := by
  rw [SurvivorKept]
  split_ifs with hlt
  · exact Rivals.sameSurvivor_iff ⟨hconf, hlt, hx, hy⟩
  · have hgt : BlockTimeAscending y.1 x.1 := by
      by_contra hgt
      exact hdist (equiv_iff.mp ⟨hlt, hgt⟩)
    rw [sameSurvivor_comm]
    exact Rivals.sameSurvivor_iff ⟨by rw [checkConflict_symm]; exact hconf, hgt, hy, hx⟩

/-- Two blocks of one height, both with a saved predecessor. -/
theorem survivor_order_pair : SameSurvivor sampleHelperEnv () .fresh
    (sampleSpend "b" 6 101 ["u"], false) (sampleSpend "a" 6 100 ["u"], true) := by
  refine (survivor_order_iff sampleHelperEnv () .fresh _ _ (by decide) (fun p hp => ?_)
    (fun p hp => ?_) (by decide)).mpr ?_
  · exact absurd hp (StdSet.not_mem_empty p)
  · exact absurd hp (StdSet.not_mem_empty p)
  · rw [SurvivorKept, if_neg (by decide)]
    refine .inl ⟨by decide, ⟨by decide, by decide, fun p hp => ?_⟩, by decide,
      by decide⟩
    exact absurd hp (StdSet.not_mem_empty p)

/-- The earlier block has no known predecessor: it takes the later one out of the pool and does not get
    in, while in the other order the later one is pooled. -/
theorem survivor_order_fails :
    let x : CBlock × Bool := (sampleSpend "b" 6 101 ["u"], false)
    let y : CBlock × Bool := ({ sampleSpend "a" 6 100 ["u"] with prevHash := str "q" }, false)
    checkConflict sampleHelperEnv x.1 y.1 = true ∧
      (addBoth sampleHelperEnv () .fresh x y).broadcastBlocks.elems = [] ∧
      (addBoth sampleHelperEnv () .fresh y x).broadcastBlocks.elems = [x.1] ∧
      ¬ SameSurvivor sampleHelperEnv () .fresh x y := by
  intro x y
  have hxy : (addBoth sampleHelperEnv () .fresh x y).broadcastBlocks.elems = [] := by decide
  refine ⟨by decide, hxy, by decide, ?_⟩
  rintro ⟨b, other, -, ⟨hb, -⟩, -⟩
  rw [StdSet.mem_def, hxy] at hb
  cases hb

end Tfs.Ca
