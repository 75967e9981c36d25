import Tfs.Basic
import Tfs.Lib.OrderedSet
import Tfs.Lib.Runs

/-! Check hashes (`CheckBlocks` in `ca/check_blocks.cpp`).

    For every thousand heights the node computes a sum hash, asks its peers for theirs, and stores its
    own once nine tenths of the answers agree with it. Two tables are written, always in one
    transaction: the hashes by height, and the height of the last one. Below, runs of the timer's
    function `_ToCheck` follow each other, and every call that the function makes may fail. -/

namespace Tfs.Ca

/-! ### The answers of the peers -/

/-- `message GetCheckSumHashAck`, as far as it is looked at. -/
structure GetCheckSumHashAck where
  success : Bool
  hash : String
  deriving DecidableEq

section Answers
variable (parse : String → Option GetCheckSumHashAck)

/-- The body of the loop over `retDatas`: `consensusMap` and `successNum`. -/
def countAck (counted : SortedMap String ℕ × ℕ) (retData : String) : SortedMap String ℕ × ℕ :=
  match parse retData with
  | none => counted
  | some ack =>
    if ack.success = false then counted
    else if ack.hash = "" then counted
    else (counted.1.upsert ack.hash fun num => num.elim 1 (· + 1), counted.2 + 1)

/-- The hashes that the successful answers report. -/
def reportedHashes (retDatas : List String) : List String :=
  ((retDatas.filterMap parse).filter fun ack => ack.success ∧ ack.hash ≠ "").map (·.hash)

end Answers

/-- `std::max_element` by the second component: the first of the largest. -/
def maxElement : List (String × ℕ) → Option (String × ℕ)
  | [] => none
  | first :: rest => some (rest.foldl (fun largest e => if largest.2 < e.2 then e else largest) first)

/-! ### One pass of the loop -/

/-- Heights are `uint64_t`. -/
def heightModulus : ℕ := 2 ^ 64

/-- What the calls of one pass of the loop give back. -/
structure CheckRound where
  /-- `ca_algorithm::Calc1000HeightsSumHash`: the local chain's hash for a height, empty on an error -/
  calc1000HeightsSumHash : ℕ → String
  /-- the result of `GetPledgeAddr` -/
  getPledgeAddr : ℤ
  /-- `_GetSyncNode`: the nodes that are asked about a height -/
  getSyncNode : ℕ → Option (List String)
  createWait : Bool
  addResNode : String → Bool
  /-- `WaitData`, after the nodes were asked about a height: its result and `retDatas` -/
  waitData : ℕ → Bool × List String
  setCheckBlockHashsByBlockHeight : Bool
  /-- whether the store can answer `dbWriter.GetTopThousandSumhash` -/
  getTopThousandSumhash : Bool
  setTopThousandSumhash : Bool
  transactionCommit : Bool

/-- `class CheckBlocks`. -/
structure CheckBlocks where
  topBlockHeight : ℕ
  topBlockHash : String
  tempTopDate : ℕ × String
  checkRuning : Bool

/-- The two tables. Beside them, for the statements below only, the pass in which each hash was
    stored. -/
structure CheckTables where
  topThousandSumhash : Option ℕ
  checkBlockHashs : StdMap ℕ String
  storedIn : StdMap ℕ CheckRound

/-- How a pass of the loop ends: with a `return`, with the next pass, or with the agreement of the
    peers. -/
inductive PassEnd where
  | ret (code : ℤ)
  | again
  | agreed
  deriving DecidableEq

namespace CheckBlocks

/-- `_SetTempTopData`. -/
def setTempTopData (node : CheckBlocks) (height : ℕ) (hash : String) : CheckBlocks :=
  { node with tempTopDate := (height, hash) }

/-- `_Init`, after `GetTopThousandSumhash` answered: any failed read counts as zero. -/
def init (node : CheckBlocks) (read : Option ℕ) : CheckBlocks :=
  match read with
  | some thousandNum => { node with topBlockHeight := thousandNum }.setTempTopData 0 ""
  | none => { node with topBlockHeight := 0, topBlockHash := "" }.setTempTopData 0 ""

/-- `_topBlockHeight + 1000`. -/
def nextHeight (node : CheckBlocks) : ℕ := (node.topBlockHeight + 1000) % heightModulus

variable (parse : String → Option GetCheckSumHashAck)

/-- The comparison of the answers. The products with 0.8 and 0.9 are compared as whole numbers. -/
def compareAnswers (node : CheckBlocks) (retDatas : List String) : PassEnd :=
  let counted := retDatas.foldl (countAck parse) (.empty, 0)
  if ¬ 8 * retDatas.length ≤ 10 * counted.2 then .ret (-8)
  else match maxElement counted.1.entries with
    | none => .again
    | some maxIterator =>
      if 9 * counted.2 ≤ 10 * maxIterator.2 then
        if maxIterator.1 = node.tempTopDate.2 then .agreed else .again
      else .again

/-- The body of the loop, up to the writing; `height` is `_topBlockHeight + 1000`. What `DoNewSync` does
    is seen in the local hashes of the passes that follow. -/
def pass (node : CheckBlocks) (height : ℕ) (round : CheckRound) : PassEnd × CheckBlocks :=
  let tempHash := round.calc1000HeightsSumHash height
  if tempHash = "" then (.ret (-2), node)
  else
    let node := node.setTempTopData height tempHash
    if round.getPledgeAddr ≠ 0 then (.ret (-3), node)
    else match round.getSyncNode height with
      | none => (.ret (-4), node)
      | some sendNodeIds =>
        if round.createWait = false then (.ret (-5), node)
        else if ¬ ∀ nodeId ∈ sendNodeIds, round.addResNode nodeId then (.ret (-6), node)
        else
          let waited := round.waitData height
          if waited.1 = false ∧ (waited.2 = [] ∨ waited.2.length < sendNodeIds.length / 2) then
            (.ret (-7), node)
          else (compareAnswers parse node waited.2, node)

end CheckBlocks

/-- What a read of the stored top gives: zero when nothing is stored, and when the read fails. -/
def CheckTables.readTop (db : CheckTables) (works : Bool) : ℕ :=
  if works then db.topThousandSumhash.getD 0 else 0

/-- The height that is one thousand below, in `uint64_t`. -/
def heightBefore (height : ℕ) : ℕ := (height + heightModulus - 1000) % heightModulus

/-- The writing at the end: `dbWriter` works on a copy that replaces the tables when it is committed. -/
def CheckTables.write (db : CheckTables) (round : CheckRound) (timp : ℕ × String) : ℤ × CheckTables :=
  if round.setCheckBlockHashsByBlockHeight = false then (-9, db)
  else
    let dbWriter := { db with
      checkBlockHashs := db.checkBlockHashs.set timp.1 timp.2
      storedIn := db.storedIn.set timp.1 round }
    let lastHeight := dbWriter.readTop round.getTopThousandSumhash
    if lastHeight ≠ heightBefore timp.1 then (-10, db)
    else if round.setTopThousandSumhash = false then (-11, db)
    else if round.transactionCommit = false then (-12, db)
    else (0, { dbWriter with topThousandSumhash := some timp.1 })

/-- The node's object and the store. -/
structure CheckState where
  node : CheckBlocks
  db : CheckTables

/-- What a run of `_ToCheck` meets: whether `_Init` can read the top, what `GetBlockTop` answers, and
    the passes of its loop. After the last of them the run is still waiting. -/
structure CheckCall where
  getTopThousandSumhash : Bool
  getBlockTop : Option ℕ
  rounds : List CheckRound

namespace CheckState
variable (parse : String → Option GetCheckSumHashAck)

/-- The loop of `_ToCheck`. It has no result as long as it runs. -/
def loop (s : CheckState) : List CheckRound → Option ℤ × CheckState
  | [] => (none, s)
  | round :: rounds =>
    match s.node.pass parse s.node.nextHeight round with
    | (.ret code, node) => (some code, { s with node := node })
    | (.again, node) => loop { s with node := node } rounds
    | (.agreed, node) =>
      let written := s.db.write round node.tempTopDate
      (some written.1, ⟨node, written.2⟩)

/-- `ON_SCOPE_EXIT`. -/
def scopeExit (result : Option ℤ × CheckState) : Option ℤ × CheckState :=
  match result with
  | (none, s) => (none, s)
  | (some code, s) => (some code, { s with node := { s.node with checkRuning := false } })

/-- The flag is set, and `_Init` reads the top. -/
def started (s : CheckState) (call : CheckCall) : CheckBlocks :=
  { s.node with checkRuning := true }.init
    (if call.getTopThousandSumhash then s.db.topThousandSumhash else none)

/-- `_ToCheck`. -/
def toCheck (s : CheckState) (call : CheckCall) : Option ℤ × CheckState :=
  if s.node.checkRuning then (some 0, s)
  else
    let node := s.started call
    let s := { s with node := node }
    match call.getBlockTop with
    | none => scopeExit (some (-1), s)
    | some selfNodeHeight =>
      if node.topBlockHeight = 0 ∧ selfNodeHeight < 1100 then scopeExit (some 0, s)
      else if selfNodeHeight < (node.topBlockHeight + 1100) % heightModulus then scopeExit (some 0, s)
      else scopeExit (loop parse s call.rounds)

end CheckState

/-! ### Counting the answers -/

section Counting
variable {parse : String → Option GetCheckSumHashAck}

/-- The map holds how often each of the hashes occurs, the number how many there are. -/
def Counts (hashes : List String) (counted : SortedMap String ℕ × ℕ) : Prop :=
  counted.2 = hashes.length ∧
    ∀ hash, counted.1.find hash = if hash ∈ hashes then some (hashes.count hash) else none

theorem counts_nil : Counts [] (.empty, 0) := ⟨rfl, fun _ => rfl⟩

theorem Counts.concat {hashes : List String} {counted : SortedMap String ℕ × ℕ} (h : Counts hashes counted)
    (new : String) :
    Counts (hashes ++ [new]) (counted.1.upsert new fun num => num.elim 1 (· + 1), counted.2 + 1) := by
  refine ⟨by simp [h.1], fun hash => ?_⟩
  rw [SortedMap.find_upsert]
  rcases eq_or_ne hash new with rfl | hne
  · rw [if_pos rfl, h.2 hash]
    by_cases hmem : hash ∈ hashes
    · simp [hmem]
    · simp [hmem, List.count_eq_zero_of_not_mem hmem]
  · rw [if_neg hne, h.2 hash]
    simp [hne, List.count_append, hne.symm]

/-- One answer is counted when it is successful. -/
theorem Counts.countAck {hashes : List String} {counted : SortedMap String ℕ × ℕ} (h : Counts hashes counted)
    (retData : String) :
    Counts (hashes ++ reportedHashes parse [retData]) (countAck parse counted retData) := by
  unfold Tfs.Ca.countAck reportedHashes
  cases hparse : parse retData with
  | none => simpa [hparse] using h
  | some ack =>
    by_cases hsuccess : ack.success = true ∧ ack.hash ≠ ""
    · simpa [hparse, hsuccess] using h.concat ack.hash
    · rcases Bool.eq_false_or_eq_true ack.success with hs | hs
      · have hempty : ack.hash = "" := by
          by_contra hne
          exact hsuccess ⟨hs, hne⟩
        simpa [hparse, hs, hempty] using h
      · simpa [hparse, hs] using h

theorem reportedHashes_cons (retData : String) (retDatas : List String) :
    reportedHashes parse (retData :: retDatas) =
      reportedHashes parse [retData] ++ reportedHashes parse retDatas := by
  rw [← List.singleton_append]
  simp only [reportedHashes, List.filterMap_append, List.filter_append, List.map_append]

/-- The loop over the answers counts what they report. -/
theorem Counts.foldl_countAck : ∀ {retDatas hashes : List String} {counted : SortedMap String ℕ × ℕ},
    Counts hashes counted →
      Counts (hashes ++ reportedHashes parse retDatas) (retDatas.foldl (Tfs.Ca.countAck parse) counted)
  | [], _, _, h => by simpa [reportedHashes] using h
  | retData :: retDatas, hashes, counted, h => by
    rw [reportedHashes_cons, ← List.append_assoc, List.foldl_cons]
    exact (h.countAck retData).foldl_countAck

theorem foldl_largest_mem : ∀ {rest : List (String × ℕ)} {first : String × ℕ},
    rest.foldl (fun largest e => if largest.2 < e.2 then e else largest) first ∈ first :: rest
  | [], first => List.mem_singleton.mpr rfl
  | e :: rest, first => by
    rw [List.foldl_cons]
    have hmem := @foldl_largest_mem rest (if first.2 < e.2 then e else first)
    rcases List.mem_cons.mp hmem with h | h
    · rw [h]
      split
      · simp
      · simp
    · exact List.mem_cons_of_mem _ (List.mem_cons_of_mem _ h)

theorem maxElement_mem {l : List (String × ℕ)} {e : String × ℕ} (h : maxElement l = some e) : e ∈ l := by
  cases l with
  | nil => cases h
  | cons first rest =>
    cases h
    exact foldl_largest_mem

end Counting

/-! ### One run -/

/-- The hash of the height that the local chain gave in this pass, reported by at least nine tenths of
    the successful answers of the same pass. -/
structure Confirmed (parse : String → Option GetCheckSumHashAck) (round : CheckRound) (height : ℕ)
    (hash : String) : Prop where
  isLocal : hash = round.calc1000HeightsSumHash height
  reported : 9 * (reportedHashes parse (round.waitData height).2).length ≤
    10 * (reportedHashes parse (round.waitData height).2).count hash

variable {parse : String → Option GetCheckSumHashAck}

theorem compareAnswers_eq_agreed {node : CheckBlocks} {retDatas : List String}
    (h : node.compareAnswers parse retDatas = .agreed) :
    9 * (reportedHashes parse retDatas).length ≤
      10 * (reportedHashes parse retDatas).count node.tempTopDate.2 := by
  have hcounts : Counts (reportedHashes parse retDatas) (retDatas.foldl (countAck parse) (.empty, 0)) := by
    exact @Counts.foldl_countAck parse retDatas [] _ counts_nil
  rw [CheckBlocks.compareAnswers] at h
  split at h
  · cases h
  · split at h
    · cases h
    · rename_i maxIterator hmax
      obtain ⟨hash, num⟩ := maxIterator
      split at h
      · rename_i hbyzantine
        split at h
        · rename_i hhash
          have hfind := SortedMap.mem_iff_find.mp (maxElement_mem hmax)
          rw [hcounts.2 hash] at hfind
          split at hfind
          · rw [← hhash, ← hcounts.1, Option.some.inj hfind]
            exact hbyzantine
          · cases hfind
        · cases h
      · cases h

@[simp] theorem setTempTopData_topBlockHeight (node : CheckBlocks) (height : ℕ) (hash : String) :
    (node.setTempTopData height hash).topBlockHeight = node.topBlockHeight := rfl

@[simp] theorem setTempTopData_tempTopDate (node : CheckBlocks) (height : ℕ) (hash : String) :
    (node.setTempTopData height hash).tempTopDate = (height, hash) := rfl

variable (parse) in
/-- A pass leaves the height alone; where the peers agree, the temporary data are the height asked for
    and its confirmed hash. -/
theorem pass_spec (node : CheckBlocks) (height : ℕ) (round : CheckRound) :
    (node.pass parse height round).2.topBlockHeight = node.topBlockHeight ∧
      ((node.pass parse height round).1 = .agreed →
        (node.pass parse height round).2.tempTopDate = (height, round.calc1000HeightsSumHash height) ∧
        Confirmed parse round height (round.calc1000HeightsSumHash height)) := by
  rw [CheckBlocks.pass]
  dsimp only
  split
  · simp
  split
  · simp
  split
  · simp
  split
  · simp
  split
  · simp
  split
  · simp
  refine ⟨by simp, fun h => ⟨by simp, rfl, ?_⟩⟩
  simpa using compareAnswers_eq_agreed h

/-- The tables after the hash of the pass was stored for the height. -/
def CheckTables.put (db : CheckTables) (height : ℕ) (round : CheckRound) : CheckTables :=
  ⟨some height, db.checkBlockHashs.set height (round.calc1000HeightsSumHash height),
    db.storedIn.set height round⟩

/-- The two writes of the pass and its commit succeed. -/
def CheckRound.writes (round : CheckRound) : Prop :=
  round.setCheckBlockHashsByBlockHeight = true ∧ round.setTopThousandSumhash = true ∧
    round.transactionCommit = true

instance (round : CheckRound) : Decidable round.writes := inferInstanceAs (Decidable (_ ∧ _ ∧ _))

/-- The writing changes the tables only when all of it succeeds and the height follows on the stored
    one, as this pass reads it. -/
theorem write_cases (db : CheckTables) (round : CheckRound) (height : ℕ) :
    let written := db.write round (height, round.calc1000HeightsSumHash height)
    (round.writes ∧ db.readTop round.getTopThousandSumhash = heightBefore height ∧
      written = (0, db.put height round)) ∨
    (¬ (round.writes ∧ db.readTop round.getTopThousandSumhash = heightBefore height) ∧
      written.2 = db) := by
  have hread : ({ db with
      checkBlockHashs := db.checkBlockHashs.set height (round.calc1000HeightsSumHash height)
      storedIn := db.storedIn.set height round } : CheckTables).readTop round.getTopThousandSumhash =
      db.readTop round.getTopThousandSumhash := rfl
  simp only [CheckTables.write, hread, CheckRound.writes]
  split
  · exact .inr (by simp_all)
  · rename_i hset
    split
    · exact .inr (by simp_all)
    · rename_i hlast
      split
      · exact .inr (by simp_all)
      · rename_i htop
        split
        · exact .inr (by simp_all)
        · rename_i hcommit
          refine .inl ⟨⟨?_, ?_, ?_⟩, not_not.mp hlast, rfl⟩
          · exact Bool.eq_true_of_not_eq_false hset
          · exact Bool.eq_true_of_not_eq_false htop
          · exact Bool.eq_true_of_not_eq_false hcommit

namespace CheckState

/-- The pass in which the loop comes to write: the first that does not lead to another one, if the peers
    agree in it. -/
def agreedRound (parse : String → Option GetCheckSumHashAck) (node : CheckBlocks) :
    List CheckRound → Option CheckRound
  | [] => none
  | round :: rounds =>
    match node.pass parse node.nextHeight round with
    | (.ret _, _) => none
    | (.again, node) => agreedRound parse node rounds
    | (.agreed, _) => some round

variable (parse) in
/-- The loop stores the confirmed hash of the next height in the pass in which the peers agree, or
    leaves the tables as they are. -/
theorem loop_cases : ∀ (rounds : List CheckRound) (s : CheckState),
    (∃ round, agreedRound parse s.node rounds = some round ∧ round.writes ∧
      s.db.readTop round.getTopThousandSumhash = heightBefore s.node.nextHeight ∧
      Confirmed parse round s.node.nextHeight (round.calc1000HeightsSumHash s.node.nextHeight) ∧
      (loop parse s rounds).1 = some 0 ∧
      (loop parse s rounds).2.db = s.db.put s.node.nextHeight round) ∨
    ((∀ round, agreedRound parse s.node rounds = some round →
        ¬ (round.writes ∧
          s.db.readTop round.getTopThousandSumhash = heightBefore s.node.nextHeight)) ∧
      (loop parse s rounds).2.db = s.db)
  | [], s => .inr ⟨fun _ h => (by cases h), rfl⟩
  | round :: rounds, s => by
    obtain ⟨hheight, hagreed⟩ := pass_spec parse s.node s.node.nextHeight round
    rw [agreedRound, loop]
    generalize s.node.pass parse s.node.nextHeight round = passed at hheight hagreed
    obtain ⟨_ | _ | _, node⟩ := passed
    · exact .inr ⟨fun _ h => (by cases h), rfl⟩
    · have hnext : node.nextHeight = s.node.nextHeight := by
        rw [CheckBlocks.nextHeight, CheckBlocks.nextHeight, hheight]
      rw [← hnext]
      exact loop_cases rounds { s with node := node }
    · obtain ⟨htemp, hconfirmed⟩ := hagreed rfl
      dsimp only at htemp ⊢
      rw [htemp]
      rcases write_cases s.db round s.node.nextHeight with ⟨hwrites, hlast, hwritten⟩ | ⟨hnot, hwritten⟩
      · rw [hwritten]
        exact .inl ⟨round, rfl, hwrites, hlast, hconfirmed, rfl, rfl⟩
      · refine .inr ⟨?_, hwritten⟩
        rintro _ ⟨⟩
        exact hnot

theorem started_topBlockHeight (s : CheckState) (call : CheckCall) :
    (s.started call).topBlockHeight = s.db.readTop call.getTopThousandSumhash := by
  rw [started, CheckTables.readTop]
  cases call.getTopThousandSumhash with
  | false => rfl
  | true => cases hdb : s.db.topThousandSumhash <;> rfl

/-- The height a run asks for. -/
def askedHeight (s : CheckState) (call : CheckCall) : ℕ :=
  (s.db.readTop call.getTopThousandSumhash + 1000) % heightModulus

theorem started_nextHeight (s : CheckState) (call : CheckCall) :
    (s.started call).nextHeight = s.askedHeight call := by
  rw [CheckBlocks.nextHeight, started_topBlockHeight, askedHeight]

/-- The run comes to its loop: no other one is going on, and the chain is high enough above the top that
    the run reads. -/
structure EntersLoop (s : CheckState) (call : CheckCall) (selfNodeHeight : ℕ) : Prop where
  alone : s.node.checkRuning = false
  blockTop : call.getBlockTop = some selfNodeHeight
  first : ¬ ((s.started call).topBlockHeight = 0 ∧ selfNodeHeight < 1100)
  enough : ¬ selfNodeHeight < ((s.started call).topBlockHeight + 1100) % heightModulus

/-- In this pass of the run the peers agree with the local hash, and what it writes is written. -/
def WritesIn (parse : String → Option GetCheckSumHashAck) (s : CheckState) (call : CheckCall)
    (round : CheckRound) : Prop :=
  (∃ selfNodeHeight, s.EntersLoop call selfNodeHeight) ∧
    agreedRound parse (s.started call) call.rounds = some round ∧ round.writes

@[simp] theorem scopeExit_fst (result : Option ℤ × CheckState) : (scopeExit result).1 = result.1 := by
  obtain ⟨_ | _, _⟩ := result <;> rfl

@[simp] theorem scopeExit_db (result : Option ℤ × CheckState) :
    (scopeExit result).2.db = result.2.db := by
  obtain ⟨_ | _, _⟩ := result <;> rfl

variable (parse) in
/-- A run that comes to its loop does what the loop does; any other leaves the tables alone. -/
theorem toCheck_eq (s : CheckState) (call : CheckCall) :
    ((∃ selfNodeHeight, s.EntersLoop call selfNodeHeight) ∧
      toCheck parse s call = scopeExit (loop parse ⟨s.started call, s.db⟩ call.rounds)) ∨
    ((∀ selfNodeHeight, ¬ s.EntersLoop call selfNodeHeight) ∧ (toCheck parse s call).2.db = s.db) := by
  rw [toCheck]
  split
  · rename_i hruning
    refine .inr ⟨fun _ h => ?_, rfl⟩
    rw [h.alone] at hruning
    cases hruning
  · rename_i hruning
    dsimp only
    split
    · rename_i htop
      refine .inr ⟨fun _ h => ?_, scopeExit_db _⟩
      rw [h.blockTop] at htop
      cases htop
    · rename_i selfNodeHeight htop
      have hsame : ∀ h, s.EntersLoop call h → h = selfNodeHeight := fun h henters =>
        Option.some.inj (henters.blockTop.symm.trans htop)
      split
      · rename_i hlow
        refine .inr ⟨fun h henters => ?_, scopeExit_db _⟩
        rw [hsame h henters] at henters
        exact henters.first hlow
      · rename_i hfirst
        split
        · rename_i hlow
          refine .inr ⟨fun h henters => ?_, scopeExit_db _⟩
          rw [hsame h henters] at henters
          exact henters.enough hlow
        · rename_i henough
          exact .inl ⟨⟨selfNodeHeight, by simpa using hruning, htop, hfirst, henough⟩, rfl⟩

variable (parse) in
/-- A run stores the confirmed hash of the height it asked for, or it leaves the tables alone. -/
theorem toCheck_cases (s : CheckState) (call : CheckCall) :
    (∃ round, WritesIn parse s call round ∧
      s.db.readTop round.getTopThousandSumhash = heightBefore (s.askedHeight call) ∧
      Confirmed parse round (s.askedHeight call) (round.calc1000HeightsSumHash (s.askedHeight call)) ∧
      (toCheck parse s call).1 = some 0 ∧
      (toCheck parse s call).2.db = s.db.put (s.askedHeight call) round) ∨
    ((∀ round, WritesIn parse s call round →
        s.db.readTop round.getTopThousandSumhash ≠ heightBefore (s.askedHeight call)) ∧
      (toCheck parse s call).2.db = s.db) := by
  rcases toCheck_eq parse s call with ⟨henters, heq⟩ | ⟨hnot, hdb⟩
  · rw [heq, scopeExit_fst, scopeExit_db, ← started_nextHeight]
    rcases loop_cases parse call.rounds ⟨s.started call, s.db⟩ with
      ⟨round, hround, hwrites, hlast, hconfirmed, hret, hdb⟩ | ⟨hnone, hdb⟩
    · exact .inl ⟨round, ⟨henters, hround, hwrites⟩, hlast, hconfirmed, hret, hdb⟩
    · refine .inr ⟨?_, hdb⟩
      rintro round ⟨-, hround, hwrites⟩ hlast
      exact hnone round hround ⟨hwrites, hlast⟩
  · refine .inr ⟨?_, hdb⟩
    rintro round ⟨⟨selfNodeHeight, henters⟩, -, -⟩
    exact absurd henters (hnot selfNodeHeight)

end CheckState

/-! ### Runs after each other -/

/-- The stored top, zero when there is none. -/
def CheckTables.top (db : CheckTables) : ℕ := db.topThousandSumhash.getD 0

/-- Every positive multiple of 1000 up to the stored top has a stored hash, which was confirmed in the
    pass that stored it. -/
def CheckTables.Covered (parse : String → Option GetCheckSumHashAck) (db : CheckTables) : Prop :=
  ∀ k, 0 < k → 1000 * k ≤ db.top → ∃ hash round, db.checkBlockHashs (1000 * k) = some hash ∧
    db.storedIn (1000 * k) = some round ∧ Confirmed parse round (1000 * k) hash

/-- No check data are stored. -/
def CheckTables.empty : CheckTables := ⟨none, .empty, .empty⟩

namespace CheckState

/-- One run after the other. -/
def next (parse : String → Option GetCheckSumHashAck) (s : CheckState) (call : CheckCall) : CheckState :=
  (toCheck parse s call).2

/-- What a run has to keep: without success nothing changes, the top stays or grows by 1000, and the
    heights up to it are covered. -/
structure RunKeeps (parse : String → Option GetCheckSumHashAck) (s : CheckState) (call : CheckCall) :
    Prop where
  unchanged : (toCheck parse s call).1 ≠ some 0 → (s.next parse call).db = s.db
  grows : (s.next parse call).db.top = s.db.top ∨ (s.next parse call).db.top = s.db.top + 1000
  covered : (s.next parse call).db.Covered parse

/-- A run that comes to write does not do so with both its reads of the top failed while more than 1000
    is stored, and not beyond the largest height. -/
def ReadsTop (parse : String → Option GetCheckSumHashAck) (s : CheckState) (call : CheckCall) : Prop :=
  ∀ round, WritesIn parse s call round →
    (call.getTopThousandSumhash = false → round.getTopThousandSumhash = false → s.db.top ≤ 1000) ∧
    (call.getTopThousandSumhash = true → round.getTopThousandSumhash = true →
      s.db.top + 1000 < heightModulus)

/-- The state between two runs: the top is a multiple of 1000, and covered. -/
structure Chained (parse : String → Option GetCheckSumHashAck) (s : CheckState) : Prop where
  multiple : s.db.top % 1000 = 0
  fits : s.db.top < heightModulus
  covered : s.db.Covered parse

end CheckState

theorem top_put (db : CheckTables) (height : ℕ) (round : CheckRound) :
    (db.put height round).top = height := rfl

/-- A confirmed hash at the top or right above it leaves the heights covered. -/
theorem CheckTables.Covered.put {db : CheckTables} (h : db.Covered parse) {height : ℕ} {round : CheckRound}
    (hnext : height = db.top ∨ height = db.top + 1000) (hmultiple : db.top % 1000 = 0)
    (hconfirmed : Confirmed parse round height (round.calc1000HeightsSumHash height)) :
    (db.put height round).Covered parse := by
  intro k hpos hle
  rw [top_put] at hle
  by_cases hheight : 1000 * k = height
  · rw [hheight]
    exact ⟨_, round, StdMap.set_self _ _ _, StdMap.set_self _ _ _, hconfirmed⟩
  · obtain ⟨hash, round', hhash, hround, hconf⟩ := h k hpos (by omega)
    refine ⟨hash, round', ?_, ?_, hconf⟩
    · rw [← hhash]
      exact StdMap.set_ne _ _ hheight
    · rw [← hround]
      exact StdMap.set_ne _ _ hheight

theorem heightBefore_next {height : ℕ} (h : height < heightModulus) :
    heightBefore ((height + 1000) % heightModulus) = height := by
  rw [heightBefore]
  simp only [heightModulus] at h ⊢
  omega

/-- A write happens when both reads give the same; it is at the top or right above it exactly when they
    are reads of the stored top, or of one that is 1000 at most. -/
theorem asked_next_iff {db : CheckTables} {first second : Bool} (hmultiple : db.top % 1000 = 0)
    (hfits : db.top < heightModulus) (hsame : db.readTop second = db.readTop first) :
    ((db.readTop first + 1000) % heightModulus = db.top ∨
      (db.readTop first + 1000) % heightModulus = db.top + 1000) ↔
    (first = false → second = false → db.top ≤ 1000) ∧
      (first = true → second = true → db.top + 1000 < heightModulus) := by
  have hfirst : db.readTop true = db.top := rfl
  have hfailed : db.readTop false = 0 := rfl
  simp only [heightModulus] at hfits ⊢
  cases first <;> cases second <;> simp only [hfirst, hfailed] at hsame ⊢ <;> simp <;> omega

theorem readTop_lt {db : CheckTables} (hfits : db.top < heightModulus) (works : Bool) :
    db.readTop works < heightModulus := by
  cases works with
  | true => exact hfits
  | false => exact Nat.zero_lt_of_lt hfits

namespace CheckState

/-- One run keeps what it has to keep exactly when it reads the top it writes after. -/
theorem Chained.runKeeps_iff {s : CheckState} (h : s.Chained parse) (call : CheckCall) :
    RunKeeps parse s call ↔ ReadsTop parse s call := by
  have hbefore := heightBefore_next (readTop_lt h.fits call.getTopThousandSumhash)
  rcases toCheck_cases parse s call with
    ⟨round, hwrites, hlast, hconfirmed, hret, hdb⟩ | ⟨hnone, hdb⟩
  · rw [askedHeight, hbefore] at hlast
    have hiff := asked_next_iff h.multiple h.fits hlast
    constructor
    · rintro ⟨-, hgrows, -⟩ other hother
      obtain rfl : round = other := Option.some.inj (hwrites.2.1.symm.trans hother.2.1)
      rw [next, hdb, top_put] at hgrows
      exact hiff.mp hgrows
    · intro hreads
      have hnext := hiff.mpr (hreads round hwrites)
      refine ⟨fun hne => absurd hret hne, ?_, ?_⟩
      · rw [next, hdb, top_put]
        exact hnext
      · rw [next, hdb]
        exact h.covered.put hnext h.multiple hconfirmed
  · refine iff_of_true ⟨fun _ => hdb, .inl (congrArg _ hdb), hdb ▸ h.covered⟩ ?_
    intro round hwrites
    have hlast := hnone round hwrites
    rw [askedHeight, hbefore] at hlast
    -- reads that differ are neither both failed nor both good
    refine ⟨fun hfirst hsecond => ?_, fun hfirst hsecond => ?_⟩
    · rw [hfirst, hsecond] at hlast
      exact absurd rfl hlast
    · rw [hfirst, hsecond] at hlast
      exact absurd rfl hlast

theorem Chained.next {s : CheckState} (h : s.Chained parse) {call : CheckCall}
    (hkeeps : RunKeeps parse s call) : (s.next parse call).Chained parse := by
  refine ⟨?_, ?_, hkeeps.covered⟩
  · have := h.multiple
    rcases hkeeps.grows with hgrows | hgrows <;> omega
  · rcases toCheck_cases parse s call with ⟨round, -, -, -, -, hdb⟩ | ⟨-, hdb⟩
    · rw [CheckState.next, hdb, top_put, askedHeight]
      exact Nat.mod_lt _ (by decide)
    · rw [CheckState.next, hdb]
      exact h.fits

/-- Along every sequence of runs of `_ToCheck` from a store without check data, whatever the local chain,
    the peers and the store answer: the stored top grows by 1000 at a time only, every multiple of 1000
    up to it has a hash that was confirmed when it was stored, and a run that ends with an error changes
    nothing, exactly when every run that writes has read the top it writes after. -/
theorem runsKeep_iff_readsTop (parse : String → Option GetCheckSumHashAck) (node : CheckBlocks)
    (calls : List CheckCall) :
    EveryStep (next parse) (RunKeeps parse) ⟨node, .empty⟩ calls ↔
      EveryStep (next parse) (ReadsTop parse) ⟨node, .empty⟩ calls := by
  refine everyStep_congr (P := Chained parse) (fun s call h => h.runKeeps_iff call) ?_ ?_
  · intro s call h hreads
    exact h.next ((h.runKeeps_iff call).mpr hreads)
  · refine ⟨rfl, Nat.two_pow_pos 64, fun k hpos hle => ?_⟩
    have : 1000 * k ≤ 0 := hle
    omega

/-- A pass in which one peer is asked and reports the local hash. -/
def samplePass (getTopThousandSumhash : Bool) : CheckRound where
  calc1000HeightsSumHash _ := "5f"
  getPledgeAddr := 0
  getSyncNode _ := some ["peer"]
  createWait := true
  addResNode _ := true
  waitData _ := (true, ["5f"])
  setCheckBlockHashsByBlockHeight := true
  getTopThousandSumhash := getTopThousandSumhash
  setTopThousandSumhash := true
  transactionCommit := true

/-- A run at height 4000 whose first pass ends it; its reads of the top work, or both fail. -/
def sampleCall (reads : Bool) : CheckCall := ⟨reads, some 4000, [samplePass reads]⟩

/-- After two runs the stored top is 2000. In a third run both reads of it fail, the run checks the first
    thousand heights once more and stores 1000. -/
theorem runsKeep_fails_failedReads :
    ¬ EveryStep (next fun data => some ⟨true, data⟩) (RunKeeps fun data => some ⟨true, data⟩)
      ⟨⟨0, "", (0, ""), false⟩, .empty⟩ [sampleCall true, sampleCall true, sampleCall false] := by
  rintro ⟨-, -, hlast, -⟩
  have htops : ∀ top top', top = 2000 ∧ top' = 1000 → ¬ (top' = top ∨ top' = top + 1000) := by omega
  refine htops _ _ ?_ hlast.grows
  decide

end CheckState

end Tfs.Ca
