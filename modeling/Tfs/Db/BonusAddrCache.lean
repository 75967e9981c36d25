import Tfs.Proto
import Tfs.Lib.Word

/-! The cache of invested amounts (`db/cache.cpp`).

    An amount that is not dirty and large enough is answered from the cache; otherwise the invest
    records are summed up anew, and only a sum that came to its end is kept. The time of an entry is
    written on the way, also where a later read fails. -/

namespace Tfs.Db.BonusAddrCache

/-! ### The cache -/

/-- `BonusAddrInfo`. -/
structure BonusAddrInfo where
  dirty : Bool
  amount : UInt64
  utxos : Finset Str
  time : UInt64

/-- What `bonus_addr_[bonusAddr]` inserts. -/
def BonusAddrInfo.fresh : BonusAddrInfo := ⟨true, 0, ∅, 0⟩

/-- The invest records of the store; a key without a record has an empty one. -/
structure InvestRecords where
  investAddrs : Str → List Str
  investUtxos : Str → Str → List Str

/-- The constants, and the transactions by their hash. -/
structure CacheEnv where
  kMinInvestAmt : UInt64
  kVirtualInvestAddr : Str
  transactionByHash : Str → Str
  parseFromString : Str → Option CTransaction

variable (env : CacheEnv) (db : InvestRecords)

/-- The inner loop over the outputs: the first one of the address counts. -/
def firstInvestValue (tx : CTransaction) : UInt64 :=
  match tx.utxo.vout.find? (·.addr = env.kVirtualInvestAddr) with
  | none => 0
  | some vout => vout.value.toUInt64

/-- The locals of `getAmount`, with the entry and the number of reads so far. -/
structure Scan where
  info : BonusAddrInfo
  sumInvestAmount : UInt64
  flag : Bool
  reads : ℕ

/-- The loop over the UTXOs of an investor; `fails` says which reads of the store fail. A failure
    leaves its code and what became of the entry. -/
def addUtxo (fails : ℕ → Bool) (scan : Scan) (hash : Str) : Except (ℤ × BonusAddrInfo) Scan :=
  if fails scan.reads then .error (-3, scan.info)
  else
    let info := { scan.info with utxos := insert hash scan.info.utxos }
    match env.parseFromString (env.transactionByHash hash) with
    | none => .error (-4, info)
    | some tx =>
      let sumInvestAmount := scan.sumInvestAmount + firstInvestValue env tx
      if env.kMinInvestAmt ≤ sumInvestAmount ∧ scan.flag = true then
        .ok ⟨{ info with time := tx.time }, sumInvestAmount, false, scan.reads + 1⟩
      else .ok ⟨info, sumInvestAmount, scan.flag, scan.reads + 1⟩

/-- The loop over the investors. -/
def addInvestor (fails : ℕ → Bool) (bonusAddr : Str) (scan : Scan) (addr : Str) :
    Except (ℤ × BonusAddrInfo) Scan :=
  if fails scan.reads then .error (-2, scan.info)
  else (db.investUtxos bonusAddr addr).foldlM (addUtxo env fails) { scan with reads := scan.reads + 1 }

/-- The part of `getAmount` that reads the store. -/
def sumUp (fails : ℕ → Bool) (bonusAddr : Str) (info : BonusAddrInfo) : Except (ℤ × BonusAddrInfo) Scan :=
  let info := { info with utxos := ∅ }
  if fails 0 then .error (-1, info)
  else (db.investAddrs bonusAddr).foldlM (addInvestor env db fails bonusAddr) ⟨info, 0, true, 1⟩

/-- `amount`, as far as the entry gives it. -/
def cachedAmount (info : BonusAddrInfo) : UInt64 := if !info.dirty then info.amount else 0

/-- `BonusAddrCache::getAmount` on the entry of the address: the code, `amount`, and the entry. -/
def getAmount (fails : ℕ → Bool) (bonusAddr : Str) (info : BonusAddrInfo) : ℤ × UInt64 × BonusAddrInfo :=
  if env.kMinInvestAmt ≤ cachedAmount info then (0, cachedAmount info, info)
  else
    match sumUp env db fails bonusAddr info with
    | .error (code, info') => (code, cachedAmount info, info')
    | .ok scan => (0, scan.sumInvestAmount, { scan.info with amount := scan.sumInvestAmount, dirty := false })

/-! ### What the records say -/

/-- The invest UTXOs of an address, in the order of the store. -/
def investHashes (bonusAddr : Str) : List Str := (db.investAddrs bonusAddr).flatMap (db.investUtxos bonusAddr)

/-- The value of an invest UTXO. -/
def investValue (hash : Str) : ℕ :=
  ((env.parseFromString (env.transactionByHash hash)).map fun tx => (firstInvestValue env tx).toNat).getD 0

/-- The time of the transaction of a UTXO. -/
def investTime (hash : Str) : UInt64 := ((env.parseFromString (env.transactionByHash hash)).map (·.time)).getD 0

/-- The sum over UTXOs, in words. -/
def wordSum (hashes : List Str) : ℕ := (hashes.map (investValue env)).sum % 2 ^ 64

/-- The running sum first reaches the least amount with this UTXO. -/
def FirstReaches (hashes : List Str) (hash : Str) : Prop :=
  ∃ before after, hashes = before ++ hash :: after ∧
    (∀ done, done <+: before → wordSum env done < env.kMinInvestAmt.toNat) ∧
    env.kMinInvestAmt.toNat ≤ wordSum env (before ++ [hash])

/-- An amount and a time are those of the records. -/
structure Agrees (bonusAddr : Str) (amount time : UInt64) : Prop where
  sum : amount.toNat = wordSum env (investHashes db bonusAddr)
  reached : env.kMinInvestAmt ≤ amount → ∃ hash, FirstReaches env (investHashes db bonusAddr) hash ∧
    time = investTime env hash

/-- What the loops keep, after the UTXOs `done`: the sum, and the time once the least amount was
    reached. -/
structure Scanned (done : List Str) (scan : Scan) : Prop where
  sum : scan.sumInvestAmount.toNat = wordSum env done
  below : scan.flag = true → ∀ front, front <+: done → wordSum env front < env.kMinInvestAmt.toNat
  reached : scan.flag = false → ∃ hash, FirstReaches env done hash ∧ scan.info.time = investTime env hash

variable {env db}

theorem wordSum_concat (done : List Str) (hash : Str) :
    wordSum env (done ++ [hash]) = (wordSum env done + investValue env hash) % 2 ^ 64 := by
  simp [wordSum]

theorem FirstReaches.append {hashes : List Str} {hash : Str} (h : FirstReaches env hashes hash)
    (more : List Str) :
    FirstReaches env (hashes ++ more) hash := by
  obtain ⟨before, after, rfl, hbefore, hreach⟩ := h
  exact ⟨before, after ++ more, by simp, hbefore, hreach⟩

/-! ### One pass over the records -/

/-- A UTXO more. -/
theorem Scanned.addUtxo {fails : ℕ → Bool} {done : List Str} {scan scan' : Scan} {hash : Str}
    (h : Scanned env done scan) (hadd : addUtxo env fails scan hash = .ok scan') :
    Scanned env (done ++ [hash]) scan' := by
  rw [BonusAddrCache.addUtxo] at hadd
  split at hadd
  · cases hadd
  split at hadd
  · cases hadd
  rename_i tx htx
  have hvalue : investValue env hash = (firstInvestValue env tx).toNat := by rw [investValue, htx]; rfl
  have hsum : (scan.sumInvestAmount + firstInvestValue env tx).toNat = wordSum env (done ++ [hash]) := by
    rw [wordSum_concat, UInt64.toNat_add, h.sum, hvalue]
  dsimp only at hadd
  split_ifs at hadd with hreach
  · obtain rfl := Except.ok.inj hadd
    refine ⟨hsum, nofun, fun _ => ⟨hash, ⟨done, [], rfl, h.below hreach.2, ?_⟩, by rw [investTime, htx]; rfl⟩⟩
    rw [← hsum]
    exact UInt64.le_iff_toNat_le.mp hreach.1
  · obtain rfl := Except.ok.inj hadd
    refine ⟨hsum, fun hflag front hfront => ?_, fun hflag => ?_⟩
    · -- the flag is still up: the new sum is below the least amount
      have hlt : ¬ env.kMinInvestAmt ≤ scan.sumInvestAmount + firstInvestValue env tx :=
        fun hle => hreach ⟨hle, hflag⟩
      rw [UInt64.le_iff_toNat_le, hsum, not_le] at hlt
      rcases List.prefix_concat_iff.mp hfront with rfl | hfront
      · exact hlt
      · exact h.below hflag front hfront
    · obtain ⟨first, hfirst, htime⟩ := h.reached hflag
      exact ⟨first, hfirst.append [hash], htime⟩

theorem Scanned.addUtxos {fails : ℕ → Bool} : ∀ {hashes done : List Str} {scan scan' : Scan},
    Scanned env done scan → hashes.foldlM (BonusAddrCache.addUtxo env fails) scan = .ok scan' →
      Scanned env (done ++ hashes) scan'
  | [], done, scan, scan', h, hrun => by
    obtain rfl := Except.ok.inj hrun
    simpa using h
  | hash :: hashes, done, scan, scan', h, hrun => by
    rw [List.foldlM_cons] at hrun
    obtain ⟨next, hnext, hrun⟩ := bind_eq_ok.mp hrun
    have hall := (h.addUtxo hnext).addUtxos hrun
    rwa [List.append_assoc, List.singleton_append] at hall

theorem Scanned.addInvestors {fails : ℕ → Bool} {bonusAddr : Str} : ∀ {addrs done : List Str}
    {scan scan' : Scan},
    Scanned env done scan → addrs.foldlM (addInvestor env db fails bonusAddr) scan = .ok scan' →
      Scanned env (done ++ addrs.flatMap (db.investUtxos bonusAddr)) scan'
  | [], done, scan, scan', h, hrun => by
    obtain rfl := Except.ok.inj hrun
    simpa using h
  | addr :: addrs, done, scan, scan', h, hrun => by
    rw [List.foldlM_cons] at hrun
    obtain ⟨next, hnext, hrun⟩ := bind_eq_ok.mp hrun
    rw [addInvestor] at hnext
    split_ifs at hnext
    have hstart : Scanned env done { scan with reads := scan.reads + 1 } := ⟨h.sum, h.below, h.reached⟩
    have hall := (hstart.addUtxos hnext).addInvestors hrun
    rwa [List.append_assoc, ← List.flatMap_cons] at hall

/-- A pass that comes to its end has the sum and the time of the records. -/
theorem sumUp_agrees (hmin : 0 < env.kMinInvestAmt) {fails : ℕ → Bool} {bonusAddr : Str}
    {info : BonusAddrInfo} {scan : Scan}
    (h : sumUp env db fails bonusAddr info = .ok scan) :
    Agrees env db bonusAddr scan.sumInvestAmount scan.info.time := by
  rw [sumUp] at h
  split_ifs at h
  have hstart : Scanned env [] ⟨{ info with utxos := ∅ }, 0, true, 1⟩ := by
    refine ⟨rfl, fun _ front hfront => ?_, nofun⟩
    rw [List.prefix_nil.mp hfront]
    exact UInt64.lt_iff_toNat_lt.mp hmin
  have hscan := hstart.addInvestors h
  rw [List.nil_append] at hscan
  refine ⟨hscan.sum, fun hle => ?_⟩
  cases hflag : scan.flag with
  | false => exact hscan.reached hflag
  | true =>
    have hlt := hscan.below hflag _ List.prefix_rfl
    rw [← hscan.sum] at hlt
    exact absurd (UInt64.le_iff_toNat_le.mp hle) (Nat.not_le.mpr hlt)

/-! ### A pass that fails -/

/-- The flag and the amount of an entry are written at the end of a pass only. -/
structure Untouched (info info' : BonusAddrInfo) : Prop where
  dirty : info'.dirty = info.dirty
  amount : info'.amount = info.amount

/-- What a part of a pass leaves behind, whether it fails or not. -/
def Leaves (info : BonusAddrInfo) : Except (ℤ × BonusAddrInfo) Scan → Prop
  | .error (code, info') => code < 0 ∧ Untouched info info'
  | .ok scan => Untouched info scan.info

theorem Leaves.trans {info : BonusAddrInfo} {scan : Scan} (h : Untouched info scan.info)
    {result : Except (ℤ × BonusAddrInfo) Scan} (hresult : Leaves scan.info result) : Leaves info result := by
  match result with
  | .error (code, info') => exact ⟨hresult.1, hresult.2.dirty.trans h.dirty, hresult.2.amount.trans h.amount⟩
  | .ok scan' => exact ⟨hresult.dirty.trans h.dirty, hresult.amount.trans h.amount⟩

theorem leaves_foldlM {f : Scan → Str → Except (ℤ × BonusAddrInfo) Scan}
    (hf : ∀ scan x, Leaves scan.info (f scan x)) :
    ∀ (l : List Str) (scan : Scan), Leaves scan.info (l.foldlM f scan)
  | [], scan => ⟨rfl, rfl⟩
  | x :: l, scan => by
    have hx := hf scan x
    rw [List.foldlM_cons]
    cases hnext : f scan x with
    | error failed =>
      rw [hnext] at hx
      exact hx
    | ok next =>
      rw [hnext] at hx
      exact Leaves.trans hx (leaves_foldlM hf l next)

theorem leaves_addUtxo (fails : ℕ → Bool) (scan : Scan) (hash : Str) :
    Leaves scan.info (addUtxo env fails scan hash) := by
  rw [addUtxo]
  split
  · exact ⟨by norm_num, rfl, rfl⟩
  split
  · exact ⟨by norm_num, rfl, rfl⟩
  dsimp only
  split <;> exact ⟨rfl, rfl⟩

theorem leaves_addInvestor (fails : ℕ → Bool) (bonusAddr : Str) (scan : Scan) (addr : Str) :
    Leaves scan.info (addInvestor env db fails bonusAddr scan addr) := by
  rw [addInvestor]
  split
  · exact ⟨by norm_num, rfl, rfl⟩
  · exact leaves_foldlM (leaves_addUtxo fails) _ { scan with reads := scan.reads + 1 }

theorem leaves_sumUp (fails : ℕ → Bool) (bonusAddr : Str) (info : BonusAddrInfo) :
    Leaves info (sumUp env db fails bonusAddr info) := by
  rw [sumUp]
  split
  · exact ⟨by norm_num, rfl, rfl⟩
  · have hstart : Untouched info { info with utxos := ∅ } := ⟨rfl, rfl⟩
    exact Leaves.trans hstart (leaves_foldlM (leaves_addInvestor fails bonusAddr) _ ⟨_, 0, true, 1⟩)

/-! ### Coherence -/

/-- An entry that is not dirty agrees with the records. -/
def Coherent (env : CacheEnv) (db : InvestRecords) (bonusAddr : Str) (info : BonusAddrInfo) : Prop :=
  info.dirty = false → Agrees env db bonusAddr info.amount info.time

/-- An answer agrees with the records, and so does the time of the entry behind it. -/
theorem Coherent.getAmount_agrees (hmin : 0 < env.kMinInvestAmt) {bonusAddr : Str} {info : BonusAddrInfo}
    (h : Coherent env db bonusAddr info) {fails : ℕ → Bool} {amount : UInt64} {info' : BonusAddrInfo}
    (hget : getAmount env db fails bonusAddr info = (0, amount, info')) :
    Agrees env db bonusAddr amount info'.time := by
  rw [getAmount] at hget
  split_ifs at hget with hcached
  · cases hget
    rw [cachedAmount] at hcached ⊢
    cases hdirty : info.dirty with
    | true =>
      rw [hdirty] at hcached
      exact absurd hcached (UInt64.not_le.mpr hmin)
    | false => exact h hdirty
  · have hleaves : Leaves info (sumUp env db fails bonusAddr info) := leaves_sumUp fails bonusAddr info
    split at hget
    · rename_i code failed hfail
      rw [hfail] at hleaves
      cases hget
      exact absurd hleaves.1 (lt_irrefl 0)
    · rename_i scan hscan
      cases hget
      exact sumUp_agrees hmin hscan

/-- Asking for an amount keeps an entry coherent. -/
theorem Coherent.getAmount (hmin : 0 < env.kMinInvestAmt) {bonusAddr : Str} {info : BonusAddrInfo}
    (h : Coherent env db bonusAddr info) (fails : ℕ → Bool) :
    Coherent env db bonusAddr (getAmount env db fails bonusAddr info).2.2 := by
  rw [BonusAddrCache.getAmount]
  split_ifs with hcached
  · exact h
  · have hleaves : Leaves info (sumUp env db fails bonusAddr info) := leaves_sumUp fails bonusAddr info
    split
    · rename_i code failed hfail
      rw [hfail] at hleaves
      intro hdirty
      -- the amount is still the old one, which was too small for the time to matter
      have hold : info.dirty = false := hleaves.2.dirty ▸ hdirty
      rw [cachedAmount, hold] at hcached
      rw [hleaves.2.amount]
      exact ⟨(h hold).sum, fun hle => absurd hle hcached⟩
    · rename_i scan hscan
      exact fun _ => sumUp_agrees hmin hscan

/-! ### Runs -/

/-- The store, the entries, and the addresses whose records changed after they were last marked. An
    address without an entry has that which is inserted for it. -/
structure State where
  db : InvestRecords
  bonusAddr : Str → BonusAddrInfo
  changed : List Str

/-- No entries yet. -/
def start (db : InvestRecords) : State := ⟨db, fun _ => .fresh, []⟩

/-- One step: the records of an address become others, an address is marked, or its amount is asked
    for. -/
inductive Action where
  | change (bonusAddr : Str) (investAddrs : List Str) (investUtxos : Str → List Str)
  | isDirty (bonusAddr : Str)
  | getAmount (bonusAddr : Str) (fails : ℕ → Bool)

/-- The records of one address become others. -/
def InvestRecords.change (db : InvestRecords) (bonusAddr : Str) (investAddrs : List Str)
    (investUtxos : Str → List Str) :
    InvestRecords :=
  ⟨Function.update db.investAddrs bonusAddr investAddrs, Function.update db.investUtxos bonusAddr investUtxos⟩

/-- `BonusAddrCache::getAmount`: the code and `amount`, and the cache. -/
def State.getAmount (env : CacheEnv) (s : State) (bonusAddr : Str) (fails : ℕ → Bool) : ℤ × UInt64 × State :=
  let result := BonusAddrCache.getAmount env s.db fails bonusAddr (s.bonusAddr bonusAddr)
  (result.1, result.2.1, { s with bonusAddr := Function.update s.bonusAddr bonusAddr result.2.2 })

/-- `BonusAddrCache::getTime`. -/
def State.getTime (s : State) (bonusAddr : Str) : UInt64 := (s.bonusAddr bonusAddr).time

def step (env : CacheEnv) (s : State) : Action → State
  | .change bonusAddr investAddrs investUtxos =>
    { s with db := s.db.change bonusAddr investAddrs investUtxos, changed := bonusAddr :: s.changed }
  | .isDirty bonusAddr =>
    { s with
      bonusAddr := Function.update s.bonusAddr bonusAddr { s.bonusAddr bonusAddr with dirty := true }
      changed := s.changed.filter (· ≠ bonusAddr) }
  | .getAmount bonusAddr fails => (s.getAmount env bonusAddr fails).2.2

/-- What holds all along: the entries of unchanged addresses are coherent. -/
def CacheInv (env : CacheEnv) (s : State) : Prop := ∀ b, b ∉ s.changed → Coherent env s.db b (s.bonusAddr b)

/-- The invest UTXOs of the other addresses are what they were. -/
theorem Coherent.change {b bonusAddr : Str} {info : BonusAddrInfo} (h : Coherent env db b info)
    (hne : b ≠ bonusAddr)
    (investAddrs : List Str) (investUtxos : Str → List Str) :
    Coherent env (db.change bonusAddr investAddrs investUtxos) b info := by
  have hsame : investHashes (db.change bonusAddr investAddrs investUtxos) b = investHashes db b := by
    simp only [investHashes, InvestRecords.change, Function.update_of_ne hne]
  intro hdirty
  have hagrees := h hdirty
  exact ⟨hsame ▸ hagrees.sum, hsame ▸ hagrees.reached⟩

theorem CacheInv.step (hmin : 0 < env.kMinInvestAmt) {s : State} (h : CacheInv env s) (action : Action) :
    CacheInv env (step env s action) := by
  intro b hb
  cases action with
  | change bonusAddr investAddrs investUtxos =>
    obtain ⟨hne, hold⟩ := not_or.mp (List.mem_cons.not.mp hb)
    exact (h b hold).change hne investAddrs investUtxos
  | isDirty bonusAddr =>
    rcases eq_or_ne b bonusAddr with rfl | hne
    · simp [BonusAddrCache.step, Coherent]
    · simp only [BonusAddrCache.step, Function.update_of_ne hne]
      exact h b fun hold => hb (List.mem_filter.mpr ⟨hold, decide_eq_true hne⟩)
  | getAmount bonusAddr fails =>
    rcases eq_or_ne b bonusAddr with rfl | hne
    · simp only [BonusAddrCache.step, State.getAmount, Function.update_self]
      exact (h b hb).getAmount hmin fails
    · simp only [BonusAddrCache.step, State.getAmount, Function.update_of_ne hne]
      exact h b hb

theorem cacheInv_run (hmin : 0 < env.kMinInvestAmt) (actions : List Action) :
    ∀ {s : State}, CacheInv env s → CacheInv env (actions.foldl (step env) s) := by
  induction actions with
  | nil => exact id
  | cons action actions ih => exact fun h => ih (h.step hmin action)

theorem cacheInv_start (db : InvestRecords) : CacheInv env (start db) := fun _ _ hdirty => nomatch hdirty

/-- After every run, an amount that is answered for an address whose changes were marked is the sum,
    in words, over its records; and where that reaches the least amount, the time is that of the
    transaction with which it was reached. -/
theorem answers_agree (env : CacheEnv) (hmin : 0 < env.kMinInvestAmt) (db : InvestRecords)
    (actions : List Action)
    (bonusAddr : Str) (fails : ℕ → Bool) :
    let s := actions.foldl (step env) (start db)
    bonusAddr ∉ s.changed → (s.getAmount env bonusAddr fails).1 = 0 →
      Agrees env s.db bonusAddr (s.getAmount env bonusAddr fails).2.1
        ((s.getAmount env bonusAddr fails).2.2.getTime bonusAddr) := by
  intro s hmarked hcode
  have hcoherent := cacheInv_run hmin actions (cacheInv_start db) bonusAddr hmarked
  have hanswer : getAmount env s.db fails bonusAddr (s.bonusAddr bonusAddr) = (0, _, _) := Prod.ext hcode rfl
  have hagrees := hcoherent.getAmount_agrees hmin hanswer
  simpa only [State.getTime, State.getAmount, Function.update_self] using hagrees

/-- Transactions named by one byte, which invest what the byte says; 255 invests `2 ^ 63 - 1`. -/
def sampleEnv : CacheEnv where
  kMinInvestAmt := 10
  kVirtualInvestAddr := [0]
  transactionByHash := id
  parseFromString := fun raw => raw.head?.map fun (b : UInt8) =>
    { CTransaction.cleared with
      time := b.toUInt64
      utxo := { CTxUtxo.cleared with
        vout := [⟨[0], if b = 255 then Int64.maxValue else Int64.ofNat b.toNat⟩] } }

/-- One investor of the address 9, with these UTXOs. -/
def sampleRun (hashes : List Str) : List Action := [.change [9] [[5]] (fun _ => hashes), .isDirty [9]]

/-- Investments of 6, 7 and 8: the answer is 21, and the least amount of 10 was reached at the time
    7. -/
theorem answers_agree_three :
    let s := (sampleRun [[6], [7], [8]]).foldl (step sampleEnv) (start ⟨fun _ => [], fun _ _ => []⟩)
    (s.getAmount sampleEnv [9] fun _ => false).2.1 = 21 ∧
      (s.getAmount sampleEnv [9] fun _ => false).2.2.getTime [9] = 7 ∧
      Agrees sampleEnv s.db [9] (s.getAmount sampleEnv [9] fun _ => false).2.1
        ((s.getAmount sampleEnv [9] fun _ => false).2.2.getTime [9]) :=
  ⟨by decide, by decide, answers_agree sampleEnv (by decide) _ _ _ _ (by decide) (by decide)⟩

/-- Investments of `2 ^ 63 - 1` twice and of 2: the sum wraps around and 0 is answered. -/
theorem amount_wraps_around : ¬ ∀ (env : CacheEnv) (db : InvestRecords) (actions : List Action)
    (bonusAddr : Str)
    (fails : ℕ → Bool), 0 < env.kMinInvestAmt →
      let s := actions.foldl (step env) (start db)
      bonusAddr ∉ s.changed → (s.getAmount env bonusAddr fails).1 = 0 →
        (s.getAmount env bonusAddr fails).2.1.toNat =
          ((investHashes s.db bonusAddr).map (investValue env)).sum := by
  intro h
  have hsum := h sampleEnv ⟨fun _ => [], fun _ _ => []⟩ (sampleRun [[255], [255], [2]]) [9]
    (fun _ => false) (by decide)
    (by decide) (by decide)
  revert hsum
  decide

end Tfs.Db.BonusAddrCache
