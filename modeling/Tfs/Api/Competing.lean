import Tfs.Api.BuildersAgree
import Tfs.Ca.DoubleSpendCache
import Tfs.Lib.Runs

/-! Transactions that one node builds after each other (`CreateTxTransaction` and
    `ReplaceCreateTxTransaction` with their common `DoubleSpendCache`).

    A transaction spends outputs of all its senders, but the cache is asked and told about one address
    only: the first sender by the node's builder, the last one by the RPC builder. Two transactions with
    a common sender are kept apart when they meet under the same address, and then only when the earlier
    one was the first to be recorded there. -/

namespace Tfs.Api
open Tfs.Ca

/-! ### What a transaction spends -/

/-- The outputs that are spent: the owner's address and the hash. -/
def spends (u : CTxUtxo) : List (Str × Str) :=
  (u.owner.zip u.vin).flatMap fun p => p.2.prevOut.map fun o => (p.1, o.hash)

/-- The two transactions spend a common output. -/
def Compete (tx tx' : CTransaction) : Prop := ∃ out ∈ spends tx.utxo, out ∈ spends tx'.utxo

instance (tx tx' : CTransaction) : Decidable (Compete tx tx') :=
  inferInstanceAs (Decidable (∃ out ∈ spends tx.utxo, out ∈ spends tx'.utxo))

theorem spends_unsigned (u : CTxUtxo) : spends u.unsigned = spends u := by
  rw [spends, CTxUtxo.unsigned, List.zip_map_right, List.flatMap_map]
  rfl

/-- The filled inputs spend, owner by owner, the outputs of the selection. -/
theorem spends_fillVins {next : UInt32 → UInt32} {utxos : List Utxo} :
    ∀ (owners : List Str) {n : UInt32} {u : CTxUtxo}, u.owner.length = u.vin.length →
      spends (fillVins next utxos owners n u) =
        spends u ++ owners.flatMap fun o => (prevOutsOf utxos o).map fun p => (o, p.hash)
  | [], _, _, _ => by simp [fillVins]
  | owner :: rest, n, u, hlen => by
    rw [fillVins, spends_fillVins rest (by simpa using hlen)]
    simp [spends, List.zip_append hlen]

theorem mem_spends_selection {next : UInt32 → UInt32} {utxos : List Utxo} {out : Str × Str} :
    out ∈ spends (fillVins next utxos (txOwners utxos) 0 .cleared) ↔
      ∃ u ∈ utxos, (u.addr, u.hash) = out := by
  have hnil : spends CTxUtxo.cleared = [] := rfl
  rw [spends_fillVins _ rfl, hnil, List.nil_append]
  simp only [List.mem_flatMap, List.mem_map, prevOutsOf, List.mem_filter, txOwners, mem_sortedSet]
  constructor
  · rintro ⟨o, -, p, ⟨u, ⟨hu, haddr⟩, rfl⟩, rfl⟩
    exact ⟨u, hu, by rw [of_decide_eq_true haddr]⟩
  · rintro ⟨u, hu, rfl⟩
    exact ⟨u.addr, ⟨u, hu, rfl⟩, _, ⟨u, ⟨hu, decide_eq_true rfl⟩, rfl⟩, rfl⟩

theorem mem_usedUtxos {utxos : List Utxo} {hash : Str} :
    hash ∈ usedUtxos utxos ↔ ∃ u ∈ utxos, u.hash = hash := by
  simp only [usedUtxos, List.mem_flatMap, List.mem_map, prevOutsOf, List.mem_filter, txOwners,
    mem_sortedSet]
  constructor
  · rintro ⟨o, -, p, ⟨u, ⟨hu, -⟩, rfl⟩, rfl⟩
    exact ⟨u, hu, rfl⟩
  · rintro ⟨u, hu, rfl⟩
    exact ⟨u.addr, ⟨u, hu, rfl⟩, _, ⟨u, ⟨hu, decide_eq_true rfl⟩, rfl⟩, rfl⟩

/-! ### The calls -/

/-- A call of one of the two builders, with what it meets: its own readings of the clock and answers of
    the network. -/
inductive CreateCall where
  | node (env : TxEnv) (fromAddr : List Str) (toAddr : Recipients) (encodedInfo : Str) (height : UInt64)
      (isFindUtxo : Bool)
  | rpc (env : RpcEnv) (fromAddr : List Str) (toAddr : Recipients) (isFindUtxo : Bool) (encodedInfo : Str)

namespace CreateCall

/-- The address under which the call registers its outputs. -/
def registers : CreateCall → Str
  | .node _ fromAddr .. => fromAddr.headD []
  | .rpc _ fromAddr .. => fromAddr.getLastD []

/-- What `FindUtxo` selects, nothing when it fails. -/
def selection (env : UtxoEnv) (fromAddr : List Str) (isFindUtxo : Bool) : List Utxo :=
  match findUtxo env fromAddr kMaxVinSize isFindUtxo with
  | .ok found => found.2
  | .error _ => []

/-- The outputs that are selected for the call. -/
def selected : CreateCall → List Utxo
  | .node env fromAddr _ _ _ isFindUtxo => selection env.toUtxoEnv fromAddr isFindUtxo
  | .rpc env fromAddr _ isFindUtxo _ => selection env.toUtxoEnv fromAddr isFindUtxo

/-- What the call produces with the given entries pending: the transaction, and the entries afterwards. -/
def create (pending : StdMap Str DoubleSpendsuc) :
    CreateCall → Option (CTransaction × StdMap Str DoubleSpendsuc)
  | .node env fromAddr toAddr encodedInfo height isFindUtxo =>
    (createTxTransaction env fromAddr toAddr encodedInfo height isFindUtxo pending).toOption.map
      fun r => (r.1, r.2.2)
  | .rpc env fromAddr toAddr isFindUtxo encodedInfo =>
    (replaceCreateTxTransaction env fromAddr toAddr isFindUtxo encodedInfo pending).toOption.map
      fun r => (r.1.tx, r.2)

/-- The end of a call: the selected outputs are registered, or the call fails. -/
def register (call : CreateCall) (pending : StdMap Str DoubleSpendsuc) (tx : CTransaction) :
    Option (CTransaction × StdMap Str DoubleSpendsuc) :=
  let cached := addFromAddr pending call.registers ⟨tx.time, usedUtxos call.selected⟩
  if cached.1 = 0 then some (tx, cached.2) else none

end CreateCall

/-! ### A call asks the cache at its end only -/

section Register
variable {ε α β γ : Type}

/-- Two computations that begin alike and go on as `f` and as `f'` followed by `g`. -/
theorem bind_eq_bind_bind {x : Except ε α} {f : α → Except ε γ} {f' : α → Except ε β} {g : β → Except ε γ}
    (h : ∀ a, x = .ok a → f a = f' a >>= g) : (x >>= f) = (x >>= f') >>= g := by
  cases x with
  | error e => rfl
  | ok a => exact h a rfl

/-- A check of the cache's code that ends with a result or without one. -/
theorem when_toOption {α : Type} {ret code : ℤ} {a : α} :
    (Exit.when (ret != 0) code >>= fun _ => Except.ok a).toOption = if ret = 0 then some a else none := by
  by_cases h : ret = 0
  · rw [h]
    rfl
  · simp [h, Exit.when, bind, Except.bind, Except.toOption]

theorem rpc_when_toOption {α : Type} {ret code : ℤ} {message : String} {a : α} :
    (RpcExit.when (ret != 0) code message >>= fun _ => Except.ok a).toOption =
      if ret = 0 then some a else none := by
  by_cases h : ret = 0
  · rw [h]
    rfl
  · simp [h, RpcExit.when, bind, Except.bind, Except.toOption]

theorem selection_of_ok {env : UtxoEnv} {fromAddr : List Str} {isFindUtxo : Bool}
    {found : UInt64 × List Utxo} (h : findUtxo env fromAddr kMaxVinSize isFindUtxo = .ok found) :
    CreateCall.selection env fromAddr isFindUtxo = found.2 := by
  rw [CreateCall.selection, h]

theorem createTxTransaction_pending (env : TxEnv) (fromAddr : List Str) (toAddr : Recipients)
    (encodedInfo : Str) (height : UInt64) (isFindUtxo : Bool) (pending : StdMap Str DoubleSpendsuc) :
    createTxTransaction env fromAddr toAddr encodedInfo height isFindUtxo pending =
      createTxTransaction env fromAddr toAddr encodedInfo height isFindUtxo .empty >>= fun r =>
        Exit.when ((addFromAddr pending (fromAddr.headD []) ⟨r.1.time,
            usedUtxos (CreateCall.selection env.toUtxoEnv fromAddr isFindUtxo)⟩).1 != 0) (-7) >>= fun _ =>
          .ok (r.1, r.2.1, (addFromAddr pending (fromAddr.headD []) ⟨r.1.time,
            usedUtxos (CreateCall.selection env.toUtxoEnv fromAddr isFindUtxo)⟩).2) := by
  unfold createTxTransaction
  iterate 3 refine bind_eq_bind_bind fun _ _ => ?_
  refine bind_eq_bind_bind fun found hfound => ?_
  rw [selection_of_ok (Exit.recode_eq_ok.mp hfound)]
  iterate 3 refine bind_eq_bind_bind fun _ _ => ?_
  split
  · rfl
  · iterate 3 refine bind_eq_bind_bind fun _ _ => ?_
    rfl

theorem replaceCreateTxTransaction_pending (env : RpcEnv) (fromAddr : List Str) (toAddr : Recipients)
    (isFindUtxo : Bool) (encodedInfo : Str) (pending : StdMap Str DoubleSpendsuc) :
    replaceCreateTxTransaction env fromAddr toAddr isFindUtxo encodedInfo pending =
      replaceCreateTxTransaction env fromAddr toAddr isFindUtxo encodedInfo .empty >>= fun r =>
        RpcExit.when ((addFromAddr pending (fromAddr.getLastD []) ⟨r.1.tx.time,
            usedUtxos (CreateCall.selection env.toUtxoEnv fromAddr isFindUtxo)⟩).1 != 0) (-14)
            "utxo is using!" >>= fun _ =>
          .ok (r.1, (addFromAddr pending (fromAddr.getLastD []) ⟨r.1.tx.time,
            usedUtxos (CreateCall.selection env.toUtxoEnv fromAddr isFindUtxo)⟩).2) := by
  unfold replaceCreateTxTransaction
  iterate 5 refine bind_eq_bind_bind fun _ _ => ?_
  refine bind_eq_bind_bind fun found hfound => ?_
  rw [selection_of_ok (RpcExit.report_eq_ok.mp hfound)]
  iterate 2 refine bind_eq_bind_bind fun _ _ => ?_
  dsimp only
  split
  · rfl
  · iterate 2 refine bind_eq_bind_bind fun _ _ => ?_
    rfl

end Register

namespace CreateCall
variable (call : CreateCall) {pending : StdMap Str DoubleSpendsuc} {tx : CTransaction}

/-- With entries pending, a call does what it does without any, and then registers. -/
theorem create_eq (pending : StdMap Str DoubleSpendsuc) :
    call.create pending = (call.create .empty).bind fun r => call.register pending r.1 := by
  cases call with
  | node env fromAddr toAddr encodedInfo height isFindUtxo =>
    rw [create, createTxTransaction_pending, create]
    cases createTxTransaction env fromAddr toAddr encodedInfo height isFindUtxo .empty with
    | error e => rfl
    | ok r =>
      refine (congrArg (Option.map _) when_toOption).trans ?_
      simp only [Except.toOption, Option.map_some, Option.bind_some, register, registers, selected]
      exact apply_ite (Option.map _) _ _ _
  | rpc env fromAddr toAddr isFindUtxo encodedInfo =>
    rw [create, replaceCreateTxTransaction_pending, create]
    cases replaceCreateTxTransaction env fromAddr toAddr isFindUtxo encodedInfo .empty with
    | error e => rfl
    | ok r =>
      refine (congrArg (Option.map _) rpc_when_toOption).trans ?_
      simp only [Except.toOption, Option.map_some, Option.bind_some, register, registers, selected]
      exact apply_ite (Option.map _) _ _ _

variable {call}

/-- What a call produces spends what was selected for it. -/
theorem mem_spends_create {r : CTransaction × StdMap Str DoubleSpendsuc} (h : call.create pending = some r)
    {out : Str × Str} : out ∈ spends r.1.utxo ↔ ∃ u ∈ call.selected, (u.addr, u.hash) = out := by
  rw [← spends_unsigned]
  cases call with
  | node env fromAddr toAddr encodedInfo height isFindUtxo =>
    obtain ⟨r, hr, rfl⟩ := Option.map_eq_some_iff.mp h
    obtain ⟨found, draft, gas, tx, signed, chosen, hfound, hdraft, -, hfill, hsign, -, -, htx, -⟩ :=
      createTxTransaction_inv (toOption_eq_some.mp hr)
    have hutxo : r.1.utxo.unsigned = tx.unsigned.utxo := by
      rw [htx, ← addMutilSigns_unsigned _ hsign]
      rfl
    rw [selected, selection_of_ok hfound, ← mem_spends_selection, hutxo, fillVouts_unsigned hfill,
      draftTx_unsigned hdraft, ← spends_unsigned (fillVins ..)]
    rfl
  | rpc env fromAddr toAddr isFindUtxo encodedInfo =>
    obtain ⟨r, hr, rfl⟩ := Option.map_eq_some_iff.mp h
    obtain ⟨found, gas, tx, identity, hfound, -, hfill, htx, -⟩ :=
      replaceCreateTxTransaction_inv (toOption_eq_some.mp hr)
    have hutxo : r.1.tx.utxo.unsigned = tx.unsigned.utxo := by
      rw [htx]
      rfl
    rw [selected, selection_of_ok hfound, ← mem_spends_selection, hutxo, fillVouts_unsigned hfill,
      ← spends_unsigned (fillVins ..)]
    rfl

end CreateCall

/-! ### Calls after each other -/

/-- The pending entries, and the transactions produced so far. -/
structure Creation where
  pending : StdMap Str DoubleSpendsuc
  produced : List CTransaction

namespace Creation

/-- One call; a call that fails leaves everything as it was. -/
def step (s : Creation) (call : CreateCall) : Creation :=
  match call.create s.pending with
  | some (tx, pending) => ⟨pending, s.produced ++ [tx]⟩
  | none => s

/-- No two of the produced transactions spend a common output. -/
def Apart (s : Creation) : Prop := s.produced.Pairwise fun tx tx' => ¬ Compete tx tx'

instance (s : Creation) : Decidable s.Apart :=
  inferInstanceAs (Decidable (s.produced.Pairwise fun tx tx' => ¬ Compete tx tx'))

/-- When the call selects an output that a transaction produced before spends, and nothing but the cache
    could stop it, then what the cache has recorded under the address of the call names one of the
    selected outputs. -/
def Guarded (s : Creation) (call : CreateCall) : Prop :=
  (call.create .empty).isSome →
    (∃ tx ∈ s.produced, ∃ u ∈ call.selected, (u.addr, u.hash) ∈ spends tx.utxo) →
      ∃ recorded ∈ s.pending call.registers, ∃ u ∈ call.selected, u.hash ∈ recorded.utxoVec

/-- The cache refuses the call exactly when what is recorded names one of the selected outputs. -/
theorem register_eq_none {call : CreateCall} {pending : StdMap Str DoubleSpendsuc} {tx : CTransaction} :
    call.register pending tx = none ↔
      ∃ recorded ∈ pending call.registers, ∃ u ∈ call.selected, u.hash ∈ recorded.utxoVec := by
  rw [CreateCall.register]
  rcases hp : pending call.registers with _ | recorded
  · simp [addFromAddr_none hp]
  · rw [addFromAddr_some hp]
    have hshares : SharesUtxo ⟨tx.time, usedUtxos call.selected⟩ recorded ↔
        ∃ u ∈ call.selected, u.hash ∈ recorded.utxoVec := by
      constructor
      · rintro ⟨hash, hused, hrec⟩
        obtain ⟨u, hu, rfl⟩ := mem_usedUtxos.mp hused
        exact ⟨u, hu, hrec⟩
      · rintro ⟨u, hu, hrec⟩
        exact ⟨u.hash, mem_usedUtxos.mpr ⟨u, hu, rfl⟩, hrec⟩
    rw [← Option.mem_def] at hp
    by_cases hs : SharesUtxo ⟨tx.time, usedUtxos call.selected⟩ recorded
    · simp [hs, hshares.mp hs]
    · simp [hs, mt hshares.mpr hs]

/-- One call keeps the transactions apart exactly when it is guarded. -/
theorem step_apart_iff {s : Creation} {call : CreateCall} (h : s.Apart) :
    (s.step call).Apart ↔ s.Guarded call := by
  rw [step, CreateCall.create_eq]
  rcases hfree : call.create .empty with _ | ⟨tx, rest⟩
  · refine iff_of_true h fun hsome => ?_
    rw [hfree] at hsome
    cases hsome
  · rcases hreg : call.register s.pending tx with _ | ⟨tx', pending⟩
    · simp only [Option.bind_some, hreg]
      exact iff_of_true h fun _ _ => register_eq_none.mp hreg
    · have htx : tx' = tx := by
        rw [CreateCall.register] at hreg
        split at hreg
        · cases hreg
          rfl
        · cases hreg
      have hpass : ¬ ∃ recorded ∈ s.pending call.registers, ∃ u ∈ call.selected,
          u.hash ∈ recorded.utxoVec := by
        intro hrec
        rw [register_eq_none.mpr hrec] at hreg
        cases hreg
      simp only [Option.bind_some, hreg]
      rw [Apart, List.pairwise_append, and_iff_right (show s.produced.Pairwise _ from h),
        and_iff_right (List.pairwise_singleton _ _), Guarded, hfree, htx]
      constructor
      · rintro hapart - ⟨old, hold, u, hu, hout⟩
        have hmem := (CreateCall.mem_spends_create hfree).mpr ⟨u, hu, rfl⟩
        exact absurd ⟨_, hout, hmem⟩ (hapart old hold tx (List.mem_singleton.mpr rfl))
      · rintro hguarded old hold new hnew ⟨out, hout, hout'⟩
        rw [List.mem_singleton.mp hnew] at hout'
        obtain ⟨u, hu, rfl⟩ := (CreateCall.mem_spends_create hfree).mp hout'
        exact hpass (hguarded rfl ⟨old, hold, u, hu, hout⟩)

end Creation

/-- Along every sequence of calls of the two builders, with any entries pending at the start, no two of
    the produced transactions spend a common output exactly when every call is guarded by what the cache
    holds under the one address it looks at. -/
theorem produced_apart_iff (pending : StdMap Str DoubleSpendsuc) (calls : List CreateCall) :
    (∀ done, done <+: calls → (done.foldl Creation.step ⟨pending, []⟩).Apart) ↔
      EveryStep Creation.step Creation.Guarded ⟨pending, []⟩ calls :=
  always_iff_everyStep (fun _ _ h => Creation.step_apart_iff h) List.Pairwise.nil

/-- The node of `rpcBuilderEnv`, where `A` and `C` own one output of 100000 each. -/
def twoSendersEnv : RpcEnv :=
  { rpcBuilderEnv with
    db := ⟨fun key =>
      if key = Db.kAddress2UtxoKey ++ str "A" then .found (str "h")
      else if key = Db.kAddress2UtxoKey ++ str "C" then .found (str "g")
      else if key = str "A_h" ∨ key = str "C_g" then .found (str "100000")
      else .notFound⟩ }

/-- `A` and `C` pay `B` ten, once through the node's builder and once through the RPC builder: the first
    call registers under `A`, the second under `C`, and both transactions spend both outputs. -/
theorem produced_compete_twoEnds :
    let calls := [CreateCall.node twoSendersEnv.toTxEnv [str "A", str "C"] toB [] 8 false,
      .rpc twoSendersEnv [str "A", str "C"] toB false []]
    (calls.foldl Creation.step ⟨.empty, []⟩).produced.length = 2 ∧
      ¬ (calls.foldl Creation.step ⟨.empty, []⟩).Apart := by
  decide

end Tfs.Api
