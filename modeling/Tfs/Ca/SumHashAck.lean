import Tfs.Ca.SumHash
import Tfs.Ca.SumHashNode

/-! The answer to a request for sum hashes (`SendSyncGetSumHashAck` in `ca/sync_block.cpp`).

    The loop has an entry for every height from the first to the smaller of the last one and the top, in
    this order. It is left where `j`, which runs one ahead of the height and is held at the end,
    does not get past it. A height is read by a loop over heights of its own, which does not come to
    an end for the largest number; where that number is read, the function does not either. -/

namespace Tfs.Ca.SumHashAck

open SumHashNode

/-! ### The function -/

/-- What is read from the database: `GetBlockTop`, and the block hashes recorded under a height;
    `none` for every status but success. -/
structure SumHashStore where
  getBlockTop : Option UInt64
  blockHashes : UInt64 → Option (List Str)

section Function
variable (getsha256hash : Str → Str) (store : SumHashStore)

/-- `GetHeightBlockHash`, where it returns: its loop makes a key for each height, and all of them
    have to be found. -/
def getHeightBlockHash (startHeight endHeight : UInt64) : Option (Option (List Str)) :=
  (segmentHeights startHeight endHeight).map fun heights =>
    if heights = [] then none else (heights.mapM store.blockHashes).map List.flatten

/-- `end`. -/
def endOf (endHeight selfNodeHeight : UInt64) : UInt64 :=
  if endHeight > selfNodeHeight then selfNodeHeight else endHeight

/-- The loop over `i` and `j`, where `stop` is `end`: `none` where the turns do not suffice,
    `some none` where the function returns. -/
def sumHashLoop (stop : UInt64) :
    ℕ → UInt64 → UInt64 → List SyncSumHash → Option (Option (List SyncSumHash))
  | 0, _, _, _ => none
  | turns + 1, i, j, syncSumHashes =>
    if j ≤ stop then
      let j := i + 1
      let j := if j > stop then stop else j
      match getHeightBlockHash store i i with
      | none => none
      | some none => some none
      | some (some blockHashes) =>
        let syncSumHashes := syncSumHashes ++ [⟨i, i, sumHeightHash getsha256hash blockHashes⟩]
        if i = j then some (some syncSumHashes) else sumHashLoop stop turns (i + 1) j syncSumHashes
    else some (some syncSumHashes)

/-- `SendSyncGetSumHashAck` with so many turns of its loop: `none` where they do not suffice,
    otherwise what is sent, if anything. -/
def sendSyncGetSumHashAck (selfId : Str) (startHeight endHeight : UInt64) (turns : ℕ) :
    Option (Option SyncGetSumHashAck) :=
  if startHeight > endHeight then some none
  else if endHeight - startHeight > 1000 then some none
  else match store.getBlockTop with
    | none => some none
    | some selfNodeHeight =>
      (sumHashLoop getsha256hash store (endOf endHeight selfNodeHeight) turns startHeight 0 []).map fun sent =>
        sent.map fun syncSumHashes => ⟨selfId, selfNodeHeight, syncSumHashes⟩

end Function

/-! ### Heights -/

/-- The heights from one to another. -/
def heights (startHeight endHeight : UInt64) : List UInt64 :=
  (List.range' startHeight.toNat (endHeight.toNat + 1 - startHeight.toNat)).map UInt64.ofNat

theorem toNat_ofNat {n : ℕ} (h : n < 2 ^ 64) : (UInt64.ofNat n).toNat = n := UInt64.toNat_ofNat_of_lt' h

theorem mem_heights {a b h : UInt64} : h ∈ heights a b ↔ a ≤ h ∧ h ≤ b := by
  rw [heights, List.mem_map, UInt64.le_iff_toNat_le, UInt64.le_iff_toNat_le]
  have hb := b.toNat_lt
  constructor
  · rintro ⟨n, hn, rfl⟩
    rw [List.mem_range'_1] at hn
    rw [toNat_ofNat (by omega)]
    omega
  · intro hab
    exact ⟨h.toNat, List.mem_range'_1.mpr (by omega), UInt64.ofNat_toNat⟩

theorem heights_pairwise (a b : UInt64) : (heights a b).Pairwise (· < ·) := by
  have hb := b.toNat_lt
  rw [heights, List.pairwise_map]
  refine List.Pairwise.imp_of_mem (fun {m n} hm hn hlt => ?_) List.pairwise_lt_range'
  rw [List.mem_range'_1] at hm hn
  rwa [UInt64.lt_iff_toNat_lt, toNat_ofNat (by omega), toNat_ofNat (by omega)]

/-- The first height, where there is one, and the others. -/
theorem heights_cons {a b : UInt64} (h : a ≤ b) (hb : b.toNat + 1 < 2 ^ 64) :
    heights a b = a :: heights (a + 1) b := by
  rw [UInt64.le_iff_toNat_le] at h
  have hnext : (a + 1).toNat = a.toNat + 1 := by
    rw [UInt64.toNat_add]
    exact Nat.mod_eq_of_lt (by simpa using (by omega : a.toNat + 1 < 2 ^ 64))
  rw [heights, heights, hnext, show b.toNat + 1 - a.toNat = b.toNat - a.toNat + 1 by omega, List.range'_succ,
    List.map_cons, UInt64.ofNat_toNat, show b.toNat + 1 - (a.toNat + 1) = b.toNat - a.toNat by omega]

theorem heights_of_lt {a b : UInt64} (h : b < a) : heights a b = [] := by
  rw [UInt64.lt_iff_toNat_lt] at h
  rw [heights, show b.toNat + 1 - a.toNat = 0 by omega]
  rfl

/-! ### The loop -/

section Loop
variable (getsha256hash : Str → Str) (store : SumHashStore)

/-- One height is read, unless it is the largest number. -/
theorem getHeightBlockHash_self {i : UInt64} (h : i.toNat + 1 < 2 ^ 64) :
    getHeightBlockHash store i i = some (store.blockHashes i) := by
  have hseg : segmentHeights i i = some [i] := by
    rw [segmentHeights, if_neg h.ne, Nat.add_sub_cancel_left, List.range'_one, List.map_singleton,
      UInt64.ofNat_toNat]
  rw [getHeightBlockHash, hseg, Option.map_some, if_neg (List.cons_ne_nil _ _), List.mapM_cons, List.mapM_nil]
  cases store.blockHashes i with
  | none => rfl
  | some blockHashes => exact congrArg (fun l => some (some l)) (List.append_nil _)

/-- The entry of a height. -/
def entryOf (height : UInt64) : SyncSumHash :=
  ⟨height, height, sumHeightHash getsha256hash ((store.blockHashes height).getD [])⟩

/-- The loop from one height to the last one: an entry for each, or none at all. -/
theorem sumHashLoop_eq {stop : UInt64} (hstop : stop.toNat + 1 < 2 ^ 64) : ∀ (turns : ℕ) (i j : UInt64)
    (syncSumHashes : List SyncSumHash), i ≤ stop → j ≤ stop → stop.toNat - i.toNat < turns →
    sumHashLoop getsha256hash store stop turns i j syncSumHashes =
      some (if ∀ h ∈ heights i stop, (store.blockHashes h).isSome then
        some (syncSumHashes ++ (heights i stop).map (entryOf getsha256hash store)) else none)
  | 0, _, _, _, _, _, hturns => absurd hturns (Nat.not_lt_zero _)
  | turns + 1, i, j, syncSumHashes, hi, hj, hturns => by
    have hle := UInt64.le_iff_toNat_le.mp hi
    have hnext : (i + 1).toNat = i.toNat + 1 := by
      rw [UInt64.toNat_add]
      exact Nat.mod_eq_of_lt (by simpa using (by omega : i.toNat + 1 < 2 ^ 64))
    rw [sumHashLoop, if_pos hj, getHeightBlockHash_self store (by omega), heights_cons hi hstop]
    simp only [List.forall_mem_cons, List.map_cons]
    cases hread : store.blockHashes i with
    | none => simp
    | some blockHashes =>
      have hentry : entryOf getsha256hash store i = ⟨i, i, sumHeightHash getsha256hash blockHashes⟩ := by
        rw [entryOf, hread, Option.getD_some]
      rw [hentry]
      simp only [Option.isSome_some, true_and]
      by_cases hlast : i = stop
      · have hahead : i + 1 > stop := by
          rw [gt_iff_lt, UInt64.lt_iff_toNat_lt, hnext, hlast]
          omega
        rw [if_pos hahead, if_pos hlast, heights_of_lt hahead, if_pos (by simp)]
        rfl
      · have hlt : i.toNat < stop.toNat :=
          lt_of_le_of_ne hle fun heq => hlast (UInt64.toNat_inj.mp heq)
        have hbehind : ¬ i + 1 > stop := by
          rw [gt_iff_lt, UInt64.lt_iff_toNat_lt, hnext]
          omega
        have hne : i ≠ i + 1 := fun heq => by
          have := congrArg UInt64.toNat heq
          omega
        have hle' : i + 1 ≤ stop := UInt64.not_lt.mp hbehind
        rw [if_neg hbehind, if_neg hne, sumHashLoop_eq hstop turns (i + 1) (i + 1) _ hle' hle' (by omega),
          List.append_assoc, List.singleton_append]

/-- The function returns where a height cannot be read. -/
theorem sumHashLoop_unread {stop i j : UInt64} (hread : store.blockHashes i = none)
    (hi : i.toNat + 1 < 2 ^ 64) (hj : j ≤ stop) (turns : ℕ) (syncSumHashes : List SyncSumHash) :
    sumHashLoop getsha256hash store stop (turns + 1) i j syncSumHashes = some none := by
  rw [sumHashLoop, if_pos hj, getHeightBlockHash_self store hi, hread]

/-- The largest number is never read to the end. -/
theorem sumHashLoop_largest {stop i j : UInt64} (hi : i.toNat + 1 = 2 ^ 64) (hj : j ≤ stop) (turns : ℕ)
    (syncSumHashes : List SyncSumHash) :
    sumHashLoop getsha256hash store stop turns i j syncSumHashes = none := by
  cases turns with
  | zero => rfl
  | succ turns =>
    have hread : getHeightBlockHash store i i = none := by
      rw [getHeightBlockHash, segmentHeights, if_pos hi]
      rfl
    rw [sumHashLoop, if_pos hj, hread]

/-- Nor is the loop left before that number, where every height can be read. -/
theorem sumHashLoop_to_largest {stop : UInt64} (hstop : stop.toNat + 1 = 2 ^ 64)
    (hall : ∀ h, (store.blockHashes h).isSome) :
    ∀ (turns : ℕ) (i j : UInt64) (syncSumHashes : List SyncSumHash), j ≤ stop →
    sumHashLoop getsha256hash store stop turns i j syncSumHashes = none
  | 0, _, _, _, _ => rfl
  | turns + 1, i, j, syncSumHashes, hj => by
    have hbehind : ¬ i + 1 > stop := by
      rw [gt_iff_lt, UInt64.lt_iff_toNat_lt]
      have := (i + 1).toNat_lt
      omega
    have hne : i ≠ i + 1 := fun heq => by
      have hzero : (1 : UInt64) = 0 := by simpa using heq.symm
      exact absurd hzero (by decide)
    by_cases hi : i.toNat + 1 = 2 ^ 64
    · exact sumHashLoop_largest getsha256hash store hi hj _ _
    · have hlt : i.toNat + 1 < 2 ^ 64 := by
        have := i.toNat_lt
        omega
      obtain ⟨blockHashes, hread⟩ := Option.isSome_iff_exists.mp (hall i)
      rw [sumHashLoop, if_pos hj, getHeightBlockHash_self store hlt, hread]
      simp only [if_neg hbehind, if_neg hne]
      exact sumHashLoop_to_largest hstop hall turns (i + 1) (i + 1) _ (UInt64.not_lt.mp hbehind)

end Loop

/-! ### What is sent -/

section Sent
variable (getsha256hash : Str → Str) (store : SumHashStore) (selfId : Str)

/-- The function comes to an end, and what it sends has an entry for each height from the first to the
    smaller of the last one and the top, in increasing order. -/
def Enumerates (startHeight endHeight top : UInt64) : Prop :=
  ∃ turns sent, sendSyncGetSumHashAck getsha256hash store selfId startHeight endHeight turns = some sent ∧
    let syncSumHashes := (sent.map (·.syncSumHashes)).getD []
    (syncSumHashes.map (·.startHeight)).Pairwise (· < ·) ∧
      (∀ h, h ∈ syncSumHashes.map (·.startHeight) ↔ startHeight ≤ h ∧ h ≤ endHeight ∧ h ≤ top) ∧
      ∀ s ∈ syncSumHashes, s = entryOf getsha256hash store s.startHeight

/-- The request is not refused in front of the loop: it asks for at most a thousand and one heights. -/
def Asked (startHeight endHeight : UInt64) : Prop :=
  startHeight ≤ endHeight ∧ endHeight.toNat - startHeight.toNat ≤ 1000

/-- The heights up to the top are those that blocks are recorded under. -/
def SumHashStore.IsUpTo (store : SumHashStore) (top : UInt64) : Prop :=
  store.getBlockTop = some top ∧ ∀ h, (store.blockHashes h).isSome ↔ h ≤ top

variable {store} {startHeight endHeight top : UInt64}

theorem le_endOf {h : UInt64} : h ≤ endOf endHeight top ↔ h ≤ endHeight ∧ h ≤ top := by
  rw [endOf]
  simp only [gt_iff_lt, UInt64.lt_iff_toNat_lt, UInt64.le_iff_toNat_le]
  split_ifs <;> omega

/-- Behind the guards there is the loop. -/
theorem send_asked (h : Asked startHeight endHeight) (htop : store.getBlockTop = some top) (turns : ℕ) :
    sendSyncGetSumHashAck getsha256hash store selfId startHeight endHeight turns =
      (sumHashLoop getsha256hash store (endOf endHeight top) turns startHeight 0 []).map fun sent =>
        sent.map fun syncSumHashes => ⟨selfId, top, syncSumHashes⟩ := by
  obtain ⟨hle, hfew⟩ := h
  have hsub : ¬ endHeight - startHeight > 1000 := by
    rw [gt_iff_lt, UInt64.not_lt, UInt64.le_iff_toNat_le, UInt64.toNat_sub_of_le _ _ hle]
    exact hfew
  rw [sendSyncGetSumHashAck, if_neg (UInt64.not_lt.mpr hle), if_neg hsub, htop]

/-- A request that is refused, or that comes before there is a top, is not answered. -/
theorem send_refused (h : ¬ (Asked startHeight endHeight ∧ store.getBlockTop.isSome)) (turns : ℕ) :
    sendSyncGetSumHashAck getsha256hash store selfId startHeight endHeight turns = some none := by
  rw [sendSyncGetSumHashAck]
  split_ifs with hstart hfew
  · rfl
  · rfl
  · have hle := UInt64.not_lt.mp hstart
    have hasked : Asked startHeight endHeight := ⟨hle, by
      rw [gt_iff_lt, UInt64.not_lt, UInt64.le_iff_toNat_le, UInt64.toNat_sub_of_le _ _ hle] at hfew
      exact hfew⟩
    have hnone : store.getBlockTop = none := Option.not_isSome_iff_eq_none.mp fun hsome => h ⟨hasked, hsome⟩
    rw [hnone]

/-- A request that reaches the largest number is never done with. -/
theorem send_largest (h : Asked startHeight endHeight) (hstore : store.IsUpTo top)
    (hend : endHeight.toNat + 1 = 2 ^ 64)
    (hlargest : startHeight.toNat + 1 = 2 ^ 64 ∨ top.toNat + 1 = 2 ^ 64) (turns : ℕ) :
    sendSyncGetSumHashAck getsha256hash store selfId startHeight endHeight turns = none := by
  have hzero : (0 : UInt64) ≤ endOf endHeight top := UInt64.le_iff_toNat_le.mpr (Nat.zero_le _)
  rw [send_asked getsha256hash selfId h hstore.1, Option.map_eq_none_iff]
  rcases hlargest with hstart | htop
  · exact sumHashLoop_largest getsha256hash store hstart hzero _ _
  · have hstop : endOf endHeight top = top := by
      rw [endOf, UInt64.toNat_inj.mp (hend.trans htop.symm |> Nat.succ.inj)]
      exact ite_self _
    refine sumHashLoop_to_largest getsha256hash store (by rw [hstop]; exact htop)
      (fun k => (hstore.2 k).mpr ?_) _ _ _ _ hzero
    rw [UInt64.le_iff_toNat_le]
    have := k.toNat_lt
    omega

/-- The loop comes to an end and enumerates the heights exactly where it does not get to the largest
    number. -/
theorem enumerates_iff (h : Asked startHeight endHeight) (hstore : store.IsUpTo top) :
    Enumerates getsha256hash store selfId startHeight endHeight top ↔
      endHeight.toNat + 1 < 2 ^ 64 ∨ startHeight.toNat + 1 < 2 ^ 64 ∧ top.toNat + 1 < 2 ^ 64 := by
  have hend := endHeight.toNat_lt
  have hstart := startHeight.toNat_lt
  have htop := top.toNat_lt
  have hle := UInt64.le_iff_toNat_le.mp h.1
  constructor
  · rintro ⟨turns, sent, hsent, -⟩
    by_contra hnot
    have hnone := send_largest getsha256hash selfId h hstore (by omega) (by omega) turns
    rw [hnone] at hsent
    cases hsent
  · intro hsmall
    have hzero : (0 : UInt64) ≤ endOf endHeight top := UInt64.le_iff_toNat_le.mpr (Nat.zero_le _)
    by_cases hbelow : startHeight ≤ top
    · have hstop := le_endOf.mp (UInt64.le_refl (endOf endHeight top))
      rw [UInt64.le_iff_toNat_le, UInt64.le_iff_toNat_le] at hstop
      have hread : ∀ k ∈ heights startHeight (endOf endHeight top), (store.blockHashes k).isSome :=
        fun k hk => (hstore.2 k).mpr (le_endOf.mp (mem_heights.mp hk).2).2
      have hloop := sumHashLoop_eq getsha256hash store (by omega) 1001 startHeight 0 []
        (le_endOf.mpr ⟨h.1, hbelow⟩) hzero (by have := h.2; omega)
      rw [if_pos hread, List.nil_append] at hloop
      have hmap : ((heights startHeight (endOf endHeight top)).map (entryOf getsha256hash store)).map
          (·.startHeight) = heights startHeight (endOf endHeight top) := by
        rw [List.map_map]
        exact List.map_id _
      refine ⟨1001, _, (send_asked getsha256hash selfId h hstore.1 1001).trans (congrArg _ hloop), ?_⟩
      simp only [Option.map_some, Option.getD_some, hmap]
      refine ⟨heights_pairwise _ _, fun k => ?_, fun s hs => ?_⟩
      · rw [mem_heights, le_endOf]
      · obtain ⟨k, -, rfl⟩ := List.mem_map.mp hs
        rfl
    · have hunread : store.blockHashes startHeight = none :=
        Option.not_isSome_iff_eq_none.mp fun hsome => hbelow ((hstore.2 _).mp hsome)
      have hloop := sumHashLoop_unread getsha256hash store hunread (by omega) hzero 0 []
      refine ⟨1, none, (send_asked getsha256hash selfId h hstore.1 1).trans (congrArg _ hloop),
        List.Pairwise.nil, fun k => ?_, nofun⟩
      refine iff_of_false nofun fun hk => hbelow ?_
      exact UInt64.le_trans hk.1 hk.2.2

end Sent

/-- A store with one block at each height. -/
def sampleStore (top : UInt64) : SumHashStore :=
  ⟨some top, fun h => if h ≤ top then some [str "aa"] else none⟩

theorem sampleStore_isUpTo (top : UInt64) : (sampleStore top).IsUpTo top := by
  refine ⟨rfl, fun h => ?_⟩
  rw [sampleStore]
  by_cases hle : h ≤ top <;> simp [hle]

/-- The heights 1 to 5 are asked for, and the top is 2. -/
theorem enumerates_two : Enumerates id (sampleStore 2) [] 1 5 2 :=
  (enumerates_iff id [] ⟨by decide, by decide⟩ (sampleStore_isUpTo 2)).mpr (.inl (by decide))

/-- The largest number is asked for, far above the top. -/
theorem largest_not_enumerated : ¬ ∀ (getsha256hash : Str → Str) (store : SumHashStore) (selfId : Str)
    (startHeight endHeight top : UInt64), Asked startHeight endHeight → store.IsUpTo top →
    Enumerates getsha256hash store selfId startHeight endHeight top := by
  intro h
  have hasked : Asked 18446744073709551615 18446744073709551615 := ⟨by decide, by decide⟩
  obtain ⟨turns, sent, hsent, -⟩ :=
    h id (sampleStore 5) [] 18446744073709551615 18446744073709551615 5 hasked (sampleStore_isUpTo 5)
  rw [send_largest id [] hasked (sampleStore_isUpTo 5) (by decide) (.inl (by decide))] at hsent
  cases hsent

end Tfs.Ca.SumHashAck
