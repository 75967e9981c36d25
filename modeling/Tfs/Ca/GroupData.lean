import Tfs.Ca.Dispatch

/-! Splitting the groups of dependent transactions among the packagers
    (`ContractDispatcher::GroupDependentData` in `ca/dispatchtx.cpp`), index by index.

    More than eight groups are cut into eight parts by two running indices: every part takes a quota,
    the first one the remainder as well. The number of groups is read into an `int`. Below, the loop
    reads no index past the list, and what it gives back is a cut of the list into at most eight parts,
    as long as the `int` holds the number of groups. -/

namespace Tfs.Ca

/-! ### The loops -/

/-- `int size = txMsgVec.size();`: the low 32 bits, read as a signed number. -/
def intOfSize (size : ℕ) : ℤ := (size : ℤ).bmod (2 ^ 32)

/-- A loop over `j` that appends the messages of `count` groups to `part`; `none` where `txMsgVec[j]` is
    past the end. -/
def appendGroups (txMsgVec : List (List TxMsgReq)) : ℕ → ℕ → List TxMsgReq → Option (List TxMsgReq)
  | 0, _, part => some part
  | count + 1, j, part => do
    let group ← txMsgVec[j]?
    appendGroups txMsgVec count (j + 1) (part ++ group)

/-- The locals of the loop over the parts. -/
structure PartLoop where
  index : ℕ
  remain : ℕ
  groupTxMsg : List (List TxMsgReq)

/-- The body of the loop over the parts. -/
def PartLoop.next (txMsgVec : List (List TxMsgReq)) (perPart : ℕ) (s : PartLoop) : Option PartLoop := do
  let part ← appendGroups txMsgVec perPart s.index []
  let index := s.index + perPart
  if 0 < s.remain then
    let part ← appendGroups txMsgVec s.remain index part
    some ⟨index + s.remain, 0, s.groupTxMsg ++ [part]⟩
  else some ⟨index, s.remain, s.groupTxMsg ++ [part]⟩

/-- The loop over the parts. -/
def PartLoop.run (txMsgVec : List (List TxMsgReq)) (perPart : ℕ) : ℕ → PartLoop → Option PartLoop
  | 0, s => some s
  | parts + 1, s => (s.next txMsgVec perPart).bind (run txMsgVec perPart parts)

/-- `ContractDispatcher::GroupDependentData`, with the indices it reads. -/
def groupDependentDataAt (txMsgVec : List (List TxMsgReq)) : Option (List (List TxMsgReq)) :=
  let size := intOfSize txMsgVec.length
  if size ≤ 8 then some txMsgVec
  else (PartLoop.run txMsgVec (size.toNat / 8) 8 ⟨0, size.toNat % 8, []⟩).map PartLoop.groupTxMsg

/-! ### What the loops give back -/

/-- The output is a cut of the input: the groups in their order, each in one part as a whole. -/
def CutOf (txMsgVec groupTxMsg : List (List TxMsgReq)) : Prop :=
  ∃ parts : List (List (List TxMsgReq)), parts.flatten = txMsgVec ∧ groupTxMsg = parts.map List.flatten

/-- No index is past the end, and the result is a cut into at most eight parts that holds the messages
    of the input in their order. -/
def KeepsTogether (txMsgVec : List (List TxMsgReq)) : Prop :=
  ∃ groupTxMsg, groupDependentDataAt txMsgVec = some groupTxMsg ∧ groupTxMsg.length ≤ 8 ∧
    groupTxMsg.flatten = txMsgVec.flatten ∧ CutOf txMsgVec groupTxMsg

/-- The parts by quota, without the indices; what is left over goes to the first part. -/
def groupParts (perPart : ℕ) : ℕ → ℕ → List (List TxMsgReq) → List (List TxMsgReq)
  | 0, _, _ => []
  | parts + 1, remain, txMsgVec => (txMsgVec.take (perPart + remain)).flatten ::
    groupParts perPart parts 0 (txMsgVec.drop (perPart + remain))

/-- The parts cut the list as far as they reach: their groups, put together, are its front. -/
theorem groupParts_cut : ∀ (perPart parts remain : ℕ) (v : List (List TxMsgReq)), 0 < parts →
    ∃ cut : List (List (List TxMsgReq)), cut.length = parts ∧
      cut.flatten = v.take (perPart * parts + remain) ∧
      groupParts perPart parts remain v = cut.map List.flatten
  | perPart, 0, remain, v, hp => absurd hp (lt_irrefl 0)
  | perPart, 1, remain, v, _ => ⟨[v.take (perPart + remain)], rfl, by simp, by simp [groupParts]⟩
  | perPart, parts + 2, remain, v, _ => by
    obtain ⟨cut, hcount, hflat, hparts⟩ := groupParts_cut perPart (parts + 1) 0
      (v.drop (perPart + remain)) (Nat.succ_pos parts)
    refine ⟨v.take (perPart + remain) :: cut, by rw [List.length_cons, hcount], ?_, ?_⟩
    · rw [List.flatten_cons, hflat, ← List.take_add]
      congr 1
      ring
    · rw [groupParts, hparts, List.map_cons]

theorem appendGroups_eq {txMsgVec : List (List TxMsgReq)} : ∀ (count j : ℕ) (part : List TxMsgReq),
    j + count ≤ txMsgVec.length →
    appendGroups txMsgVec count j part = some (part ++ ((txMsgVec.drop j).take count).flatten)
  | 0, j, part, _ => by simp [appendGroups]
  | count + 1, j, part, h => by
    have hj : j < txMsgVec.length := by omega
    rw [appendGroups, List.getElem?_eq_getElem hj, List.drop_eq_getElem_cons hj, List.take_succ_cons,
      List.flatten_cons, ← List.append_assoc]
    exact appendGroups_eq count (j + 1) _ (by omega)

/-- One part: the quota, and what is left over if there is something. -/
theorem next_eq {txMsgVec : List (List TxMsgReq)} {perPart : ℕ} {s : PartLoop}
    (h : s.index + (perPart + s.remain) ≤ txMsgVec.length) :
    s.next txMsgVec perPart = some ⟨s.index + (perPart + s.remain), 0,
      s.groupTxMsg ++ [((txMsgVec.drop s.index).take (perPart + s.remain)).flatten]⟩ := by
  rw [PartLoop.next, appendGroups_eq perPart s.index [] (by omega)]
  simp only [Option.bind_eq_bind, Option.bind_some, List.nil_append]
  split
  · rw [appendGroups_eq s.remain _ _ (by omega), Option.bind_some, ← List.flatten_append,
      ← List.drop_drop, List.take_add]
    simp only [Nat.add_assoc]
  · rename_i hzero
    have hzero : s.remain = 0 := by omega
    simp [hzero]

/-- All parts: no index is past the end, and the parts are those of `groupParts`. -/
theorem run_eq {txMsgVec : List (List TxMsgReq)} {perPart : ℕ} : ∀ (parts : ℕ) {s : PartLoop}, 0 < parts →
    s.index + (perPart * parts + s.remain) ≤ txMsgVec.length →
    (PartLoop.run txMsgVec perPart parts s).map PartLoop.groupTxMsg
      = some (s.groupTxMsg ++ groupParts perPart parts s.remain (txMsgVec.drop s.index))
  | 0, _, h, _ => absurd h (lt_irrefl 0)
  | parts + 1, s, _, h => by
    have hmul : perPart * (parts + 1) = perPart * parts + perPart := Nat.mul_succ _ _
    rw [PartLoop.run, next_eq (by omega), Option.bind_some, groupParts]
    cases parts with
    | zero => simp [PartLoop.run, groupParts]
    | succ parts =>
      rw [run_eq (parts + 1) (Nat.succ_pos parts) (by simp only; omega), List.append_assoc,
        List.singleton_append, List.drop_drop]

/-! ### When nothing is lost -/

theorem intOfSize_of_lt {size : ℕ} (h : size < 2 ^ 31) : intOfSize size = size := by
  unfold intOfSize
  simp only [Int.bmod_def, Nat.reducePow]
  omega

theorem intOfSize_le (size : ℕ) : (intOfSize size).toNat ≤ size := by
  unfold intOfSize
  simp only [Int.bmod_def, Nat.reducePow]
  omega

/-- Few groups are given back as they are. -/
theorem groupDependentDataAt_few {txMsgVec : List (List TxMsgReq)}
    (h : intOfSize txMsgVec.length ≤ 8) : groupDependentDataAt txMsgVec = some txMsgVec := by
  rw [groupDependentDataAt, if_pos h]

/-- The parts cut the groups the loop gets to see. -/
theorem groupDependentDataAt_cut {txMsgVec : List (List TxMsgReq)}
    (h : 8 < intOfSize txMsgVec.length) :
    ∃ cut : List (List (List TxMsgReq)), cut.length = 8 ∧
      cut.flatten = txMsgVec.take (intOfSize txMsgVec.length).toNat ∧
      groupDependentDataAt txMsgVec = some (cut.map List.flatten) := by
  have hle := intOfSize_le txMsgVec.length
  have hsum := Nat.div_add_mod' (intOfSize txMsgVec.length).toNat 8
  obtain ⟨cut, hcount, hflat, hparts⟩ := groupParts_cut ((intOfSize txMsgVec.length).toNat / 8) 8
    ((intOfSize txMsgVec.length).toNat % 8) txMsgVec (by omega)
  refine ⟨cut, hcount, hflat.trans (congrArg txMsgVec.take hsum), ?_⟩
  rw [groupDependentDataAt, if_neg (by omega), run_eq 8 (by omega) (by simp only; omega)]
  simp [hparts]

/-- No index is past the end, whatever the `int` makes of the number of groups. -/
theorem groupDependentDataAt_isSome (txMsgVec : List (List TxMsgReq)) :
    (groupDependentDataAt txMsgVec).isSome := by
  rcases le_or_gt (intOfSize txMsgVec.length) 8 with hfew | hmany
  · rw [groupDependentDataAt_few hfew, Option.isSome_some]
  · obtain ⟨cut, -, -, hrun⟩ := groupDependentDataAt_cut hmany
    rw [hrun, Option.isSome_some]

/-- `ContractDispatcher::GroupDependentData`: what the function returns. -/
def groupDependentData (txMsgVec : List (List TxMsgReq)) : List (List TxMsgReq) :=
  (groupDependentDataAt txMsgVec).get (groupDependentDataAt_isSome txMsgVec)

/-- No message comes from elsewhere; groups behind those the `int` counts may be missing. -/
theorem groupDependentData_subset (txMsgVec : List (List TxMsgReq)) :
    (groupDependentData txMsgVec).flatten ⊆ txMsgVec.flatten := by
  rcases le_or_gt (intOfSize txMsgVec.length) 8 with hfew | hmany
  · have hres : groupDependentData txMsgVec = txMsgVec :=
      Option.get_of_eq_some _ (groupDependentDataAt_few hfew)
    rw [hres]
    exact List.Subset.refl _
  · obtain ⟨cut, -, hflat, hrun⟩ := groupDependentDataAt_cut hmany
    have hres : groupDependentData txMsgVec = cut.map List.flatten := Option.get_of_eq_some _ hrun
    rw [hres, ← List.flatten_flatten, hflat]
    intro m hm
    obtain ⟨group, hgroup, hm⟩ := List.mem_flatten.mp hm
    exact List.mem_flatten_of_mem (List.mem_of_mem_take hgroup) hm

/-- A cut of the front is one of the whole list when only empty groups are behind it: they may as well
    stand in the last part. -/
theorem CutOf.extend {front rest groupTxMsg : List (List TxMsgReq)} (h : CutOf front groupTxMsg)
    (hrest : rest.flatten = []) (hne : groupTxMsg ≠ []) : CutOf (front ++ rest) groupTxMsg := by
  obtain ⟨parts, rfl, rfl⟩ := h
  obtain ⟨first, last, rfl⟩ := (List.eq_nil_or_concat parts).resolve_left fun hnil => hne (by simp [hnil])
  refine ⟨first ++ [last ++ rest], by simp, ?_⟩
  simp [hrest]

/-- Nothing is lost or torn apart exactly when the `int` holds the number of groups, or holds a smaller
    one above eight and all groups behind it are empty. -/
theorem keepsTogether_iff (txMsgVec : List (List TxMsgReq)) :
    KeepsTogether txMsgVec ↔ txMsgVec.length < 2 ^ 31 ∨ (8 < intOfSize txMsgVec.length ∧
      (txMsgVec.drop (intOfSize txMsgVec.length).toNat).flatten = []) := by
  rcases le_or_gt (intOfSize txMsgVec.length) 8 with hfew | hmany
  · rw [or_iff_left fun h => absurd h.1 (by omega)]
    constructor
    · rintro ⟨groupTxMsg, hrun, hcount, -, -⟩
      obtain rfl := Option.some.inj ((groupDependentDataAt_few hfew).symm.trans hrun)
      omega
    · intro hlt
      have hall := groupDependentDataAt_few hfew
      rw [intOfSize_of_lt hlt] at hfew
      refine ⟨txMsgVec, hall, by omega, rfl, txMsgVec.map fun group => [group], ?_, ?_⟩
      · rw [← List.flatMap_def, List.flatMap_singleton']
      · simp [Function.comp_def]
  · obtain ⟨cut, hcount, hflat, hrun⟩ := groupDependentDataAt_cut hmany
    have hsplit := List.take_append_drop (intOfSize txMsgVec.length).toNat txMsgVec
    have hmsgs : (cut.map List.flatten).flatten
        = (txMsgVec.take (intOfSize txMsgVec.length).toNat).flatten := by
      rw [← List.flatten_flatten, hflat]
    have hfit : txMsgVec.length < 2 ^ 31 →
        (txMsgVec.drop (intOfSize txMsgVec.length).toNat).flatten = [] := by
      intro hlt
      rw [intOfSize_of_lt hlt, Int.toNat_natCast, List.drop_length, List.flatten_nil]
    have hall : txMsgVec.flatten = (txMsgVec.take (intOfSize txMsgVec.length).toNat).flatten
        ++ (txMsgVec.drop (intOfSize txMsgVec.length).toNat).flatten := by
      rw [← List.flatten_append, hsplit]
    constructor
    · rintro ⟨groupTxMsg, hrun', -, hkept, -⟩
      obtain rfl := Option.some.inj (hrun.symm.trans hrun')
      rw [hmsgs, hall] at hkept
      exact .inr ⟨hmany, List.self_eq_append_right.mp hkept⟩
    · intro h
      have hempty := h.elim hfit And.right
      refine ⟨_, hrun, by rw [List.length_map, hcount], by rw [hmsgs, hall, hempty, List.append_nil], ?_⟩
      have hcut : CutOf _ (cut.map List.flatten) := ⟨cut, hflat, rfl⟩
      rw [← hsplit]
      exact hcut.extend hempty fun hnil => by simp [List.map_eq_nil_iff.mp hnil] at hcount

/-- A group of one message for each of `2 ^ 31` dependencies: the `int` is negative, nothing is cut, and
    all groups are given back. -/
theorem keepsTogether_fails_manyGroups :
    ¬ KeepsTogether (List.replicate (2 ^ 31) [⟨"tx", "hash"⟩]) := by
  intro h
  obtain ⟨groupTxMsg, hrun, hcount, -⟩ := h
  have hsize : intOfSize (List.replicate (2 ^ 31) [(⟨"tx", "hash"⟩ : TxMsgReq)]).length ≤ 8 := by
    rw [List.length_replicate]
    decide
  rw [groupDependentDataAt, if_pos hsize] at hrun
  rw [← Option.some.inj hrun, List.length_replicate] at hcount
  omega

end Tfs.Ca
