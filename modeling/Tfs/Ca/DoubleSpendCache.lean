import Tfs.Ca.TxHelper

/-! The outputs in use (`DoubleSpendCache` in `ca/double_spend_cache.cpp`).

    A call of `AddFromAddr` names an address and the outputs of it that a transaction spends. The first
    call for an address is recorded; a later one is refused when it shares an output with what is
    recorded. A later call that is accepted is not recorded, so it protects its outputs from nobody:
    two later calls may share an output, and both pass unless the first call happens to stop one of
    them. -/

namespace Tfs.Ca

/-- What `AddFromAddr` is called with. -/
abbrev Usings := Str × DoubleSpendsuc

/-- The calls that return zero, when the calls are made one after the other. -/
def acceptedUsings (pending : StdMap Str DoubleSpendsuc) : List Usings → List Usings
  | [] => []
  | usings :: rest =>
    let (ret, pending) := addFromAddr pending usings.1 usings.2
    if ret = 0 then usings :: acceptedUsings pending rest else acceptedUsings pending rest

/-- The two calls spend a common output. -/
def SharesUtxo (used used' : DoubleSpendsuc) : Prop := ∃ utxo ∈ used.utxoVec, utxo ∈ used'.utxoVec

instance (used used' : DoubleSpendsuc) : Decidable (SharesUtxo used used') :=
  inferInstanceAs (Decidable (∃ utxo ∈ used.utxoVec, utxo ∈ used'.utxoVec))

/-- Calls for one address have no output in common. -/
def Exclusive (calls : List Usings) : Prop := calls.Pairwise fun a b => a.1 = b.1 → ¬ SharesUtxo a.2 b.2

instance (calls : List Usings) : Decidable (Exclusive calls) :=
  inferInstanceAs (Decidable (calls.Pairwise fun a b => a.1 = b.1 → ¬ SharesUtxo a.2 b.2))

/-- What stands for the address once something does: what was pending, or the first call for it. -/
def recordedFor (pending : StdMap Str DoubleSpendsuc) (calls : List Usings) (addr : Str) :
    Option DoubleSpendsuc :=
  (pending addr).or ((calls.find? fun usings => usings.1 = addr).map Prod.snd)

/-- The call spends an output that is recorded for its address. -/
def MeetsRecorded (pending : StdMap Str DoubleSpendsuc) (calls : List Usings) (usings : Usings) : Prop :=
  ∃ recorded ∈ recordedFor pending calls usings.1, SharesUtxo usings.2 recorded

/-- Of two calls that share an output of one address, one also shares an output with what is recorded
    for the address. -/
def StoppedByRecorded (pending : StdMap Str DoubleSpendsuc) (calls : List Usings) : Prop :=
  calls.Pairwise fun a b => a.1 = b.1 → SharesUtxo a.2 b.2 →
    MeetsRecorded pending calls a ∨ MeetsRecorded pending calls b

theorem SharesUtxo.symm {used used' : DoubleSpendsuc} (h : SharesUtxo used used') : SharesUtxo used' used := by
  obtain ⟨utxo, h, h'⟩ := h
  exact ⟨utxo, h', h⟩

section Calls
variable {pending : StdMap Str DoubleSpendsuc} {addr : Str} {used recorded : DoubleSpendsuc}

/-! ### One call -/

/-- A call for an address that stands changes nothing, and passes when it shares no output. -/
theorem addFromAddr_some (h : pending addr = some recorded) :
    addFromAddr pending addr used = (if SharesUtxo used recorded then -1 else 0, pending) := by
  have hany : (used.utxoVec.any fun u => recorded.utxoVec.contains u) = true ↔ SharesUtxo used recorded := by
    simp [SharesUtxo]
  rw [addFromAddr, h]
  by_cases hs : SharesUtxo used recorded
  · rw [if_pos hs]; exact if_pos (hany.mpr hs)
  · rw [if_neg hs]; exact if_neg (mt hany.mp hs)

/-- The first call for an address passes and is recorded. -/
theorem addFromAddr_none (h : pending addr = none) :
    addFromAddr pending addr used = (0, pending.set addr used) := by
  rw [addFromAddr, h]

/-- After a call, what is recorded for its address stands there. -/
theorem addFromAddr_recorded (rest : List Usings) :
    (addFromAddr pending addr used).2 addr = recordedFor pending ((addr, used) :: rest) addr := by
  rcases h : pending addr with _ | recorded
  · rw [addFromAddr_none h, recordedFor, h]
    simp
  · rw [addFromAddr_some h, recordedFor, h]
    exact h

/-- A call does not change what is recorded in the end. -/
theorem recordedFor_cons (rest : List Usings) :
    recordedFor (addFromAddr pending addr used).2 rest = recordedFor pending ((addr, used) :: rest) := by
  funext addr'
  by_cases h : addr' = addr
  · subst h
    rw [recordedFor, addFromAddr_recorded rest, recordedFor]
    rcases pending addr' with _ | recorded <;> simp
  · have hsame : (addFromAddr pending addr used).2 addr' = pending addr' := by
      rcases hp : pending addr with _ | recorded
      · rw [addFromAddr_none hp]; exact StdMap.set_ne _ _ h
      · rw [addFromAddr_some hp]
    rw [recordedFor, hsame, recordedFor, List.find?_cons_of_neg (by simpa using Ne.symm h)]

/-- A call that passes is the recorded one, or shares no output with it. -/
theorem addFromAddr_eq_zero (rest : List Usings) (h : (addFromAddr pending addr used).1 = 0) :
    recordedFor pending ((addr, used) :: rest) addr = some used ∨
      ¬ MeetsRecorded pending ((addr, used) :: rest) (addr, used) := by
  rcases hp : pending addr with _ | recorded
  · left
    rw [recordedFor, hp]
    simp
  · right
    rw [addFromAddr_some hp] at h
    rintro ⟨other, hother, hs⟩
    simp only [recordedFor, hp, Option.some_or, Option.mem_some_iff] at hother
    subst hother
    simp [hs] at h

/-- A call that is refused shares an output with the recorded one. -/
theorem meetsRecorded_of_refused (rest : List Usings) (h : (addFromAddr pending addr used).1 ≠ 0) :
    MeetsRecorded pending ((addr, used) :: rest) (addr, used) := by
  rcases hp : pending addr with _ | recorded
  · rw [addFromAddr_none hp] at h
    exact absurd rfl h
  · rw [addFromAddr_some hp] at h
    refine ⟨recorded, by simp [recordedFor, hp], ?_⟩
    by_contra hs
    simp [hs] at h

/-- What stands for an address stays. -/
theorem addFromAddr_kept {addr' : Str} (h : pending addr = some recorded) :
    (addFromAddr pending addr' used).2 addr = some recorded := by
  rcases hp : pending addr' with _ | recorded'
  · have hne : addr ≠ addr' := by
      rintro rfl
      cases h.symm.trans hp
    rw [addFromAddr_none hp]
    exact (StdMap.set_ne _ _ hne).trans h
  · rw [addFromAddr_some hp]
    exact h

/-! ### All calls -/

/-- Once something stands for an address, the calls for it that pass are those that share no output
    with it. -/
theorem mem_acceptedUsings : ∀ {calls : List Usings} {pending : StdMap Str DoubleSpendsuc},
    pending addr = some recorded →
    ((addr, used) ∈ acceptedUsings pending calls ↔ (addr, used) ∈ calls ∧ ¬ SharesUtxo used recorded)
  | [], _, _ => by simp [acceptedUsings]
  | (addr', used') :: rest, pending, h => by
    have ih : (addr, used) ∈ acceptedUsings (addFromAddr pending addr' used').2 rest ↔
        (addr, used) ∈ rest ∧ ¬ SharesUtxo used recorded := mem_acceptedUsings (addFromAddr_kept h)
    have hself (heq : (addr, used) = (addr', used')) :
        (addFromAddr pending addr' used').1 = 0 ↔ ¬ SharesUtxo used recorded := by
      cases heq
      rw [addFromAddr_some h]
      by_cases hs : SharesUtxo used recorded <;> simp [hs]
    rw [acceptedUsings]
    dsimp only
    split
    · next hret =>
      rw [List.mem_cons, List.mem_cons, ih, or_and_right, and_iff_left_of_imp fun heq => (hself heq).mp hret]
    · next hret =>
      rw [List.mem_cons, ih, or_and_right, or_iff_right]
      exact fun ⟨heq, hs⟩ => hret ((hself heq).mpr hs)

theorem recordedFor_self (pending : StdMap Str DoubleSpendsuc) (addr : Str) (used : DoubleSpendsuc)
    (rest : List Usings) : ∃ recorded, recordedFor pending ((addr, used) :: rest) addr = some recorded := by
  rw [recordedFor]
  rcases pending addr with _ | recorded <;> simp

/-- An accepted call shares no output with a later accepted one exactly when the recorded call stops
    one of the two. -/
theorem accepted_exclusive_iff {pending : StdMap Str DoubleSpendsuc} {addr : Str} {used : DoubleSpendsuc}
    (rest : List Usings) (hret : (addFromAddr pending addr used).1 = 0) :
    (∀ d ∈ acceptedUsings (addFromAddr pending addr used).2 rest, addr = d.1 → ¬ SharesUtxo used d.2) ↔
      ∀ d ∈ rest, addr = d.1 → SharesUtxo used d.2 →
        MeetsRecorded pending ((addr, used) :: rest) (addr, used) ∨
          MeetsRecorded pending ((addr, used) :: rest) d := by
  obtain ⟨recorded, hrec⟩ := recordedFor_self pending addr used rest
  have hmem (used' : DoubleSpendsuc) :
      (addr, used') ∈ acceptedUsings (addFromAddr pending addr used).2 rest ↔
        (addr, used') ∈ rest ∧ ¬ SharesUtxo used' recorded :=
    mem_acceptedUsings ((addFromAddr_recorded rest).trans hrec)
  have hmeets (used' : DoubleSpendsuc) : MeetsRecorded pending ((addr, used) :: rest) (addr, used') ↔
      SharesUtxo used' recorded := by
    simp [MeetsRecorded, hrec]
  constructor
  · rintro h ⟨addr', used'⟩ hd rfl hs
    by_contra hno
    obtain ⟨-, hd'⟩ := not_or.mp hno
    exact h _ ((hmem used').mpr ⟨hd, mt (hmeets used').mpr hd'⟩) rfl hs
  · rintro h ⟨addr', used'⟩ hd rfl hs
    obtain ⟨hd, hnot⟩ := (hmem used').mp hd
    rcases h _ hd rfl hs with hc | hc
    · -- the accepted call meets the recorded one, so it is the recorded one
      rcases addFromAddr_eq_zero rest hret with hself | hself
      · cases hrec.symm.trans hself
        exact hnot hs.symm
      · exact hself hc
    · exact hnot ((hmeets used').mp hc)

/-- Two accepted calls for one address never share an output exactly when the recorded call stops one
    of any two calls that do. -/
theorem exclusive_iff_stoppedByRecorded : ∀ (pending : StdMap Str DoubleSpendsuc) (calls : List Usings),
    Exclusive (acceptedUsings pending calls) ↔ StoppedByRecorded pending calls
  | _, [] => by simp [acceptedUsings, Exclusive, StoppedByRecorded]
  | pending, (addr, used) :: rest => by
    have ih := exclusive_iff_stoppedByRecorded (addFromAddr pending addr used).2 rest
    have hmeets : MeetsRecorded (addFromAddr pending addr used).2 rest
        = MeetsRecorded pending ((addr, used) :: rest) := by
      funext usings
      rw [MeetsRecorded, recordedFor_cons, MeetsRecorded]
    rw [StoppedByRecorded, hmeets] at ih
    rw [StoppedByRecorded, List.pairwise_cons, ← ih, acceptedUsings]
    dsimp only
    split
    · next hret =>
      rw [Exclusive, List.pairwise_cons]
      exact and_congr_left' (accepted_exclusive_iff rest hret)
    · next hret =>
      -- a refused call meets the recorded one
      rw [and_iff_right]
      exact fun _ _ _ _ => .inl (meetsRecorded_of_refused rest hret)

end Calls

/-- The second and the third call spend the same output, and both are accepted. -/
theorem later_calls_not_recorded :
    ¬ Exclusive (acceptedUsings .empty [(str "addr", ⟨1, [str "utxo1"]⟩), (str "addr", ⟨2, [str "utxo2"]⟩),
      (str "addr", ⟨3, [str "utxo2"]⟩)]) := by decide

end Tfs.Ca
