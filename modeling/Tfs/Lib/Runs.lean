import Mathlib.Data.List.Basic

/-! Runs of a state machine: the actions are taken one after the other, and a condition on the single
    step may be asked of all of them. -/

namespace Tfs

variable {σ α : Type}

/-- Every action of the run meets the condition in the state in which it is taken. -/
def EveryStep (step : σ → α → σ) (cond : σ → α → Prop) : σ → List α → Prop
  | _, [] => True
  | s, a :: acts => cond s a ∧ EveryStep step cond (step s a) acts

instance {step : σ → α → σ} {cond : σ → α → Prop} [∀ s a, Decidable (cond s a)] :
    ∀ (s : σ) (acts : List α), Decidable (EveryStep step cond s acts)
  | _, [] => .isTrue trivial
  | s, a :: acts =>
    have : Decidable (EveryStep step cond (step s a) acts) := instDecidableEveryStep (step s a) acts
    inferInstanceAs (Decidable (_ ∧ _))

variable {step : σ → α → σ} {cond : σ → α → Prop}

/-- A condition on the actions alone. -/
theorem everyStep_const {C : α → Prop} : ∀ {s : σ} {acts : List α},
    EveryStep step (fun _ => C) s acts ↔ ∀ a ∈ acts, C a
  | _, [] => by simp [EveryStep]
  | s, a :: acts => by rw [EveryStep, everyStep_const, List.forall_mem_cons]

/-- A run of two parts. -/
theorem everyStep_append : ∀ {s : σ} {acts acts' : List α}, EveryStep step cond s (acts ++ acts') ↔
    EveryStep step cond s acts ∧ EveryStep step cond (acts.foldl step s) acts'
  | _, [], _ => by simp [EveryStep]
  | s, a :: acts, acts' => by
    rw [List.cons_append, EveryStep, everyStep_append, EveryStep, List.foldl_cons, and_assoc]

/-- What the allowed steps keep holds after every run of allowed steps. -/
theorem EveryStep.invariant {P : σ → Prop} (hstep : ∀ s a, cond s a → P s → P (step s a)) :
    ∀ {s : σ} {acts : List α}, EveryStep step cond s acts → P s → P (acts.foldl step s)
  | _, [], _, hinv => hinv
  | s, a :: _, ⟨hcond, hrest⟩, hinv => hrest.invariant hstep (hstep s a hcond hinv)

/-- An invariant under which every step is allowed makes every run one of allowed steps. -/
theorem everyStep_of_invariant {P : σ → Prop} (hstep : ∀ s a, P s → cond s a ∧ P (step s a)) :
    ∀ {s : σ} (acts : List α), P s → EveryStep step cond s acts
  | _, [], _ => trivial
  | s, a :: acts, hinv => ⟨(hstep s a hinv).1, everyStep_of_invariant hstep acts (hstep s a hinv).2⟩

/-- One condition on the steps gives another, under an invariant that the steps it allows keep. -/
theorem EveryStep.imp {P : σ → Prop} {cond' : σ → α → Prop}
    (hstep : ∀ s a, P s → cond s a → cond' s a ∧ P (step s a)) :
    ∀ {s : σ} {acts : List α}, EveryStep step cond s acts → P s → EveryStep step cond' s acts
  | _, [], _, _ => trivial
  | s, a :: _, ⟨hcond, hrest⟩, hinv =>
    have hnext := hstep s a hinv hcond
    ⟨hnext.1, hrest.imp hstep hnext.2⟩

/-- Where the condition says exactly which steps keep the invariant, it holds all along a run exactly
    when every step meets the condition. -/
theorem always_iff_everyStep {P : σ → Prop} (hstep : ∀ s a, P s → (P (step s a) ↔ cond s a)) :
    ∀ {s : σ} {acts : List α}, P s →
      ((∀ done, done <+: acts → P (done.foldl step s)) ↔ EveryStep step cond s acts)
  | s, [], hinv => by
    refine iff_of_true (fun done hdone => ?_) trivial
    rw [List.prefix_nil.mp hdone]
    exact hinv
  | s, a :: acts, hinv => by
    constructor
    · intro hall
      have hnext : P (step s a) := hall [a] (by simp)
      refine ⟨(hstep s a hinv).mp hnext, ?_⟩
      refine (always_iff_everyStep hstep hnext).mp fun done hdone => ?_
      exact hall (a :: done) (List.cons_prefix_cons.mpr ⟨rfl, hdone⟩)
    · rintro ⟨hcond, hrest⟩ done hdone
      have hnext := (hstep s a hinv).mpr hcond
      cases done with
      | nil => exact hinv
      | cons b done =>
        obtain ⟨rfl, hrun⟩ := List.cons_prefix_cons.mp hdone
        exact (always_iff_everyStep hstep hnext).mpr hrest done hrun

/-- Two conditions that agree under an invariant ask the same of a run, where one of them keeps it. -/
theorem everyStep_congr {P : σ → Prop} {cond' : σ → α → Prop}
    (hiff : ∀ s a, P s → (cond s a ↔ cond' s a)) (hkeep : ∀ s a, P s → cond' s a → P (step s a)) :
    ∀ {s : σ} {acts : List α}, P s → (EveryStep step cond s acts ↔ EveryStep step cond' s acts)
  | _, [], _ => Iff.rfl
  | s, a :: acts, hinv => by
    rw [EveryStep, EveryStep]
    constructor
    · rintro ⟨hcond, hrest⟩
      have hcond := (hiff s a hinv).mp hcond
      exact ⟨hcond, (everyStep_congr hiff hkeep (hkeep s a hinv hcond)).mp hrest⟩
    · rintro ⟨hcond, hrest⟩
      exact ⟨(hiff s a hinv).mpr hcond, (everyStep_congr hiff hkeep (hkeep s a hinv hcond)).mpr hrest⟩

end Tfs
