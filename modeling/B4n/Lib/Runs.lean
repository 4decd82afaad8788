import Mathlib.Data.List.Induction

/-!
# Runs of a machine

A machine takes a state and an input to the next state and a list of outputs,
or dies.  A `Run` is a finite sequence of steps from an initial state with
everything it took in and put out.  Prefixes of a run are runs, so a property
of the last state of every run is a property of every state of every run.

The rules of this module are the inductions that a development does over runs,
stated once: an invariant (`Run.invariant`), a measure that bounds the length of
every run (`Run.length_add_le`), and a condition on the steps that is exactly
what an invariant needs (`allStates_iff_allSteps`, `last_iff_allSteps`) or what
the outputs need (`outputs_iff_allSteps`).
-/

namespace B4n.Lib

variable {σ ι ο : Type}

/-- One step; `none` means that the machine dies. -/
abbrev Machine (σ ι ο : Type) := σ → ι → Option (σ × List ο)

/-- The runs from `init`: inputs, last state, outputs. -/
inductive Run (next : Machine σ ι ο) (init : σ) :
    List ι → σ → List ο → Prop where
  | start : Run next init [] init []
  | step {inputs : List ι} {s : σ} {outputs : List ο} {i : ι} {t : σ}
      {out : List ο} (hrun : Run next init inputs s outputs)
      (hnext : next s i = some (t, out)) :
      Run next init (inputs ++ [i]) t (outputs ++ out)

/-- A condition on every step: it holds of every state of the run and the
input taken there. -/
def AllSteps (next : Machine σ ι ο) (init : σ) (inputs : List ι)
    (cond : σ → ι → Prop) : Prop :=
  ∀ before i after s outputs, inputs = before ++ i :: after →
    Run next init before s outputs → cond s i

/-- A property of every state reached along the inputs. -/
def AllStates (next : Machine σ ι ο) (init : σ) (inputs : List ι)
    (P : σ → Prop) : Prop :=
  ∀ before after s outputs, inputs = before ++ after →
    Run next init before s outputs → P s

variable {next : Machine σ ι ο} {init : σ}

theorem AllSteps.of_append {inputs more : List ι} {cond : σ → ι → Prop}
    (h : AllSteps next init (inputs ++ more) cond) :
    AllSteps next init inputs cond := by
  intro before i after s outputs heq hrun
  exact h before i (after ++ more) s outputs (by simp [heq]) hrun

theorem AllSteps.last {inputs : List ι} {i : ι} {cond : σ → ι → Prop}
    (h : AllSteps next init (inputs ++ [i]) cond) {s : σ} {outputs : List ο}
    (hrun : Run next init inputs s outputs) : cond s i :=
  h inputs i [] s outputs rfl hrun

/-- What the first state has and every step keeps, every state has. -/
theorem Run.invariant {P : σ → Prop} (hinit : P init)
    (hstep : ∀ s i t out, P s → next s i = some (t, out) → P t)
    {inputs : List ι} {s : σ} {outputs : List ο}
    (hrun : Run next init inputs s outputs) : P s := by
  induction hrun with
  | start => exact hinit
  | step _ hnext ih => exact hstep _ _ _ _ ih hnext

/-- As `Run.invariant`, for a property of the state and of everything put
out. -/
theorem Run.invariant_outputs {P : σ → List ο → Prop} (hinit : P init [])
    (hstep : ∀ s outputs i t out, P s outputs → next s i = some (t, out) →
      P t (outputs ++ out))
    {inputs : List ι} {s : σ} {outputs : List ο}
    (hrun : Run next init inputs s outputs) : P s outputs := by
  induction hrun with
  | start => exact hinit
  | step _ hnext ih => exact hstep _ _ _ _ _ ih hnext

/-- If every step makes a measure smaller, the measure of the first state
bounds the length of every run. -/
theorem Run.length_add_le {P : σ → List ο → Prop} {measure : σ → Nat}
    (hinit : P init [])
    (hstep : ∀ s outputs i t out, P s outputs → next s i = some (t, out) →
      P t (outputs ++ out) ∧ measure t < measure s)
    {inputs : List ι} {s : σ} {outputs : List ο}
    (hrun : Run next init inputs s outputs) :
    inputs.length + measure s ≤ measure init := by
  have hkeep : ∀ s outputs i t out, P s outputs → next s i = some (t, out) →
      P t (outputs ++ out) := fun s outputs i t out hs hnext =>
    (hstep s outputs i t out hs hnext).1
  induction hrun with
  | start => simp
  | step hprev hnext ih =>
      have hless := (hstep _ _ _ _ _ (hprev.invariant_outputs hinit hkeep) hnext).2
      rw [List.length_append, List.length_singleton]
      omega

/-- A run continues from its last state. -/
theorem Run.append {inputs more : List ι} {s t : σ} {outputs out : List ο}
    (hrun : Run next init inputs s outputs) (hmore : Run next s more t out) :
    Run next init (inputs ++ more) t (outputs ++ out) := by
  induction hmore with
  | start => simpa using hrun
  | step _ hnext ih =>
      rw [← List.append_assoc, ← List.append_assoc]
      exact ih.step hnext

/-- A step and a run from where it leads. -/
theorem Run.cons {inputs : List ι} {i : ι} {t last : σ} {out outputs : List ο}
    (hnext : next init i = some (t, out))
    (hrun : Run next t inputs last outputs) :
    Run next init (i :: inputs) last (out ++ outputs) := by
  have hfirst : Run next init ([] ++ [i]) t ([] ++ out) := Run.start.step hnext
  exact hfirst.append hrun

/-! ## Running a machine -/

/-- Execute a list of inputs. -/
def exec (next : Machine σ ι ο) : σ → List ι → Option (σ × List ο)
  | s, [] => some (s, [])
  | s, i :: inputs =>
      match next s i with
      | none => none
      | some (t, out) =>
          match exec next t inputs with
          | none => none
          | some (u, outputs) => some (u, out ++ outputs)

/-- An execution is a run. -/
theorem run_of_exec {inputs : List ι} {s t : σ} {outputs : List ο}
    (h : exec next s inputs = some (t, outputs)) :
    Run next s inputs t outputs := by
  induction inputs generalizing s t outputs with
  | nil =>
      simp only [exec, Option.some.injEq, Prod.mk.injEq] at h
      obtain ⟨rfl, rfl⟩ := h
      exact .start
  | cons i inputs ih =>
      unfold exec at h
      split at h
      · cases h
      · rename_i u out hnext
        split at h
        · cases h
        · rename_i v outs hexec
          cases h
          exact Run.cons hnext (ih hexec)

/-- Where an execution ends and what it puts out; the first state if it dies. -/
def finish (next : Machine σ ι ο) (s : σ) (inputs : List ι) : σ × List ο :=
  (exec next s inputs).getD (s, [])

/-- An execution that does not die is a run to where it ends. -/
theorem run_finish {inputs : List ι} {s : σ}
    (h : (exec next s inputs).isSome = true) :
    Run next s inputs (finish next s inputs).1 (finish next s inputs).2 := by
  obtain ⟨last, hlast⟩ := Option.isSome_iff_exists.mp h
  unfold finish
  rw [hlast]
  exact run_of_exec hlast

/-- What an execution shows of where it ends, a run shows. -/
theorem exists_run {inputs : List ι} {s : σ} {P : σ → List ο → Prop}
    (h : (exec next s inputs).isSome = true ∧
      P (finish next s inputs).1 (finish next s inputs).2) :
    ∃ last outputs, Run next s inputs last outputs ∧ P last outputs :=
  ⟨_, _, run_finish h.1, h.2⟩

private theorem exec_snoc {inputs : List ι} {r s t : σ} {outputs out : List ο}
    {i : ι} (hexec : exec next r inputs = some (s, outputs))
    (hnext : next s i = some (t, out)) :
    exec next r (inputs ++ [i]) = some (t, outputs ++ out) := by
  induction inputs generalizing r outputs with
  | nil =>
      simp only [exec, Option.some.injEq, Prod.mk.injEq] at hexec
      obtain ⟨rfl, rfl⟩ := hexec
      simp [exec, hnext]
  | cons j inputs ih =>
      unfold exec at hexec
      split at hexec
      · cases hexec
      · rename_i u first hfirst
        split at hexec
        · cases hexec
        · rename_i v rest hrest
          cases hexec
          simp [exec, hfirst, ih hrest]

/-- Inputs determine the run. -/
theorem Run.exec_eq {inputs : List ι} {s : σ} {outputs : List ο}
    (hrun : Run next init inputs s outputs) :
    exec next init inputs = some (s, outputs) := by
  induction hrun with
  | start => rfl
  | step _ hnext ih => exact exec_snoc ih hnext

/-- The state a list of inputs leads to is unique. -/
theorem Run.unique {inputs : List ι} {s t : σ} {outputs out : List ο}
    (hs : Run next init inputs s outputs) (ht : Run next init inputs t out) :
    s = t ∧ outputs = out := by
  have heq := hs.exec_eq.symm.trans ht.exec_eq
  simpa using heq

theorem AllSteps.snoc {inputs : List ι} {i : ι} {cond : σ → ι → Prop}
    {s : σ} {outputs : List ο} (hrun : Run next init inputs s outputs)
    (h : AllSteps next init inputs cond) (hlast : cond s i) :
    AllSteps next init (inputs ++ [i]) cond := by
  intro before j after u outs heq hbefore
  rcases List.eq_nil_or_concat after with rfl | ⟨rest, k, rfl⟩
  · obtain ⟨rfl, hij⟩ := List.append_inj' heq rfl
    cases hij
    obtain ⟨rfl, -⟩ := hrun.unique hbefore
    exact hlast
  · rw [List.concat_eq_append, ← List.cons_append, ← List.append_assoc] at heq
    obtain ⟨hinputs, -⟩ := List.append_inj' heq rfl
    exact h before j rest u outs hinputs hbefore

theorem AllStates.of_append {inputs more : List ι} {P : σ → Prop}
    (h : AllStates next init (inputs ++ more) P) :
    AllStates next init inputs P := by
  intro before after s outputs heq hrun
  exact h before (after ++ more) s outputs (by simp [heq]) hrun

theorem AllStates.last {inputs : List ι} {P : σ → Prop}
    (h : AllStates next init inputs P) {s : σ} {outputs : List ο}
    (hrun : Run next init inputs s outputs) : P s :=
  h inputs [] s outputs (List.append_nil inputs).symm hrun

/-- A run goes through a state after each prefix of its inputs. -/
theorem Run.split {inputs more : List ι} {t : σ} {outputs : List ο}
    (hrun : Run next init (inputs ++ more) t outputs) :
    ∃ s first rest, Run next init inputs s first ∧ Run next s more t rest := by
  induction more using List.reverseRecOn generalizing t outputs with
  | nil =>
      rw [List.append_nil] at hrun
      exact ⟨t, outputs, [], hrun, .start⟩
  | append_singleton more i ih =>
      rw [← List.append_assoc] at hrun
      generalize hall : inputs ++ more ++ [i] = all at hrun
      cases hrun with
      | start => simp at hall
      | step hprev hnext =>
          obtain ⟨rfl, hi⟩ := List.append_inj' hall rfl
          cases hi
          obtain ⟨s, first, rest, hfirst, hrest⟩ := ih hprev
          exact ⟨s, first, _, hfirst, hrest.step hnext⟩

/-- A run takes the step that its inputs name, and goes on from there. -/
theorem Run.split_cons {before after : List ι} {i : ι} {s last : σ}
    {out outputs : List ο} (hrun : Run next init (before ++ i :: after) last outputs)
    (hbefore : Run next init before s out) :
    ∃ t new rest, next s i = some (t, new) ∧ Run next t after last rest := by
  rw [List.append_cons] at hrun
  obtain ⟨mid, first, rest, hfirst, hrest⟩ := hrun.split
  generalize hall : before ++ [i] = all at hfirst
  cases hfirst with
  | start => simp at hall
  | step hprev hnext =>
      obtain ⟨rfl, hi⟩ := List.append_inj' hall rfl
      cases hi
      obtain ⟨rfl, -⟩ := hprev.unique hbefore
      exact ⟨mid, _, rest, hnext, hrest⟩

/-- The first step of a run, and the run from where it leads. -/
theorem Run.split_first {inputs : List ι} {i : ι} {last : σ}
    {outputs : List ο} (hrun : Run next init (i :: inputs) last outputs) :
    ∃ t out rest, next init i = some (t, out) ∧
      Run next t inputs last rest ∧ outputs = out ++ rest := by
  have hexec := hrun.exec_eq
  unfold exec at hexec
  split at hexec
  · cases hexec
  · rename_i t out hnext
    split at hexec
    · cases hexec
    · rename_i u rest hrest
      cases hexec
      exact ⟨t, out, rest, hnext, run_of_exec hrest, rfl⟩

theorem AllSteps.nil {cond : σ → ι → Prop} : AllSteps next init [] cond := by
  intro before i after s outputs heq
  simp at heq

/-- A condition on the first step and on the steps after it. -/
theorem AllSteps.cons {inputs : List ι} {i : ι} {cond : σ → ι → Prop}
    (hfirst : cond init i)
    (hrest : ∀ t out, next init i = some (t, out) → AllSteps next t inputs cond) :
    AllSteps next init (i :: inputs) cond := by
  intro before j after s outputs heq hrun
  cases before with
  | nil =>
      cases heq
      obtain ⟨rfl, -⟩ := hrun.unique .start
      exact hfirst
  | cons k before =>
      cases heq
      obtain ⟨t, out, rest, hnext, htail, -⟩ := hrun.split_first
      exact hrest t out hnext before j after s rest rfl htail

theorem AllSteps.first {inputs : List ι} {i : ι} {cond : σ → ι → Prop}
    (h : AllSteps next init (i :: inputs) cond) : cond init i :=
  h [] i inputs init [] rfl .start

theorem AllSteps.tail {inputs : List ι} {i : ι} {cond : σ → ι → Prop}
    (h : AllSteps next init (i :: inputs) cond) {t : σ} {out : List ο}
    (hnext : next init i = some (t, out)) : AllSteps next t inputs cond := by
  intro before j after s outputs heq hrun
  exact h (i :: before) j after s (out ++ outputs) (by rw [heq]; rfl)
    (Run.cons hnext hrun)

/-- Check a condition on the steps of an execution. -/
def everyStep (next : Machine σ ι ο) (cond : σ → ι → Bool) : σ → List ι → Bool
  | _, [] => true
  | s, i :: inputs =>
      cond s i &&
        match next s i with
        | none => true
        | some (t, _) => everyStep next cond t inputs

theorem allSteps_of_everyStep {cond : σ → ι → Bool} {inputs : List ι} {s : σ}
    (h : everyStep next cond s inputs = true) :
    AllSteps next s inputs fun s i => cond s i = true := by
  induction inputs generalizing s with
  | nil => exact .nil
  | cons i inputs ih =>
      unfold everyStep at h
      rw [Bool.and_eq_true] at h
      apply AllSteps.cons
      · exact h.1
      · intro t out hnext
        rw [hnext] at h
        exact ih h.2

/-- If a step keeps a property exactly when it meets a condition, then every
state of a run has the property exactly when every step that is taken meets
the condition.  What is known of every state of the run may be used for the
steps. -/
theorem allStates_iff_allSteps {P Q : σ → Prop} {cond : σ → ι → Prop}
    (hinit : P init)
    (hstep : ∀ s i t out, Q s → Q t → P s → next s i = some (t, out) →
      (P t ↔ cond s i))
    {inputs : List ι} {s : σ} {outputs : List ο}
    (hrun : Run next init inputs s outputs)
    (hknown : AllStates next init inputs Q) :
    AllStates next init inputs P ↔ AllSteps next init inputs cond := by
  induction hrun with
  | start =>
      constructor
      · intro _ before i after u outs heq
        simp at heq
      · intro _ before after u outs heq hbefore
        obtain ⟨rfl, -⟩ := List.append_eq_nil_iff.mp heq.symm
        obtain ⟨rfl, -⟩ := hbefore.unique .start
        exact hinit
  | step hprev hnext ih =>
      rename_i inputs r outputs i t out
      have hlast := hprev.step hnext
      have hiff : P r → (P t ↔ cond r i) := fun hr =>
        hstep r i t out (hknown.of_append.last hprev) (hknown.last hlast) hr
          hnext
      constructor
      · intro hall
        have hr : P r := hall.of_append.last hprev
        exact ((ih hknown.of_append).mp hall.of_append).snoc hprev
          ((hiff hr).mp (hall.last hlast))
      · intro hcond before after u outs heq hbefore
        have hall := (ih hknown.of_append).mpr hcond.of_append
        rcases List.eq_nil_or_concat after with rfl | ⟨rest, j, rfl⟩
        · rw [List.append_nil] at heq
          subst heq
          obtain ⟨rfl, -⟩ := hbefore.unique hlast
          exact (hiff (hall.last hprev)).mpr (hcond.last hprev)
        · rw [List.concat_eq_append, ← List.append_assoc] at heq
          obtain ⟨hinputs, -⟩ := List.append_inj' heq rfl
          exact hall before rest u outs hinputs hbefore

/-- If a step keeps a property exactly when it meets a condition, and no step
brings the property back, then the last state of a run has it exactly when every
step of the run meets the condition. -/
theorem last_iff_allSteps {P Q : σ → Prop} {cond : σ → ι → Prop}
    (hinit : P init)
    (hstep : ∀ s i t out, Q s → P s → next s i = some (t, out) →
      (P t ↔ cond s i))
    (hlost : ∀ s i t out, Q s → ¬P s → next s i = some (t, out) → ¬P t)
    (hknown : ∀ inputs s outputs, Run next init inputs s outputs → Q s)
    {inputs : List ι} {s : σ} {outputs : List ο}
    (hrun : Run next init inputs s outputs) :
    P s ↔ AllSteps next init inputs cond := by
  induction hrun with
  | start => exact iff_of_true hinit .nil
  | step hprev hnext ih =>
      rename_i inputs r outputs i t out
      have hr := hknown _ _ _ hprev
      by_cases hP : P r
      · rw [hstep r i t out hr hP hnext]
        constructor
        · intro hcond
          exact (ih.mp hP).snoc hprev hcond
        · intro hcond
          exact hcond.last hprev
      · apply iff_of_false (hlost r i t out hr hP hnext)
        intro hcond
        exact hP (ih.mpr hcond.of_append)

/-- If the outputs, as far as they are in order, stay in order exactly at the
steps that meet a condition, then all outputs of a run are in order exactly when
every step meets the condition.  The invariant tells what the state knows of
outputs in order. -/
theorem outputs_iff_allSteps {P : List ο → Prop} {I : σ → List ο → Prop}
    {cond : σ → ι → Prop} (hinit : I init [])
    (horder : ∀ s outputs, I s outputs → P outputs)
    (hfront : ∀ outputs out, P (outputs ++ out) → P outputs)
    (hstep : ∀ s outputs i t out, I s outputs → next s i = some (t, out) →
      (cond s i → I t (outputs ++ out)) ∧ (P (outputs ++ out) → cond s i))
    {inputs : List ι} {s : σ} {outputs : List ο}
    (hrun : Run next init inputs s outputs) :
    P outputs ↔ AllSteps next init inputs cond := by
  have hinv : ∀ {inputs s outputs}, Run next init inputs s outputs →
      AllSteps next init inputs cond → I s outputs := by
    intro inputs s outputs hrun hcond
    induction hrun with
    | start => exact hinit
    | step hprev hnext ih =>
        have hs := ih hcond.of_append
        exact (hstep _ _ _ _ _ hs hnext).1 (hcond.last hprev)
  constructor
  · intro hP
    induction hrun with
    | start => exact .nil
    | step hprev hnext ih =>
        have hbefore := ih (hfront _ _ hP)
        have hs := hinv hprev hbefore
        exact hbefore.snoc hprev ((hstep _ _ _ _ _ hs hnext).2 hP)
  · intro hcond
    exact horder _ _ (hinv hrun hcond)

end B4n.Lib
