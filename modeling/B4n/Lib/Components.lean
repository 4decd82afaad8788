import B4n.Lib.Runs

/-!
# Components

A component of a machine has a state that can be read off the state of the whole.
A step of the whole is a turn of the component, on an input of its own, or leaves
it as it is.  What the component does in a run of the whole is then a run of it
alone, so that what holds along all its own runs holds of it among the others.

## Main results

* `Component.run` — a run of the whole is, seen from the component, one of its own.
* `Component.allStates` — what the component has in every state of a run of the whole,
  it has in every state of its own run.
-/

namespace B4n.Lib

variable {σ τ ι κ ο υ : Type}

/-- What a component takes in along the inputs of the whole. -/
def turnsOf (next : Machine σ ι ο) (turn : σ → ι → Option κ) : σ → List ι → List κ
  | _, [] => []
  | s, i :: inputs =>
      match next s i with
      | none => []
      | some (t, _) => (turn s i).toList ++ turnsOf next turn t inputs

/-- The component takes its turns as it would alone, and stays as it is in the
turns of others. -/
structure Component (next : Machine σ ι ο) (part : σ → τ) (turn : σ → ι → Option κ)
    (own : Machine τ κ υ) : Prop where
  moves : ∀ {s i t out k}, next s i = some (t, out) → turn s i = some k →
    ∃ new, own (part s) k = some (part t, new)
  rests : ∀ {s i t out}, next s i = some (t, out) → turn s i = none → part t = part s

variable {next : Machine σ ι ο} {part : σ → τ} {turn : σ → ι → Option κ} {own : Machine τ κ υ}

theorem Component.run (h : Component next part turn own) {inputs : List ι} {s last : σ}
    {outputs : List ο} (hrun : Run next s inputs last outputs) :
    ∃ out, Run own (part s) (turnsOf next turn s inputs) (part last) out := by
  induction inputs generalizing s outputs with
  | nil =>
      obtain ⟨rfl, -⟩ := hrun.unique .start
      exact ⟨[], .start⟩
  | cons i inputs ih =>
      obtain ⟨t, first, rest, hnext, htail, -⟩ := hrun.split_first
      obtain ⟨out, hout⟩ := ih htail
      unfold turnsOf
      rw [hnext]
      dsimp only
      cases hturn : turn s i with
      | none =>
          rw [← h.rests hnext hturn]
          exact ⟨out, hout⟩
      | some k =>
          obtain ⟨new, hnew⟩ := h.moves hnext hturn
          exact ⟨new ++ out, hout.cons hnew⟩

theorem turnsOf_append {inputs more : List ι} {s t : σ} {outputs : List ο}
    (hrun : Run next s inputs t outputs) :
    turnsOf next turn s (inputs ++ more) =
      turnsOf next turn s inputs ++ turnsOf next turn t more := by
  induction inputs generalizing s outputs with
  | nil =>
      obtain ⟨rfl, -⟩ := hrun.unique .start
      rfl
  | cons i inputs ih =>
      obtain ⟨mid, first, rest, hnext, htail, -⟩ := hrun.split_first
      have hfirst : ∀ later, turnsOf next turn s (i :: later) =
          (turn s i).toList ++ turnsOf next turn mid later := by
        intro later
        rw [turnsOf, hnext]
      rw [List.cons_append, hfirst, hfirst, ih htail, List.append_assoc]

/-- What the component has taken in at some time of its own, it has taken in at some
time of the whole. -/
theorem turnsOf_eq_append {inputs : List ι} {s : σ} {first rest : List κ}
    (h : turnsOf next turn s inputs = first ++ rest) :
    ∃ before after, inputs = before ++ after ∧ turnsOf next turn s before = first := by
  induction inputs generalizing s first with
  | nil =>
      obtain ⟨rfl, -⟩ := List.append_eq_nil_iff.mp h.symm
      exact ⟨[], [], rfl, rfl⟩
  | cons i inputs ih =>
      unfold turnsOf at h
      cases hnext : next s i with
      | none =>
          rw [hnext] at h
          obtain ⟨rfl, -⟩ := List.append_eq_nil_iff.mp h.symm
          exact ⟨[], i :: inputs, rfl, rfl⟩
      | some after =>
          rw [hnext] at h
          dsimp only at h
          cases hturn : turn s i with
          | none =>
              rw [hturn] at h
              obtain ⟨before, more, rfl, hbefore⟩ := ih h
              refine ⟨i :: before, more, rfl, ?_⟩
              rw [← hbefore, turnsOf, hnext, hturn]
              rfl
          | some k =>
              rw [hturn] at h
              cases first with
              | nil => exact ⟨[], i :: inputs, rfl, rfl⟩
              | cons k' first =>
                  obtain ⟨rfl, htail⟩ := List.cons.inj h
                  obtain ⟨before, more, rfl, hbefore⟩ := ih htail
                  refine ⟨i :: before, more, rfl, ?_⟩
                  rw [← hbefore, turnsOf, hnext, hturn]
                  rfl

theorem Component.allStates (h : Component next part turn own) {inputs : List ι} {s last : σ}
    {outputs : List ο} (hrun : Run next s inputs last outputs) {P : τ → Prop}
    (hall : AllStates next s inputs fun t => P (part t)) :
    AllStates own (part s) (turnsOf next turn s inputs) P := by
  intro first rest t out heq hfirst
  obtain ⟨before, after, rfl, hbefore⟩ := turnsOf_eq_append heq
  obtain ⟨mid, outs, -, hmid, -⟩ := hrun.split
  obtain ⟨new, hnew⟩ := h.run hmid
  rw [hbefore] at hnew
  obtain ⟨rfl, -⟩ := hnew.unique hfirst
  exact hall before after mid outs rfl hmid

end B4n.Lib
