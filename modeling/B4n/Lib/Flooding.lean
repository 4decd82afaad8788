import B4n.Lib.Runs
import Mathlib.Logic.Relation

/-!
# Flooding

A token spreads among the parties of a machine.  A party that takes it hands it
to the parties it is linked with at that time; what was handed over stays on its
way until some step brings it there; and a party that remembers the token took
it earlier.

Which steps were taken is history that the states need not hold, so it is said of
the inputs of a run (`Happened`).

## Main results

* `Spreads.run_handed` — what was handed over is on its way or was taken.
* `Spreads.run_floods` — once nothing is on its way, everyone took the token who
  is linked with someone who did, over any number of links.
-/

namespace B4n.Lib

variable {σ ι ο π : Type}

/-! ## Steps that were taken -/

/-- At some state of the run an input was taken for which the condition holds. -/
def Happened (next : Machine σ ι ο) (init : σ) (inputs : List ι)
    (cond : σ → ι → Prop) : Prop :=
  ∃ before i after s outputs, inputs = before ++ i :: after ∧
    Run next init before s outputs ∧ cond s i

section Happened

variable {next : Machine σ ι ο} {init : σ} {inputs : List ι} {cond : σ → ι → Prop}

theorem Happened.of_append (h : Happened next init inputs cond) (more : List ι) :
    Happened next init (inputs ++ more) cond := by
  obtain ⟨before, i, after, s, outputs, rfl, hrun, hcond⟩ := h
  exact ⟨before, i, after ++ more, s, outputs, by simp, hrun, hcond⟩

theorem Happened.last {s : σ} {outputs : List ο} (hrun : Run next init inputs s outputs)
    {i : ι} (hcond : cond s i) : Happened next init (inputs ++ [i]) cond :=
  ⟨inputs, i, [], s, outputs, rfl, hrun, hcond⟩

theorem not_happened_nil : ¬Happened next init [] cond := by
  rintro ⟨before, i, after, s, outputs, hnil, -⟩
  simp at hnil

/-- With a condition on every step, something more is known of the one that was
taken. -/
theorem Happened.and {also : σ → ι → Prop} (h : Happened next init inputs cond)
    (hall : AllSteps next init inputs fun s i => cond s i → also s i) :
    Happened next init inputs fun s i => cond s i ∧ also s i := by
  obtain ⟨before, i, after, s, outputs, heq, hrun, hc⟩ := h
  exact ⟨before, i, after, s, outputs, heq, hrun, hc,
    hall before i after s outputs heq hrun hc⟩

/-- A step of the longer run is the last one, or a step of the shorter. -/
theorem happened_snoc_iff {s : σ} {outputs : List ο} (hrun : Run next init inputs s outputs)
    {i : ι} :
    Happened next init (inputs ++ [i]) cond ↔
      Happened next init inputs cond ∨ cond s i := by
  constructor
  · rintro ⟨before, j, after, t, out, heq, hbefore, hc⟩
    rcases List.eq_nil_or_concat after with rfl | ⟨rest, k, rfl⟩
    · obtain ⟨rfl, hij⟩ := List.append_inj' heq rfl
      cases hij
      obtain ⟨rfl, -⟩ := hrun.unique hbefore
      exact .inr hc
    · rw [List.concat_eq_append, ← List.cons_append, ← List.append_assoc] at heq
      obtain ⟨hinputs, -⟩ := List.append_inj' heq rfl
      exact .inl ⟨before, j, rest, t, out, hinputs, hbefore, hc⟩
  · rintro (h | hc)
    · exact h.of_append [i]
    · exact .last hrun hc

end Happened

/-! ## A token -/

/-- What the states and steps of a machine have to do with a token. -/
structure Token (σ ι π : Type) where
  /-- it is on its way to the party -/
  coming : σ → π → Prop
  /-- the step brings it to the party -/
  brings : σ → ι → π → Prop
  /-- the party takes it -/
  takes : σ → ι → π → Prop
  /-- the party knows that it took it -/
  remembers : σ → π → Prop
  /-- the first party hands to the second one what it takes -/
  linked : σ → π → π → Prop

namespace Token

/-- The step brings the token to a party that neither takes nor remembers it. -/
def Refuses (token : Token σ ι π) (s : σ) (i : ι) (p : π) : Prop :=
  token.brings s i p ∧ ¬token.takes s i p ∧ ¬token.remembers s p

/-- How a token spreads. -/
structure Spreads (token : Token σ ι π) (next : Machine σ ι ο) (init : σ) : Prop where
  fresh : ∀ p, ¬token.remembers init p
  handed : ∀ {s i t out p q}, next s i = some (t, out) → token.takes s i p →
    token.linked s p q → token.coming t q
  arrives : ∀ {s i t out q}, next s i = some (t, out) → token.coming s q →
    token.coming t q ∨ token.brings s i q
  reminded : ∀ {s i t out p}, next s i = some (t, out) → token.remembers t p →
    token.remembers s p ∨ token.takes s i p

variable {token : Token σ ι π} {next : Machine σ ι ο} {init : σ} {inputs : List ι} {s : σ}
  {outputs : List ο}

theorem Spreads.run_took_of_remembers (h : token.Spreads next init)
    (hrun : Run next init inputs s outputs) {p : π} (hp : token.remembers s p) :
    Happened next init inputs fun s i => token.takes s i p := by
  induction hrun with
  | start => exact absurd hp (h.fresh p)
  | step hprev hnext ih =>
      rcases h.reminded hnext hp with hbefore | htakes
      · exact (ih hbefore).of_append _
      · exact .last hprev htakes

/-- A party that the token is brought to and that never refuses it took it, then or
earlier. -/
theorem Spreads.run_took_of_brings (h : token.Spreads next init) {p : π}
    (hopen : AllSteps next init inputs fun s i => ¬token.Refuses s i p)
    (hbrings : Happened next init inputs fun s i => token.brings s i p) :
    Happened next init inputs fun s i => token.takes s i p := by
  obtain ⟨before, i, after, s, outputs, heq, hbefore, hi⟩ := hbrings
  by_cases htakes : token.takes s i p
  · exact ⟨before, i, after, s, outputs, heq, hbefore, htakes⟩
  · by_cases hknown : token.remembers s p
    · rw [heq]
      exact (h.run_took_of_remembers hbefore hknown).of_append (i :: after)
    · exact absurd ⟨hi, htakes, hknown⟩ (hopen before i after s outputs heq hbefore)

/-- What was handed over is on its way or was taken. -/
theorem Spreads.run_handed (h : token.Spreads next init)
    (hrun : Run next init inputs s outputs) {p q : π}
    (hopen : AllSteps next init inputs fun s i => ¬token.Refuses s i q)
    (htook : Happened next init inputs fun s i => token.takes s i p ∧ token.linked s p q) :
    token.coming s q ∨ Happened next init inputs fun s i => token.takes s i q := by
  induction hrun with
  | start => exact absurd htook not_happened_nil
  | step hprev hnext ih =>
      rename_i inputs r outputs i t out
      rcases (happened_snoc_iff hprev).mp htook with hbefore | ⟨htakes, hlinked⟩
      · rcases ih hopen.of_append hbefore with hcoming | hdone
        · rcases h.arrives hnext hcoming with hstill | hbrings
          · exact .inl hstill
          · -- it arrives, and it is not refused
            by_cases htakes : token.takes r i q
            · exact .inr (.last hprev htakes)
            · by_cases hknown : token.remembers r q
              · exact .inr ((h.run_took_of_remembers hprev hknown).of_append [i])
              · exact absurd ⟨hbrings, htakes, hknown⟩ (hopen.last hprev)
        · exact .inr (hdone.of_append [i])
      · exact .inl (h.handed hnext htakes hlinked)

/-- Once nothing is on its way, everyone took the token who can be reached over
links from someone who did, if no one who can be reached refuses it. -/
theorem Spreads.run_floods (h : token.Spreads next init)
    (hrun : Run next init inputs s outputs) {edge : π → π → Prop}
    (hlinked : ∀ p q, edge p q →
      AllSteps next init inputs fun s i => token.takes s i p → token.linked s p q) {p : π}
    (hopen : ∀ q, Relation.ReflTransGen edge p q →
      AllSteps next init inputs fun s i => ¬token.Refuses s i q)
    (hquiet : ∀ q, ¬token.coming s q) {q : π} (hpath : Relation.ReflTransGen edge p q)
    (htook : Happened next init inputs fun s i => token.takes s i p) :
    Happened next init inputs fun s i => token.takes s i q := by
  induction hpath with
  | refl => exact htook
  | @tail mid last hprev hedge ih =>
      have hover := ih.and (hlinked mid last hedge)
      have hlast := hopen last (hprev.tail hedge)
      exact (h.run_handed hrun hlast hover).resolve_left (hquiet last)

end Token

end B4n.Lib
