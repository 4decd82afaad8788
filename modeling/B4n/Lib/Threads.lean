import B4n.Lib.Runs
import Mathlib.Data.List.Nodup
import Mathlib.Data.Set.Function
import Mathlib.Logic.Function.Basic
import Mathlib.Order.Interval.Set.Defs

/-!
# Threads that share a state

Any number of threads, each with a state of its own, take turns in any order; a step
of a thread may read and write the shared state too.  What a thread does depends on
the others only through the shared state, so a property of one thread and of what it
puts out that all its own steps keep holds in every run (`Run.thread_invariant`).

The threads of the second part draw tickets from a shared counter and use them later.
No two tickets are equal as long as the counter does not come round.

## Main results

* `Run.thread_invariant` — what the steps of a thread keep, a run keeps.
* `Run.thread_alone` — a thread among others and alone.
* `perm_flatMap_outputsOf` — what the threads put out together.
* `Tickets.draw`, `Tickets.use` — a ticket is drawn by one thread and used once.
-/

namespace B4n.Lib

variable {σ τ κ ι ο : Type} [DecidableEq κ]

/-- The threads and the state that they share. -/
structure Threads (σ τ κ : Type) where
  shared : σ
  thread : κ → τ

/-- One step of one thread. -/
abbrev Act (σ τ ι ο : Type) := σ → τ → ι → Option (σ × τ × List ο)

/-- The machine in which each input names the thread that takes it. -/
def interleave (act : Act σ τ ι ο) : Machine (Threads σ τ κ) (κ × ι) (κ × ο) :=
  fun s (k, i) =>
    match act s.shared (s.thread k) i with
    | none => none
    | some (shared, t, out) => some (⟨shared, Function.update s.thread k t⟩, out.map (k, ·))

/-- What one thread has put out. -/
def outputsOf (k : κ) (outputs : List (κ × ο)) : List ο :=
  (outputs.filter fun output => output.1 = k).map Prod.snd

@[simp] theorem outputsOf_nil (k : κ) : outputsOf k ([] : List (κ × ο)) = [] := rfl

theorem outputsOf_append (k : κ) (xs ys : List (κ × ο)) :
    outputsOf k (xs ++ ys) = outputsOf k xs ++ outputsOf k ys := by
  unfold outputsOf
  rw [List.filter_append, List.map_append]

theorem outputsOf_map_self (k : κ) (out : List ο) : outputsOf k (out.map (k, ·)) = out := by
  unfold outputsOf
  rw [List.filter_map, List.filter_eq_self.mpr (by simp), List.map_map]
  exact List.map_id out

theorem outputsOf_map_other {k other : κ} (h : other ≠ k) (out : List ο) :
    outputsOf k (out.map (other, ·)) = [] := by
  unfold outputsOf
  rw [List.filter_map, List.filter_eq_nil_iff.mpr (by simp [h])]
  rfl

/-- What the threads have put out, one thread after the other, is what has been put out,
in another order. -/
theorem perm_flatMap_outputsOf {keys : List κ} (hkeys : keys.Nodup) (outputs : List (κ × ο))
    (hall : ∀ output ∈ outputs, output.1 ∈ keys) :
    (keys.flatMap fun k => outputsOf k outputs).Perm (outputs.map Prod.snd) := by
  induction keys generalizing outputs with
  | nil =>
      have hnone : outputs = [] :=
        List.eq_nil_iff_forall_not_mem.mpr fun output hmem => by simpa using hall output hmem
      rw [hnone]
      exact .nil
  | cons k keys ih =>
      obtain ⟨hk, hrest⟩ := List.nodup_cons.mp hkeys
      let others := outputs.filter fun output => !decide (output.1 = k)
      have hothers : ∀ output ∈ others, output.1 ∈ keys := by
        intro output hmem
        obtain ⟨hmem, hne⟩ := List.mem_filter.mp hmem
        exact (List.mem_cons.mp (hall output hmem)).resolve_left (by simpa using hne)
      -- the outputs of the other threads are among those that are left
      have hsame : (keys.flatMap fun other => outputsOf other outputs) =
          keys.flatMap fun other => outputsOf other others := by
        refine List.flatMap_congr fun other hother => ?_
        have hne : other ≠ k := fun h => hk (h ▸ hother)
        unfold outputsOf
        rw [List.filter_filter]
        congr 1
        refine List.filter_congr fun output _ => ?_
        by_cases h : output.1 = other
        · simp [h, hne]
        · simp [h]
      rw [List.flatMap_cons, hsame]
      refine ((ih hrest others hothers).append_left _).trans ?_
      unfold outputsOf
      rw [← List.map_append]
      exact (List.filter_append_perm _ outputs).map _

variable {act : Act σ τ ι ο} {init s : Threads σ τ κ}

/-- A step of the machine is a step of the thread that it names. -/
theorem interleave_eq_some {k : κ} {i : ι} {t : Threads σ τ κ} {out : List (κ × ο)}
    (h : interleave act s (k, i) = some (t, out)) :
    ∃ shared own new, act s.shared (s.thread k) i = some (shared, own, new) ∧
      t = ⟨shared, Function.update s.thread k own⟩ ∧ out = new.map (k, ·) := by
  unfold interleave at h
  dsimp only at h
  split at h
  · cases h
  · rename_i shared own new hact
    cases h
    exact ⟨shared, own, new, hact, rfl, rfl⟩

/-- What every thread has at first and its own steps keep, whatever the others have done
to the shared state, every thread has. -/
theorem Run.thread_invariant {P : κ → τ → List ο → Prop} (hinit : ∀ k, P k (init.thread k) [])
    (hstep : ∀ k shared own out i shared' own' new, P k own out →
      act shared own i = some (shared', own', new) → P k own' (out ++ new))
    {inputs : List (κ × ι)} {outputs : List (κ × ο)}
    (hrun : Run (interleave act) init inputs s outputs) (k : κ) :
    P k (s.thread k) (outputsOf k outputs) := by
  induction hrun with
  | start => exact hinit k
  | step hprev hnext ih =>
      rename_i inputs before outputs i after out
      obtain ⟨other, i⟩ := i
      obtain ⟨shared, own, new, hact, rfl, rfl⟩ := interleave_eq_some hnext
      rw [outputsOf_append]
      dsimp only
      by_cases hk : other = k
      · subst hk
        rw [Function.update_self, outputsOf_map_self]
        exact hstep _ _ _ _ _ _ _ _ ih hact
      · rw [Function.update_of_ne (Ne.symm hk), outputsOf_map_other hk, List.append_nil]
        exact ih

/-- A thread whose steps do not depend on the shared state runs as it would alone. -/
theorem Run.thread_alone {own : Machine τ ι ο}
    (hact : ∀ shared t i shared' t' out, act shared t i = some (shared', t', out) →
      own t i = some (t', out))
    {inputs : List (κ × ι)} {outputs : List (κ × ο)}
    (hrun : Run (interleave act) init inputs s outputs) (k : κ) :
    ∃ turns, Run own (init.thread k) turns (s.thread k) (outputsOf k outputs) := by
  apply hrun.thread_invariant (P := fun k t out => ∃ turns, Run own (init.thread k) turns t out)
  · exact fun k => ⟨[], .start⟩
  · rintro k shared t out i shared' t' new ⟨turns, hturns⟩ hstep
    exact ⟨turns ++ [i], hturns.step (hact _ _ _ _ _ _ hstep)⟩

/-! ## Tickets -/

variable {α : Type} {nth : Nat → α} {count : Nat} {used : List α} {held : κ → Option α}

/-- The tickets that have been drawn are the first ones; each of them has been used once
or is held by one thread. -/
structure Tickets (nth : Nat → α) (count : Nat) (used : List α) (held : κ → Option α) :
    Prop where
  once : used.Nodup
  unused : ∀ k a, held k = some a → a ∉ used
  apart : ∀ k other a, held k = some a → held other = some a → k = other
  drawn : ∀ a, a ∈ used ∨ (∃ k, held k = some a) → ∃ n < count, nth n = a

omit [DecidableEq κ] in
theorem Tickets.start (nth : Nat → α) : Tickets nth 0 [] (fun _ : κ => none) where
  once := .nil
  unused := by simp
  apart := by simp
  drawn := by simp

/-- The next ticket, for a thread that holds none. -/
theorem Tickets.draw {bound : Nat} (hnth : Set.InjOn nth (Set.Iio bound)) (hcount : count < bound)
    (h : Tickets nth count used held) (k : κ) :
    Tickets nth (count + 1) used (Function.update held k (some (nth count))) := by
  -- the new ticket is none of those that were drawn before
  have hfresh : ∀ a, a ∈ used ∨ (∃ other, held other = some a) → a ≠ nth count := by
    intro a ha hsame
    obtain ⟨n, hn, rfl⟩ := h.drawn a ha
    have heq := hnth (Set.mem_Iio.mpr (by omega)) (Set.mem_Iio.mpr hcount) hsame
    omega
  have hheld : ∀ other a, Function.update held k (some (nth count)) other = some a →
      (other = k ∧ a = nth count) ∨ (other ≠ k ∧ held other = some a) := by
    intro other a ha
    by_cases hother : other = k
    · rw [hother, Function.update_self] at ha
      exact .inl ⟨hother, (Option.some.inj ha).symm⟩
    · rw [Function.update_of_ne hother] at ha
      exact .inr ⟨hother, ha⟩
  constructor
  · exact h.once
  · intro other a ha hused
    rcases hheld other a ha with ⟨-, rfl⟩ | ⟨-, hold⟩
    · exact hfresh _ (.inl hused) rfl
    · exact h.unused other a hold hused
  · intro first second a hfirst hsecond
    rcases hheld first a hfirst with ⟨hk, rfl⟩ | ⟨-, hold⟩
    · rcases hheld second _ hsecond with ⟨hk', -⟩ | ⟨-, hold'⟩
      · rw [hk, hk']
      · exact absurd rfl (hfresh _ (.inr ⟨second, hold'⟩))
    · rcases hheld second a hsecond with ⟨-, rfl⟩ | ⟨-, hold'⟩
      · exact absurd rfl (hfresh _ (.inr ⟨first, hold⟩))
      · exact h.apart first second a hold hold'
  · rintro a (hused | ⟨other, ha⟩)
    · obtain ⟨n, hn, heq⟩ := h.drawn a (.inl hused)
      exact ⟨n, by omega, heq⟩
    · rcases hheld other a ha with ⟨-, rfl⟩ | ⟨-, hold⟩
      · exact ⟨count, by omega, rfl⟩
      · obtain ⟨n, hn, heq⟩ := h.drawn a (.inr ⟨other, hold⟩)
        exact ⟨n, by omega, heq⟩

/-- The ticket that a thread holds is used. -/
theorem Tickets.use (h : Tickets nth count used held) {k : κ} {a : α} (hk : held k = some a) :
    Tickets nth count (used ++ [a]) (Function.update held k none) := by
  have hheld : ∀ other b, Function.update held k none other = some b →
      other ≠ k ∧ held other = some b := by
    intro other b hb
    by_cases hother : other = k
    · rw [hother, Function.update_self] at hb
      cases hb
    · rw [Function.update_of_ne hother] at hb
      exact ⟨hother, hb⟩
  constructor
  · rw [List.nodup_append]
    refine ⟨h.once, List.nodup_singleton a, ?_⟩
    intro b hb c hc heq
    rw [List.mem_singleton.mp hc] at heq
    exact h.unused k a hk (heq ▸ hb)
  · intro other b hb hmem
    obtain ⟨hother, hold⟩ := hheld other b hb
    rcases List.mem_append.mp hmem with hused | hlast
    · exact h.unused other b hold hused
    · rw [List.mem_singleton.mp hlast] at hold
      exact hother (h.apart other k a hold hk)
  · intro first second b hfirst hsecond
    exact h.apart first second b (hheld first b hfirst).2 (hheld second b hsecond).2
  · rintro b (hmem | ⟨other, hb⟩)
    · rcases List.mem_append.mp hmem with hused | hlast
      · exact h.drawn b (.inl hused)
      · rw [List.mem_singleton.mp hlast]
        exact h.drawn a (.inr ⟨k, hk⟩)
    · exact h.drawn b (.inr ⟨other, (hheld other b hb).2⟩)

end B4n.Lib
