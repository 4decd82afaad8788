import Mathlib.Algebra.Order.Ring.Nat
import Mathlib.Data.List.Basic

/-!
# Periodic timers

A loop keeps the time at which its next tick is due.  A tick comes once this time is
over and moves it on by one period; a loop that finds itself too far behind sets it
anew, one period after the present.

Ticks may come late, and the ones that follow a late tick come early.  But no tick comes
before its own due time, and over any stretch of time the timer makes up for no more than
two ticks: `OnSchedule` is the invariant behind both.
-/

namespace B4n.Lib

/-- The next due time, after a tick that ends at `now`. -/
def rearm (period due now : Nat) : Nat :=
  let next := due + period
  if next + period < now then now + period else next

variable {period first due now time : Nat}

theorem rearm_ge : due + period ≤ rearm period due now := by
  show due + period ≤ if due + period + period < now then now + period else due + period
  by_cases hbehind : due + period + period < now
  · rw [if_pos hbehind]
    omega
  · rw [if_neg hbehind]

/-- The next tick is due within a period. -/
theorem rearm_le (hdue : due ≤ now) : rearm period due now ≤ now + period := by
  show (if due + period + period < now then now + period else due + period) ≤ now + period
  by_cases hbehind : due + period + period < now
  · rw [if_pos hbehind]
  · rw [if_neg hbehind]
    omega

/-- The due time lags behind by at most a period. -/
theorem le_rearm : now ≤ rearm period due now + period := by
  show now ≤ (if due + period + period < now then now + period else due + period) + period
  by_cases hbehind : due + period + period < now
  · rw [if_pos hbehind]
    omega
  · rw [if_neg hbehind]
    omega

/-- A wait that starts at `now` and is entered at `called` ends when the tick is due, or
later. -/
theorem wait_bounds {clock called : Nat} (hdue : due ≤ clock + period) (hclock : clock ≤ now)
    (hcalled : now ≤ called) :
    due ≤ called + (due - now) ∧ called + (due - now) ≤ called + period := by
  omega

/-- The times of the ticks so far, of a timer that was first due at `first` and is due
next at `due`. -/
structure OnSchedule (period first : Nat) (times : List Nat) (due : Nat) : Prop where
  due_ge : first + times.length * period ≤ due
  time_ge : ∀ i t, times[i]? = some t → first + i * period ≤ t
  due_after : ∀ i t, times[i]? = some t →
    t + (times.length - i) * period ≤ due + 2 * period
  apart : ∀ i j t u, i < j → times[i]? = some t → times[j]? = some u →
    t + (j - i) * period ≤ u + 2 * period

theorem OnSchedule.start : OnSchedule period first [] first where
  due_ge := by simp
  time_ge := by simp
  due_after := by simp
  apart := by simp

/-- A tick that does not come before it is due, and takes its time. -/
theorem OnSchedule.tick {times : List Nat} (h : OnSchedule period first times due)
    (hdue : due ≤ time) (hnow : time ≤ now) :
    OnSchedule period first (times ++ [time]) (rearm period due now) := by
  have hnext : due + period ≤ rearm period due now := rearm_ge
  have hbehind : now ≤ rearm period due now + period := le_rearm
  have hlength : (times ++ [time]).length = times.length + 1 := by simp
  have hold : ∀ {i t}, (times ++ [time])[i]? = some t →
      (i < times.length ∧ times[i]? = some t) ∨ (i = times.length ∧ t = time) := by
    intro i t hi
    by_cases hlt : i < times.length
    · rw [List.getElem?_append_left hlt] at hi
      exact Or.inl ⟨hlt, hi⟩
    · have hle := (List.getElem?_eq_some_iff.mp hi).1
      have heq : i = times.length := by omega
      subst heq
      rw [List.getElem?_concat_length, Option.some.injEq] at hi
      exact Or.inr ⟨rfl, hi.symm⟩
  refine ⟨?_, ?_, ?_, ?_⟩
  · have hge := h.due_ge
    rw [hlength, Nat.add_mul, Nat.one_mul]
    omega
  · intro i t hi
    rcases hold hi with ⟨-, hbefore⟩ | ⟨rfl, rfl⟩
    · exact h.time_ge i t hbefore
    · exact h.due_ge.trans hdue
  · intro i t hi
    rcases hold hi with ⟨hlt, hbefore⟩ | ⟨rfl, rfl⟩
    · have hafter := h.due_after i t hbefore
      rw [hlength, Nat.sub_add_comm (Nat.le_of_lt hlt), Nat.add_mul, Nat.one_mul]
      omega
    · rw [hlength, Nat.add_sub_cancel_left, Nat.one_mul]
      omega
  · intro i j t u hij hi hj
    rcases hold hj with ⟨hlt, hlater⟩ | ⟨rfl, rfl⟩
    · rcases hold hi with ⟨-, hbefore⟩ | ⟨rfl, -⟩
      · exact h.apart i j t u hij hbefore hlater
      · omega
    · rcases hold hi with ⟨-, hbefore⟩ | ⟨rfl, -⟩
      · have hafter := h.due_after i t hbefore
        omega
      · omega

end B4n.Lib
