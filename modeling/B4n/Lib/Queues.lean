import Mathlib.Data.List.Basic

/-!
# Queues with other traffic

The messages of an exchange wait in a queue among others that have no part in
it.  `Carries other main queue` says that the messages of the exchange are
`main`, in this order, and that all other messages of the queue satisfy `other`.
-/

namespace B4n.Lib

variable {α : Type}

/-- Leaving out messages that satisfy `other`, the queue is `main`. -/
inductive Carries (other : α → Prop) : List α → List α → Prop where
  | nil : Carries other [] []
  | skip {x : α} {main queue : List α} (hx : other x)
      (h : Carries other main queue) : Carries other main (x :: queue)
  | take {x : α} {main queue : List α} (h : Carries other main queue) :
      Carries other (x :: main) (x :: queue)

namespace Carries

variable {other : α → Prop} {main more queue rest : List α}

theorem of_forall (h : ∀ x ∈ queue, other x) : Carries other [] queue := by
  induction queue with
  | nil => exact .nil
  | cons x queue ih =>
      apply Carries.skip (h x (List.mem_cons_self ..))
      apply ih
      intro y hy
      exact h y (List.mem_cons_of_mem x hy)

/-- Messages queue up at the end. -/
theorem append (h : Carries other main queue) (hrest : Carries other more rest) :
    Carries other (main ++ more) (queue ++ rest) := by
  induction h with
  | nil => exact hrest
  | skip hx _ ih => exact .skip hx ih
  | take _ ih => exact .take ih

/-- Other messages at the end are left out. -/
theorem append_others (h : Carries other main queue)
    (hrest : ∀ x ∈ rest, other x) : Carries other main (queue ++ rest) := by
  have happend := h.append (of_forall hrest)
  rwa [List.append_nil] at happend

end Carries

end B4n.Lib
