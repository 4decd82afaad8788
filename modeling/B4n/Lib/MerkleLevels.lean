import Mathlib.Data.List.Basic

/-!
# Level-by-level pair folding

A Merkle root is computed by replacing a level of nodes by the level of its
adjacent pairs until one node is left; a level of odd length first repeats its
last node.  This module studies that fold for an arbitrary combining function.

The pairs a fold combines are enumerated by `foldPairs`.  If the combining
function is injective on them, then two levels of the *same length* with the
same result are equal (`foldLevels_inj`).  The length matters: a level and its
copy with the last node repeated have the same fold.
-/

namespace B4n.Lib

variable {α : Type}

/-- Repeat the last node of a level of odd length. -/
def padOdd (level : List α) : List α :=
  match level.getLast? with
  | none => level
  | some lastNode => if level.length % 2 = 1 then level ++ [lastNode] else level

/-- The adjacent pairs of a level; a trailing single node is dropped. -/
def chunkPairs : List α → List (α × α)
  | left :: right :: rest => (left, right) :: chunkPairs rest
  | _ => []

/-- One round of the fold: pad, then combine adjacent pairs. -/
def levelUp (combine : α → α → α) (level : List α) : List α :=
  (chunkPairs (padOdd level)).map fun pair => combine pair.1 pair.2

/-- The loop: while more than one node is left, go one level up. -/
def foldLevels (combine : α → α → α) : Nat → List α → List α
  | 0, level => level
  | fuel + 1, level =>
      if 1 < level.length then foldLevels combine fuel (levelUp combine level)
      else level

/-- Every pair the loop combines. -/
def foldPairs (combine : α → α → α) : Nat → List α → List (α × α)
  | 0, _ => []
  | fuel + 1, level =>
      if 1 < level.length then
        chunkPairs (padOdd level) ++ foldPairs combine fuel (levelUp combine level)
      else []

/-! ## Lengths and termination -/

theorem length_padOdd (level : List α) :
    (padOdd level).length = level.length + level.length % 2 := by
  unfold padOdd
  cases hLast : level.getLast? with
  | none => simp [List.getLast?_eq_none_iff.mp hLast]
  | some lastNode =>
      by_cases hOdd : level.length % 2 = 1
      · simp [hOdd]
      · simp only [if_neg hOdd]
        omega

theorem length_chunkPairs :
    ∀ level : List α, (chunkPairs level).length = level.length / 2
  | [] => by simp [chunkPairs]
  | [_] => by simp [chunkPairs]
  | _ :: _ :: rest => by
      simp only [chunkPairs, List.length_cons, length_chunkPairs rest]
      omega

@[simp] theorem length_levelUp (combine : α → α → α) (level : List α) :
    (levelUp combine level).length = (level.length + 1) / 2 := by
  simp only [levelUp, List.length_map, length_chunkPairs, length_padOdd]
  omega

/-- A nonempty level folds to exactly one node. -/
theorem length_foldLevels (combine : α → α → α) (fuel : Nat)
    (level : List α) (hne : 0 < level.length) (hFuel : level.length ≤ fuel) :
    (foldLevels combine fuel level).length = 1 := by
  induction fuel generalizing level with
  | zero => omega
  | succ fuel ih =>
      unfold foldLevels
      by_cases hMany : 1 < level.length
      · rw [if_pos hMany]
        exact ih _ (by rw [length_levelUp]; omega)
          (by rw [length_levelUp]; omega)
      · rw [if_neg hMany]
        omega

/-- The node a nonempty level folds to. -/
def foldRoot (combine : α → α → α) (level : List α) (hne : level ≠ []) : α :=
  (foldLevels combine level.length level).head (by
    apply List.ne_nil_of_length_pos
    rw [length_foldLevels combine _ _ (List.length_pos_iff.mpr hne) (Nat.le_refl _)]
    exact Nat.one_pos)

/-! ## Injectivity at equal length -/

/-- Pairs of equal length determine the level. -/
theorem chunkPairs_inj : ∀ {xs ys : List α}, xs.length % 2 = 0 →
    ys.length % 2 = 0 → chunkPairs xs = chunkPairs ys → xs = ys
  | [], [], _, _, _ => rfl
  | [_], _, hx, _, _ => by simp at hx
  | _, [_], _, hy, _ => by simp at hy
  | [], _ :: _ :: _, _, _, h => by simp [chunkPairs] at h
  | _ :: _ :: _, [], _, _, h => by simp [chunkPairs] at h
  | a :: b :: xs, c :: d :: ys, hx, hy, h => by
      simp only [chunkPairs, List.cons.injEq, Prod.mk.injEq] at h
      obtain ⟨⟨hac, hbd⟩, hRest⟩ := h
      simp only [List.length_cons] at hx hy
      rw [hac, hbd, chunkPairs_inj (by omega) (by omega) hRest]

/-- Padding keeps the level as a prefix, so it loses nothing at equal
lengths. -/
theorem padOdd_inj {xs ys : List α} (hlen : xs.length = ys.length)
    (h : padOdd xs = padOdd ys) : xs = ys := by
  have hPrefix : ∀ level : List α, ∃ extra, padOdd level = level ++ extra := by
    intro level
    unfold padOdd
    cases level.getLast? with
    | none => exact ⟨[], by simp⟩
    | some lastNode =>
        by_cases hOdd : level.length % 2 = 1
        · exact ⟨[lastNode], by simp [hOdd]⟩
        · exact ⟨[], by simp [hOdd]⟩
  obtain ⟨ex, hx⟩ := hPrefix xs
  obtain ⟨ey, hy⟩ := hPrefix ys
  rw [hx, hy] at h
  exact (List.append_inj h hlen).1

/-- Combining is injective on a set of pairs. -/
def CombineInjOn (combine : α → α → α) (pairs : Set (α × α)) : Prop :=
  ∀ p ∈ pairs, ∀ q ∈ pairs, combine p.1 p.2 = combine q.1 q.2 → p = q

private theorem map_combine_inj {combine : α → α → α} {pairs : Set (α × α)}
    (hInj : CombineInjOn combine pairs) :
    ∀ {ps qs : List (α × α)}, (∀ p ∈ ps, p ∈ pairs) → (∀ q ∈ qs, q ∈ pairs) →
      ps.map (fun p => combine p.1 p.2) = qs.map (fun q => combine q.1 q.2) →
      ps = qs
  | [], [], _, _, _ => rfl
  | [], _ :: _, _, _, h => by simp at h
  | _ :: _, [], _, _, h => by simp at h
  | p :: ps, q :: qs, hp, hq, h => by
      simp only [List.map_cons, List.cons.injEq] at h
      have hpq := hInj p (hp p (by simp)) q (hq q (by simp)) h.1
      have hRest := map_combine_inj hInj (fun r hr => hp r (by simp [hr]))
        (fun r hr => hq r (by simp [hr])) h.2
      rw [hpq, hRest]

theorem levelUp_inj {combine : α → α → α} {pairs : Set (α × α)}
    (hInj : CombineInjOn combine pairs) {xs ys : List α}
    (hlen : xs.length = ys.length)
    (hx : ∀ p ∈ chunkPairs (padOdd xs), p ∈ pairs)
    (hy : ∀ p ∈ chunkPairs (padOdd ys), p ∈ pairs)
    (h : levelUp combine xs = levelUp combine ys) : xs = ys := by
  refine padOdd_inj hlen (chunkPairs_inj ?_ ?_ (map_combine_inj hInj hx hy h))
  · rw [length_padOdd]
    omega
  · rw [length_padOdd]
    omega

/-- Two levels of equal length with equal folds are equal, if combining is
injective on the pairs the two folds combine. -/
theorem foldLevels_inj {combine : α → α → α} {pairs : Set (α × α)}
    (hInj : CombineInjOn combine pairs) (fuel : Nat) {xs ys : List α}
    (hlen : xs.length = ys.length)
    (hx : ∀ p ∈ foldPairs combine fuel xs, p ∈ pairs)
    (hy : ∀ p ∈ foldPairs combine fuel ys, p ∈ pairs)
    (h : foldLevels combine fuel xs = foldLevels combine fuel ys) :
    xs = ys := by
  induction fuel generalizing xs ys with
  | zero => exact h
  | succ fuel ih =>
      unfold foldLevels at h
      unfold foldPairs at hx hy
      by_cases hMany : 1 < xs.length
      · have hMany' : 1 < ys.length := by omega
        rw [if_pos hMany, if_pos hMany'] at h
        rw [if_pos hMany] at hx
        rw [if_pos hMany'] at hy
        have hUp : levelUp combine xs = levelUp combine ys :=
          ih (by simp [hlen])
            (fun p hp => hx p (List.mem_append_right _ hp))
            (fun p hp => hy p (List.mem_append_right _ hp)) h
        exact levelUp_inj hInj hlen
          (fun p hp => hx p (List.mem_append_left _ hp))
          (fun p hp => hy p (List.mem_append_left _ hp)) hUp
      · rw [if_neg hMany, if_neg (by omega)] at h
        exact h

/-- The root determines the level among the levels of the same length. -/
theorem foldRoot_inj {combine : α → α → α} {pairs : Set (α × α)}
    (hInj : CombineInjOn combine pairs) {xs ys : List α} (hxne : xs ≠ [])
    (hyne : ys ≠ []) (hlen : xs.length = ys.length)
    (hx : ∀ p ∈ foldPairs combine xs.length xs, p ∈ pairs)
    (hy : ∀ p ∈ foldPairs combine ys.length ys, p ∈ pairs)
    (h : foldRoot combine xs hxne = foldRoot combine ys hyne) : xs = ys := by
  have hxOne := length_foldLevels combine xs.length xs
    (List.length_pos_iff.mpr hxne) (Nat.le_refl _)
  have hyOne := length_foldLevels combine ys.length ys
    (List.length_pos_iff.mpr hyne) (Nat.le_refl _)
  obtain ⟨x, hxRoot⟩ := List.length_eq_one_iff.mp hxOne
  obtain ⟨y, hyRoot⟩ := List.length_eq_one_iff.mp hyOne
  have hxy : x = y := by simpa only [foldRoot, hxRoot, hyRoot, List.head_cons] using h
  rw [← hlen] at hyRoot hy
  exact foldLevels_inj hInj xs.length hlen hx hy (by rw [hxRoot, hyRoot, hxy])

end B4n.Lib
