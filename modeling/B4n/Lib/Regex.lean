import Mathlib.Data.List.Infix

/-!
# Backtracking patterns

Patterns over an arbitrary alphabet and the matcher that a backtracking regular
expression engine runs: alternatives from left to right, repetition greedy.
`run` hands every place it reaches to a continuation and comes back for the
next place when the continuation fails, so its first success is the match such
an engine reports.

Assertions about the surroundings (anchors, word boundaries) are arbitrary
predicates of the text on both sides.  A repetition ends when its body consumes
nothing.

## Main results

* `run_star` — repetition unfolds by one round.
* `run_sound` — whatever the matcher finds, the pattern describes.
* `Reaches` — the places where the matcher ends when what follows succeeds.
-/

namespace B4n.Lib

/-- A pattern over the alphabet `α` with groups named by `ν`. -/
inductive Regex (α ν : Type) where
  /-- one character of a class -/
  | cls (p : α → Bool)
  /-- nothing, where the text before (last character first) and after satisfy
  `p` -/
  | look (p : List α → List α → Bool)
  | seq (r s : Regex α ν)
  | alt (r s : Regex α ν)
  | star (r : Regex α ν)
  | group (name : ν) (r : Regex α ν)

/-- A place in a text: what was read (last character first), what is left, and
what the groups caught, the latest first. -/
structure Cursor (α ν : Type) where
  before : List α
  rest : List α
  groups : List (ν × List α)

namespace Cursor

variable {α ν : Type}

/-- What was read between two places. -/
def between (c c' : Cursor α ν) : List α :=
  c.rest.take (c.rest.length - c'.rest.length)

/-- Record what a group caught. -/
def record (c : Cursor α ν) (name : ν) (caught : List α) : Cursor α ν :=
  { c with groups := (name, caught) :: c.groups }

/-- What the group `name` caught last. -/
def group? [BEq ν] (c : Cursor α ν) (name : ν) : Option (List α) :=
  c.groups.lookup name

end Cursor

namespace Regex

variable {α ν β : Type}

/-- `r+` -/
def plus (r : Regex α ν) : Regex α ν := .seq r (.star r)

/-- A fixed word. -/
def lit [BEq α] : List α → Regex α ν
  | [] => .look fun _ _ => true
  | a :: w => .seq (.cls (· == a)) (lit w)

/-! ## The matcher -/

/-- Repeat `body` for at most `fuel` rounds, each of which consumes something. -/
def again (body : Cursor α ν → (Cursor α ν → Option β) → Option β) :
    Nat → Cursor α ν → (Cursor α ν → Option β) → Option β
  | 0, c, k => k c
  | fuel + 1, c, k =>
      (body c fun c' =>
        if c'.rest.length < c.rest.length then again body fuel c' k else none).or (k c)

/-- Match `r` from `c` and go on with `k`. -/
def run : Regex α ν → Cursor α ν → (Cursor α ν → Option β) → Option β
  | .cls p, c, k =>
      match c.rest with
      | [] => none
      | a :: rest => if p a then k ⟨a :: c.before, rest, c.groups⟩ else none
  | .look p, c, k => if p c.before c.rest then k c else none
  | .seq r s, c, k => run r c fun c' => run s c' k
  | .alt r s, c, k => (run r c k).or (run s c k)
  | .star r, c, k => again (run r) (c.rest.length + 1) c k
  | .group name r, c, k => run r c fun c' => k (c'.record name (c.between c'))

/-- The match at a place of a text. -/
def matchAt (r : Regex α ν) (before rest : List α) : Option (Cursor α ν) :=
  run r ⟨before, rest, []⟩ some

/-- The first match at or after a place of a text. -/
def search (r : Regex α ν) : List α → List α → Option (Cursor α ν)
  | before, [] => matchAt r before []
  | before, a :: rest => (matchAt r before (a :: rest)).or (search r (a :: before) rest)

/-- Replace the matches of `r`, which are not empty, from left to right. -/
def subLoop (r : Regex α ν) (repl : Cursor α ν → List α) :
    Nat → List α → List α → List α
  | 0, _, rest => rest
  | _ + 1, _, [] => []
  | fuel + 1, before, a :: rest =>
      match matchAt r before (a :: rest) with
      | some c =>
          if c.rest.length ≤ rest.length then repl c ++ subLoop r repl fuel c.before c.rest
          else a :: subLoop r repl fuel (a :: before) rest
      | none => a :: subLoop r repl fuel (a :: before) rest

/-- The text `rest` after `before` with every match replaced. -/
def sub (r : Regex α ν) (repl : Cursor α ν → List α) (before rest : List α) : List α :=
  subLoop r repl rest.length before rest

/-- The matches of `r`, which are not empty, from left to right. -/
def findAllLoop (r : Regex α ν) : Nat → List α → List α → List (Cursor α ν)
  | 0, _, _ => []
  | _ + 1, _, [] => []
  | fuel + 1, before, a :: rest =>
      match matchAt r before (a :: rest) with
      | some c =>
          if c.rest.length ≤ rest.length then c :: findAllLoop r fuel c.before c.rest
          else findAllLoop r fuel (a :: before) rest
      | none => findAllLoop r fuel (a :: before) rest

/-- All matches in the text `rest` after `before`. -/
def findAll (r : Regex α ν) (before rest : List α) : List (Cursor α ν) :=
  findAllLoop r rest.length before rest

/-! ## Repetition -/

/-- Any fuel above the length of the rest gives the same result. -/
theorem again_congr (body : Cursor α ν → (Cursor α ν → Option β) → Option β)
    (k : Cursor α ν → Option β) {n m : Nat} {c : Cursor α ν}
    (hn : c.rest.length < n) (hm : c.rest.length < m) :
    again body n c k = again body m c k := by
  induction n generalizing m c with
  | zero => omega
  | succ n ih =>
      cases m with
      | zero => omega
      | succ m =>
          show (body c _).or (k c) = (body c _).or (k c)
          have hk : (fun c' : Cursor α ν =>
                if c'.rest.length < c.rest.length then again body n c' k else none) =
              fun c' => if c'.rest.length < c.rest.length then again body m c' k else none := by
            funext c'
            by_cases h : c'.rest.length < c.rest.length
            · simp only [h, if_true]
              exact ih (by omega) (by omega)
            · simp only [h, if_false]
          rw [hk]

/-- Repetition tries one more round and then what follows. -/
theorem run_star (r : Regex α ν) (c : Cursor α ν) (k : Cursor α ν → Option β) :
    run (.star r) c k =
      (run r c fun c' =>
        if c'.rest.length < c.rest.length then run (.star r) c' k else none).or (k c) := by
  show (run r c _).or (k c) = _
  have hk : (fun c' : Cursor α ν =>
        if c'.rest.length < c.rest.length then again (run r) c.rest.length c' k else none) =
      fun c' => if c'.rest.length < c.rest.length then run (.star r) c' k else none := by
    funext c'
    by_cases h : c'.rest.length < c.rest.length
    · simp only [h, if_true]
      exact again_congr (run r) k h (Nat.lt_succ_self _)
    · simp only [h, if_false]
  rw [hk]

/-! ## Soundness -/

/-- `Matches r c c'`: the pattern describes the text between the two places. -/
inductive Matches : Regex α ν → Cursor α ν → Cursor α ν → Prop
  | cls {p : α → Bool} {before rest : List α} {groups : List (ν × List α)} {a : α} :
      p a = true → Matches (.cls p) ⟨before, a :: rest, groups⟩ ⟨a :: before, rest, groups⟩
  | look {p : List α → List α → Bool} {c : Cursor α ν} :
      p c.before c.rest = true → Matches (.look p) c c
  | seq {r s : Regex α ν} {c c' c'' : Cursor α ν} :
      Matches r c c' → Matches s c' c'' → Matches (.seq r s) c c''
  | altLeft {r s : Regex α ν} {c c' : Cursor α ν} :
      Matches r c c' → Matches (.alt r s) c c'
  | altRight {r s : Regex α ν} {c c' : Cursor α ν} :
      Matches s c c' → Matches (.alt r s) c c'
  | stop {r : Regex α ν} {c : Cursor α ν} : Matches (.star r) c c
  | more {r : Regex α ν} {c c' c'' : Cursor α ν} :
      Matches r c c' → Matches (.star r) c' c'' → Matches (.star r) c c''
  | group {name : ν} {r : Regex α ν} {c c' : Cursor α ν} :
      Matches r c c' → Matches (.group name r) c (c'.record name (c.between c'))

/-- The matcher goes on only from places that the pattern leads to. -/
theorem run_sound {r : Regex α ν} {c : Cursor α ν} {k : Cursor α ν → Option β} {b : β}
    (h : run r c k = some b) : ∃ c', Matches r c c' ∧ k c' = some b := by
  induction r generalizing c k with
  | cls p =>
      obtain ⟨before, rest, groups⟩ := c
      cases rest with
      | nil => simp [run] at h
      | cons a rest =>
          simp only [run] at h
          split at h
          · next hp => exact ⟨_, .cls hp, h⟩
          · simp at h
  | look p =>
      simp only [run] at h
      split at h
      · next hp => exact ⟨c, .look hp, h⟩
      · simp at h
  | seq r s ihr ihs =>
      obtain ⟨c', hr, hk⟩ := ihr h
      obtain ⟨c'', hs, hb⟩ := ihs hk
      exact ⟨c'', .seq hr hs, hb⟩
  | alt r s ihr ihs =>
      rcases Option.or_eq_some_iff.mp h with hr | ⟨-, hs⟩
      · obtain ⟨c', hr, hb⟩ := ihr hr
        exact ⟨c', .altLeft hr, hb⟩
      · obtain ⟨c', hs, hb⟩ := ihs hs
        exact ⟨c', .altRight hs, hb⟩
  | star r ih =>
      -- every round consumes something: induction on what is left
      induction hn : c.rest.length using Nat.strong_induction_on generalizing c with
      | _ n ihn =>
          rw [run_star] at h
          rcases Option.or_eq_some_iff.mp h with hr | ⟨-, hk⟩
          · obtain ⟨c', hc', hb⟩ := ih hr
            split at hb
            · next hlt =>
              obtain ⟨c'', hc'', hb⟩ := ihn c'.rest.length (hn ▸ hlt) hb rfl
              exact ⟨c'', .more hc' hc'', hb⟩
            · simp at hb
          · exact ⟨c, .stop, hk⟩
  | group name r ih =>
      obtain ⟨c', hr, hb⟩ := ih h
      exact ⟨_, .group hr, hb⟩

/-- A pattern that describes nothing here does not match here. -/
theorem run_eq_none {r : Regex α ν} {c : Cursor α ν} (k : Cursor α ν → Option β)
    (h : ∀ c', ¬ Matches r c c') : run r c k = none := by
  by_contra hsome
  obtain ⟨b, hb⟩ := Option.ne_none_iff_exists'.mp hsome
  obtain ⟨c', hc', -⟩ := run_sound hb
  exact h c' hc'

/-- A word describes itself. -/
theorem Matches.lit [BEq α] [LawfulBEq α] {w : List α} {c c' : Cursor α ν}
    (h : Matches (lit w) c c') : c.rest = w ++ c'.rest := by
  induction w generalizing c with
  | nil =>
      cases h with
      | look _ => rfl
  | cons a w ih =>
      cases h with
      | seq ha hw =>
          cases ha with
          | cls ha =>
              have hrest := ih hw
              simp only at hrest
              simp only [eq_of_beq ha, hrest, List.cons_append]

theorem Matches.lit_groups [BEq α] {w : List α} {c c' : Cursor α ν}
    (h : Matches (Regex.lit w) c c') : c'.groups = c.groups := by
  induction w generalizing c with
  | nil =>
      cases h with
      | look _ => rfl
  | cons a w ih =>
      cases h with
      | seq ha hw =>
          cases ha with
          | cls _ =>
              have hmore := ih hw
              exact hmore

/-- Repeating a class describes a word over the class. -/
theorem Matches.star_cls {p : α → Bool} {c c' : Cursor α ν}
    (h : Matches (.star (.cls p)) c c') :
    ∃ w, (∀ a ∈ w, p a = true) ∧ c.rest = w ++ c'.rest := by
  generalize hr : Regex.star (.cls p) = r at h
  induction h with
  | stop => exact ⟨[], by simp, rfl⟩
  | more hbody _ _ ih =>
      cases hr
      obtain ⟨w, hw, hrest⟩ := ih rfl
      cases hbody with
      | @cls _ _ _ _ a ha => exact ⟨a :: w, by simpa using ⟨ha, hw⟩, by simpa using hrest⟩
  | _ => cases hr

/-- The same with at least one character. -/
theorem Matches.plus_cls {p : α → Bool} {c c' : Cursor α ν} (h : Matches (plus (.cls p)) c c') :
    ∃ w, w ≠ [] ∧ (∀ a ∈ w, p a = true) ∧ c.rest = w ++ c'.rest := by
  cases h with
  | seq hfirst hmore =>
      obtain ⟨w, hw, hrest⟩ := hmore.star_cls
      cases hfirst with
      | @cls _ _ _ _ a ha =>
          exact ⟨a :: w, List.cons_ne_nil a w, by simpa using ⟨ha, hw⟩, by simpa using hrest⟩

/-! ## Where the matcher ends -/

/-- Running `r` from `c` gives what the continuation gives at `c'`, if that is
a success. -/
def Reaches (r : Regex α ν) (c c' : Cursor α ν) : Prop :=
  ∀ ⦃β : Type⦄ (k : Cursor α ν → Option β) (b : β), k c' = some b → run r c k = some b

theorem Reaches.matchAt_eq {r : Regex α ν} {before rest : List α} {c : Cursor α ν}
    (h : Reaches r ⟨before, rest, []⟩ c) : matchAt r before rest = some c :=
  h some c rfl

theorem Reaches.cls {p : α → Bool} {a : α} (ha : p a = true) (before rest : List α)
    (groups : List (ν × List α)) :
    Reaches (.cls p) ⟨before, a :: rest, groups⟩ ⟨a :: before, rest, groups⟩ := by
  intro β k b hk
  simpa [run, ha] using hk

theorem Reaches.look {p : List α → List α → Bool} {c : Cursor α ν}
    (hp : p c.before c.rest = true) : Reaches (.look p) c c := by
  intro β k b hk
  simpa [run, hp] using hk

theorem Reaches.seq {r s : Regex α ν} {c c' c'' : Cursor α ν} (hr : Reaches r c c')
    (hs : Reaches s c' c'') : Reaches (.seq r s) c c'' := by
  intro β k b hk
  exact hr _ b (hs k b hk)

theorem Reaches.altLeft {r s : Regex α ν} {c c' : Cursor α ν} (hr : Reaches r c c') :
    Reaches (.alt r s) c c' := by
  intro β k b hk
  simp [run, hr k b hk]

theorem Reaches.altRight {r s : Regex α ν} {c c' : Cursor α ν}
    (hr : ∀ c', ¬ Matches r c c') (hs : Reaches s c c') : Reaches (.alt r s) c c' := by
  intro β k b hk
  simp [run, run_eq_none k hr, hs k b hk]

theorem Reaches.stop {r : Regex α ν} {c : Cursor α ν} (hr : ∀ c', ¬ Matches r c c') :
    Reaches (.star r) c c := by
  intro β k b hk
  rw [run_star, run_eq_none _ hr, hk, Option.none_or]

theorem Reaches.more {r : Regex α ν} {c c' c'' : Cursor α ν} (hr : Reaches r c c')
    (hlt : c'.rest.length < c.rest.length) (hs : Reaches (.star r) c' c'') :
    Reaches (.star r) c c'' := by
  intro β k b hk
  have hround : run r c (fun c' =>
      if c'.rest.length < c.rest.length then run (.star r) c' k else none) = some b := by
    refine hr _ b ?_
    simp only [hlt, if_true]
    exact hs k b hk
  rw [run_star, hround, Option.some_or]

theorem Reaches.group {r : Regex α ν} (name : ν) {before before' w rest : List α}
    {groups groups' : List (ν × List α)}
    (hr : Reaches r ⟨before, w ++ rest, groups⟩ ⟨before', rest, groups'⟩) :
    Reaches (.group name r) ⟨before, w ++ rest, groups⟩
      ⟨before', rest, (name, w) :: groups'⟩ := by
  intro β k b hk
  refine hr _ b ?_
  simpa [Cursor.record, Cursor.between] using hk

theorem Reaches.lit [BEq α] [LawfulBEq α] (w before rest : List α)
    (groups : List (ν × List α)) :
    Reaches (lit w) ⟨before, w ++ rest, groups⟩ ⟨w.reverse ++ before, rest, groups⟩ := by
  induction w generalizing before with
  | nil => exact Reaches.look rfl
  | cons a w ih =>
      have hw := ih (a :: before)
      simp only [List.reverse_cons, List.append_assoc, List.singleton_append]
      exact Reaches.seq (.cls (beq_self_eq_true a) _ _ _) hw

/-- A class is repeated over the longest word there is. -/
theorem Reaches.star_cls {p : α → Bool} {w rest : List α} (hw : ∀ a ∈ w, p a = true)
    (hrest : ∀ a, rest.head? = some a → p a = false) (before : List α)
    (groups : List (ν × List α)) :
    Reaches (.star (.cls p)) ⟨before, w ++ rest, groups⟩
      ⟨w.reverse ++ before, rest, groups⟩ := by
  induction w generalizing before with
  | nil =>
      refine Reaches.stop ?_
      intro c' h
      cases rest with
      | nil => cases h
      | cons a rest =>
          cases h with
          | cls ha => simp [hrest a rfl] at ha
  | cons a w ih =>
      have htail := ih (fun b hb => hw b (List.mem_cons_of_mem a hb)) (a :: before)
      simp only [List.reverse_cons, List.append_assoc, List.singleton_append]
      exact Reaches.more (.cls (hw a List.mem_cons_self) _ _ _) (by simp) htail

theorem Reaches.plus_cls {p : α → Bool} {w rest : List α} (hne : w ≠ [])
    (hw : ∀ a ∈ w, p a = true) (hrest : ∀ a, rest.head? = some a → p a = false)
    (before : List α) (groups : List (ν × List α)) :
    Reaches (plus (.cls p)) ⟨before, w ++ rest, groups⟩
      ⟨w.reverse ++ before, rest, groups⟩ := by
  cases w with
  | nil => exact absurd rfl hne
  | cons a w =>
      have htail := Reaches.star_cls (fun b hb => hw b (List.mem_cons_of_mem a hb)) hrest
        (a :: before) groups
      simp only [List.reverse_cons, List.append_assoc, List.singleton_append]
      exact Reaches.seq (.cls (hw a List.mem_cons_self) _ _ _) htail

/-! ## Searching and replacing -/

/-- The search passes over a prefix in which the pattern matches nowhere. -/
theorem search_append {r : Regex α ν} {skip rest : List α} (before : List α)
    (h : ∀ w, w <:+ skip → w ≠ [] → ∀ before, matchAt r before (w ++ rest) = none) :
    search r before (skip ++ rest) = search r (skip.reverse ++ before) rest := by
  induction skip generalizing before with
  | nil => rfl
  | cons a skip ih =>
      have hhere : matchAt r before (a :: (skip ++ rest)) = none :=
        h (a :: skip) List.suffix_rfl (by simp) before
      have hlater := ih (a :: before)
        fun w hw hne => h w (hw.trans (List.suffix_cons a skip)) hne
      simpa [search, hhere] using hlater

theorem search_of_matchAt {r : Regex α ν} {before rest : List α} {c : Cursor α ν}
    (h : matchAt r before rest = some c) : search r before rest = some c := by
  cases rest with
  | nil => simpa [search] using h
  | cons a rest => simp [search, h]

theorem subLoop_congr (r : Regex α ν) (repl : Cursor α ν → List α) {n m : Nat}
    {before rest : List α} (hn : rest.length ≤ n) (hm : rest.length ≤ m) :
    subLoop r repl n before rest = subLoop r repl m before rest := by
  induction n generalizing m before rest with
  | zero =>
      have hnil : rest = [] := List.length_eq_zero_iff.mp (by omega)
      cases m <;> simp [hnil, subLoop]
  | succ n ih =>
      cases rest with
      | nil => cases m <;> simp [subLoop]
      | cons a rest =>
          simp only [List.length_cons] at hn hm
          cases m with
          | zero => omega
          | succ m =>
              have hskip : subLoop r repl n (a :: before) rest =
                  subLoop r repl m (a :: before) rest :=
                ih (by omega) (by omega)
              simp only [subLoop]
              split
              · next c _ =>
                split
                · rw [ih (m := m) (by omega) (by omega)]
                · rw [hskip]
              · rw [hskip]

@[simp] theorem sub_nil (r : Regex α ν) (repl : Cursor α ν → List α) (before : List α) :
    sub r repl before [] = [] := rfl

/-- Where the pattern does not match, the character stays. -/
theorem sub_cons {r : Regex α ν} (repl : Cursor α ν → List α) {before rest : List α}
    {a : α} (h : matchAt r before (a :: rest) = none) :
    sub r repl before (a :: rest) = a :: sub r repl (a :: before) rest := by
  simp [sub, subLoop, h]

/-- Where the pattern matches a word, the word is replaced. -/
theorem sub_append {r : Regex α ν} (repl : Cursor α ν → List α)
    {before before' w rest : List α} {groups : List (ν × List α)} (hne : w ≠ [])
    (h : matchAt r before (w ++ rest) = some ⟨before', rest, groups⟩) :
    sub r repl before (w ++ rest) =
      repl ⟨before', rest, groups⟩ ++ sub r repl before' rest := by
  cases w with
  | nil => exact absurd rfl hne
  | cons a w =>
      simp only [List.cons_append] at h ⊢
      have hlen : rest.length ≤ (w ++ rest).length := by simp
      simp only [sub, subLoop, List.length_cons, h, hlen, if_true]
      rw [subLoop_congr r repl hlen (Nat.le_refl _)]

end Regex

end B4n.Lib
