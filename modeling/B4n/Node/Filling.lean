import B4n.Node.Bookkeeping
import B4n.Node.Chain
import B4n.Blockchain.Linked

/-!
# Filling up a chain

A node receives the blocks of a valid extension of its chain in some order.
`Filling` is the exact state in between: how far the chain has come, which
blocks wait, that the seen window holds just these, and that every bucket of
the pool holds just the waiting block it is for.

## Main results

* `Filling.receive`, `Filling.orphan`, `Filling.connect` — the three moves: a
  block is appended on arrival, filed as an orphan, or connected.
-/

namespace B4n

open Lib Blockchain Transport

variable [Primitives]

namespace Node

/-! ## The seen window -/

/-- The newest entries of the seen window are those of the delivered blocks,
and the older ones are about other blocks than the given. -/
structure Remembers (bs delivered : List Block) (node : Node) : Prop where
  inStep : InStep node.seenBlocks node.seenBlocksOrder
  window : ∃ (older : List Hash32Type) (newest : List Block),
    node.seenBlocksOrder = older ++ newest.map Block.hash ∧
      newest.Perm delivered ∧ ∀ b ∈ bs, b.hash ∉ older

theorem Remembers.perm {bs delivered delivered' : List Block} {node : Node}
    (h : Remembers bs delivered node) (hperm : delivered.Perm delivered') :
    Remembers bs delivered' node := by
  obtain ⟨older, newest, horder, hnewest, hfresh⟩ := h.window
  exact ⟨h.inStep, older, newest, horder, hnewest.trans hperm, hfresh⟩

/-- Among the given blocks, the seen ones are the delivered ones. -/
theorem Remembers.mem_seenBlocks_iff {bs delivered : List Block} {node : Node}
    (h : Remembers bs delivered node)
    (hInj : ∀ a ∈ bs, ∀ b ∈ bs, a.hash = b.hash → a = b)
    (hsub : ∀ b ∈ delivered, b ∈ bs) {b : Block} (hb : b ∈ bs) :
    b.hash ∈ node.seenBlocks ↔ b ∈ delivered := by
  obtain ⟨older, newest, horder, hnewest, hfresh⟩ := h.window
  rw [h.inStep.mem_iff, horder, List.mem_append]
  constructor
  · rintro (hold | hnew)
    · exact absurd hold (hfresh b hb)
    · obtain ⟨c, hc, hhash⟩ := List.mem_map.mp hnew
      have hdelivered := hnewest.mem_iff.mp hc
      rwa [← hInj c (hsub c hdelivered) b hb hhash]
  · intro hdelivered
    exact Or.inr (List.mem_map_of_mem (hnewest.mem_iff.mpr hdelivered))

/-- Marking a new block evicts older entries at most. -/
theorem Remembers.mark {bs delivered : List Block} {node : Node}
    (h : Remembers bs delivered node) {b : Block}
    (hnew : b.hash ∉ node.seenBlocks)
    (hroom : delivered.length + 1 ≤ MAX_SEEN_BLOCKS) :
    Remembers bs (delivered ++ [b]) (node.mark b.hash) := by
  obtain ⟨older, newest, horder, hnewest, hfresh⟩ := h.window
  refine ⟨remember_inStep MAX_SEEN_BLOCKS h.inStep hnew, ?_⟩
  have hlen : (newest.map Block.hash ++ [b.hash]).length ≤ MAX_SEEN_BLOCKS := by
    rw [List.length_append, List.length_map, hnewest.length_eq,
      List.length_singleton]
    exact hroom
  obtain ⟨dropped, hrecent⟩ := recent_append_of_length_le older hlen
  refine ⟨older.drop dropped, newest ++ [b], ?_, hnewest.append_right [b], ?_⟩
  · show (remember MAX_SEEN_BLOCKS _ _ _).2 = _
    rw [remember_order MAX_SEEN_BLOCKS h.inStep hnew, horder,
      List.append_assoc, hrecent, List.map_append, List.map_singleton]
  · intro c hc hmem
    exact hfresh c hc (List.mem_of_mem_drop hmem)

/-! ## The orphan pool -/

/-- The pool holds just the waiting blocks, each under its previous hash. -/
structure Pooled (waiting : List Block) (node : Node) : Prop where
  bucket : ∀ key, (node.orphansByPrev.lookup key).getD [] =
    waiting.filter fun b => b.header.previousHash = key
  held_eq : held node.orphansByPrev = waiting.length
  total_eq : node.orphansTotal = waiting.length

omit [Primitives] in
/-- A counter at zero means an empty pool. -/
theorem Bookkeeping.pooled_nil {node : Node} (h : Bookkeeping node)
    (hzero : node.orphansTotal = 0) : Pooled [] node := by
  have hheld : held node.orphansByPrev = 0 := by
    have hle := h.held_le
    omega
  refine ⟨fun key => ?_, hheld, hzero⟩
  rw [List.filter_nil, List.eq_nil_iff_forall_not_mem]
  intro b hb
  exact not_files_of_held_eq_zero hheld key b ((mem_getD_iff _ _ _).mp hb)

omit [Primitives] in
/-- With room in the pool and no sibling in it, a block is filed. -/
theorem Pooled.putOrphan {waiting : List Block} {node : Node}
    (h : Pooled waiting node) {b : Block}
    (hroom : waiting.length < MAX_ORPHANS_TOTAL)
    (halone : ∀ c ∈ waiting, c.header.previousHash ≠ b.header.previousHash) :
    Pooled (waiting ++ [b]) (node.putOrphan b) := by
  have hempty : (node.orphansByPrev.lookup b.header.previousHash).getD [] =
      [] := by
    rw [h.bucket, List.filter_eq_nil_iff]
    intro c hc
    simpa using halone c hc
  have hput : node.putOrphan b =
      { node with
        orphansByPrev := node.orphansByPrev.insert b.header.previousHash [b]
        orphansTotal := node.orphansTotal + 1 } := by
    unfold Node.putOrphan
    rw [if_neg (by rw [h.total_eq]; omega)]
    dsimp only
    rw [hempty, if_neg (by simp [MAX_ORPHANS_PER_PREV]), List.nil_append]
  rw [hput]
  refine ⟨fun key => ?_, ?_, ?_⟩
  · rw [List.filter_append]
    by_cases hkey : key = b.header.previousHash
    · subst hkey
      rw [AList.lookup_insert, ← h.bucket, hempty]
      simp
    · rw [AList.lookup_insert_ne hkey, h.bucket]
      simp [Ne.symm hkey]
  · have hcount := held_insert_getD node.orphansByPrev b.header.previousHash [b]
    rw [hempty, h.held_eq] at hcount
    rw [List.length_append]
    simpa [Nat.add_comm] using hcount
  · rw [List.length_append, List.length_singleton, h.total_eq]

omit [Primitives] in
/-- A block alone in its bucket takes the bucket with it. -/
theorem Pooled.connect {waiting : List Block} {node last : Node}
    (h : Pooled waiting node) (hnodup : waiting.Nodup) {key : Hash32Type}
    {b : Block} (hvec : node.orphansByPrev.lookup key = some [b])
    (horphans : last.orphansByPrev = node.orphansByPrev.erase key)
    (htotal : last.orphansTotal = node.orphansTotal - 1) :
    Pooled (waiting.erase b) last := by
  have hfilter : waiting.filter (fun b => b.header.previousHash = key) = [b] :=
    by rw [← h.bucket, hvec, Option.getD_some]
  have hkeyed : ∀ c, c ∈ waiting ∧ c.header.previousHash = key ↔ c = b := by
    intro c
    have hmem : c ∈ waiting.filter (fun b => b.header.previousHash = key) ↔
        c ∈ [b] := by rw [hfilter]
    rwa [List.mem_filter, decide_eq_true_iff, List.mem_singleton] at hmem
  obtain ⟨hmem, hprev⟩ := (hkeyed b).mpr rfl
  have hlength := List.length_erase_of_mem hmem
  have hpositive := List.length_pos_of_mem hmem
  refine ⟨fun other => ?_, ?_, ?_⟩
  · rw [horphans, hnodup.erase_eq_filter, List.filter_filter]
    by_cases hkey : other = key
    · subst hkey
      rw [AList.lookup_erase, Option.getD_none, eq_comm, List.filter_eq_nil_iff]
      intro c hc
      by_cases hother : c.header.previousHash = other
      · simp [(hkeyed c).mp ⟨hc, hother⟩]
      · simp [hother]
    · rw [AList.lookup_erase_ne hkey, h.bucket]
      apply List.filter_congr
      intro c hc
      by_cases hother : c.header.previousHash = other
      · have hne : c ≠ b := by
          rintro rfl
          exact hkey (hother.symm.trans hprev)
        simp [hother, hne]
      · simp [hother]
  · have herase := held_erase hvec
    rw [h.held_eq, List.length_singleton] at herase
    rw [horphans]
    omega
  · rw [htotal, h.total_eq]
    omega

/-! ## The state in between -/

/-- The blocks continue the tip of a node, one valid after the other, and their
hashes are their names. -/
structure Extension (first : Node) (bs : List Block) : Prop where
  linked : (first.chain.last :: bs).IsChain first.consensus.Valid
  injOn : Set.InjOn calcHash (headerInputs (first.chain.last :: bs))
  length_le : bs.length ≤ MAX_ORPHANS_TOTAL + 1

namespace Extension

variable {first : Node} {bs : List Block}

theorem follows (h : Extension first bs) :
    (first.chain.last :: bs).IsChain Block.Follows :=
  h.linked.imp fun _ _ hvalid => hvalid.follows

theorem nodup (h : Extension first bs) : bs.Nodup :=
  (List.nodup_cons.mp (nodup_of_isChain h.follows)).2

theorem hash_inj (h : Extension first bs) {a b : Block} (ha : a ∈ bs)
    (hb : b ∈ bs) (hhash : a.hash = b.hash) : a = b :=
  hash_inj_of_isChain h.follows h.injOn (List.mem_cons_of_mem _ ha)
    (List.mem_cons_of_mem _ hb) hhash

/-- The index of a block of the extension. -/
theorem index_eq (h : Extension first bs) {i : Nat} {b : Block}
    (hb : bs[i]? = some b) :
    b.header.index.toNat = first.chain.getHeight.toNat + (i + 1) :=
  BlockChain.index_of_isChain h.follows rfl (i + 1) b hb

/-- No two blocks of the extension have one parent. -/
theorem parent_inj (h : Extension first bs) {a b : Block} (ha : a ∈ bs)
    (hb : b ∈ bs) (hprev : a.header.previousHash = b.header.previousHash) :
    a = b := by
  obtain ⟨i, hi⟩ := List.mem_iff_getElem?.mp ha
  obtain ⟨j, hj⟩ := List.mem_iff_getElem?.mp hb
  have hij : i = j := parent_inj_of_isChain h.follows h.injOn
    (by rw [List.getElem?_cons_succ]; exact hi)
    (by rw [List.getElem?_cons_succ]; exact hj) hprev
  rw [hij, hj] at hi
  exact (Option.some.inj hi).symm

end Extension

/-- `done` blocks of the extension are on the chain and `waiting` ones are in
the pool; no other block of it was seen. -/
structure Filling (first : Node) (bs : List Block) (node : Node) (done : Nat)
    (waiting : List Block) : Prop where
  done_le : done ≤ bs.length
  blocks_eq : node.chain.blocks = first.chain.blocks ++ bs.take done
  config_eq : node.consensus.config = first.consensus.config
  verifier_eq : node.consensus.verifier = first.consensus.verifier
  nodup : waiting.Nodup
  waiting_sub : ∀ b ∈ waiting, b ∈ bs.drop done
  zero_idle : done = 0 → ∀ b ∈ waiting, bs[0]? ≠ some b
  remembers : Remembers bs (bs.take done ++ waiting) node
  pooled : Pooled waiting node

/-- The next block does not wait. -/
def Idle (bs : List Block) (done : Nat) (waiting : List Block) : Prop :=
  ∀ b ∈ waiting, bs[done]? ≠ some b

/-- The block arrived: it is on the chain or waits. -/
def Delivered (bs : List Block) (done : Nat) (waiting : List Block)
    (b : Block) : Prop :=
  b ∈ bs.take done ++ waiting

namespace Filling

variable {first node : Node} {bs waiting : List Block} {done : Nat}

theorem valid_eq (h : Filling first bs node done waiting) :
    node.consensus.Valid = first.consensus.Valid :=
  PoAConsensus.valid_congr (congrArg _ h.config_eq) h.verifier_eq

theorem delivered_sub (h : Filling first bs node done waiting) {b : Block}
    (hb : Delivered bs done waiting b) : b ∈ bs := by
  rcases List.mem_append.mp hb with hdone | hwaits
  · exact List.mem_of_mem_take hdone
  · exact List.mem_of_mem_drop (h.waiting_sub b hwaits)

theorem seen_iff (hext : Extension first bs)
    (h : Filling first bs node done waiting) {b : Block} (hb : b ∈ bs) :
    b.hash ∈ node.seenBlocks ↔ Delivered bs done waiting b :=
  h.remembers.mem_seenBlocks_iff (fun _ ha _ hb => hext.hash_inj ha hb)
    (fun _ hc => h.delivered_sub hc) hb

/-- The tip is the last block of the extension that is done. -/
theorem tip_eq (h : Filling first bs node done waiting) :
    (first.chain.last :: bs)[done]? = some node.chain.last := by
  have htip := node.chain.getElem?_tip
  rw [h.blocks_eq, List.length_append, List.length_take,
    Nat.min_eq_left h.done_le] at htip
  rw [← htip]
  have hpos := first.chain.length_pos
  cases done with
  | zero =>
      rw [List.take_zero, List.append_nil, Nat.add_zero,
        first.chain.getElem?_tip, List.getElem?_cons_zero]
  | succ done =>
      have hlt : done < bs.length := h.done_le
      rw [List.getElem?_cons_succ, List.getElem?_append_right (by omega),
        show first.chain.blocks.length + (done + 1) - 1 -
          first.chain.blocks.length = done by omega,
        List.getElem?_take_of_lt (Nat.lt_succ_self done)]

theorem height_eq (hext : Extension first bs)
    (h : Filling first bs node done waiting) :
    node.chain.getHeight.toNat = first.chain.getHeight.toNat + done :=
  BlockChain.index_of_isChain hext.follows rfl done _ h.tip_eq

/-- Of the extension, the next block is the one that is valid on the tip. -/
theorem accepts_iff (hext : Extension first bs)
    (h : Filling first bs node done waiting) {b : Block} (hb : b ∈ bs) :
    node.consensus.accepts node.chain.last b = true ↔ bs[done]? = some b := by
  rw [PoAConsensus.accepts_iff, h.valid_eq]
  obtain ⟨i, hi⟩ := List.mem_iff_getElem?.mp hb
  constructor
  · intro hvalid
    have hindex := hvalid.follows.toNat_index
    have htip : node.chain.last.header.index.toNat =
        first.chain.getHeight.toNat + done := h.height_eq hext
    rw [hext.index_eq hi, htip] at hindex
    rw [show done = i by omega]
    exact hi
  · intro hnext
    have hnext' : (first.chain.last :: bs)[done + 1]? = some b := hnext
    obtain ⟨hlt, hget⟩ := List.getElem?_eq_some_iff.mp h.tip_eq
    obtain ⟨hlt', hget'⟩ := List.getElem?_eq_some_iff.mp hnext'
    have hstep := List.isChain_iff_getElem.mp hext.linked done hlt'
    rwa [hget, hget'] at hstep

/-- As long as a block past the next one is missing, the pool has room. -/
theorem length_waiting_lt (hext : Extension first bs)
    (h : Filling first bs node done waiting) {i : Nat} {b : Block}
    (hi : bs[i]? = some b) (hlater : done < i) (hnew : b ∉ waiting) :
    waiting.length < MAX_ORPHANS_TOTAL := by
  have hlt : i < bs.length := (List.getElem?_eq_some_iff.mp hi).1
  have hlength := hext.length_le
  have hb : b ∈ bs.drop done := by
    rw [List.mem_iff_getElem?]
    exact ⟨i - done, by rw [List.getElem?_drop, ← hi]; congr 1; omega⟩
  have hcons : (b :: waiting).Nodup := List.nodup_cons.mpr ⟨hnew, h.nodup⟩
  have hsub : b :: waiting ⊆ bs.drop done := by
    intro c hc
    rcases List.mem_cons.mp hc with rfl | hwaits
    · exact hb
    · exact h.waiting_sub c hwaits
  rcases Nat.eq_zero_or_pos done with hzero | hpos
  · -- the very first block does not wait either
    subst hzero
    obtain ⟨b₀, hb₀⟩ : ∃ b₀, bs[0]? = some b₀ :=
      ⟨_, List.getElem?_eq_getElem (by omega)⟩
    have hne : b₀ ≠ b := by
      rintro rfl
      have hsame := (List.getElem?_inj (by omega) hext.nodup).mp
        (hb₀.trans hi.symm)
      omega
    have hnot : b₀ ∉ b :: waiting := by
      rw [List.mem_cons, not_or]
      exact ⟨hne, fun hwaits => h.zero_idle rfl b₀ hwaits hb₀⟩
    have hall : (b₀ :: b :: waiting).Nodup := List.nodup_cons.mpr ⟨hnot, hcons⟩
    have hsub' : b₀ :: b :: waiting ⊆ bs := by
      intro c hc
      rcases List.mem_cons.mp hc with rfl | hrest
      · exact List.mem_of_getElem? hb₀
      · exact List.mem_of_mem_drop (hsub hrest)
    have hle := (hall.subperm hsub').length_le
    rw [List.length_cons, List.length_cons] at hle
    omega
  · have hle := (hcons.subperm hsub).length_le
    rw [List.length_cons, List.length_drop] at hle
    omega

/-- The state in between does not depend on the other fields. -/
theorem of_same {last : Node} (h : Filling first bs node done waiting)
    (hchain : last.chain = node.chain)
    (hconfig : last.consensus.config = node.consensus.config)
    (hverifier : last.consensus.verifier = node.consensus.verifier)
    (hseen : last.seenBlocks = node.seenBlocks)
    (horder : last.seenBlocksOrder = node.seenBlocksOrder)
    (horphans : last.orphansByPrev = node.orphansByPrev)
    (htotal : last.orphansTotal = node.orphansTotal) :
    Filling first bs last done waiting where
  done_le := h.done_le
  blocks_eq := hchain ▸ h.blocks_eq
  config_eq := hconfig.trans h.config_eq
  verifier_eq := hverifier.trans h.verifier_eq
  nodup := h.nodup
  waiting_sub := h.waiting_sub
  zero_idle := h.zero_idle
  remembers := by
    refine ⟨?_, ?_⟩
    · rw [hseen, horder]
      exact h.remembers.inStep
    · rw [horder]
      exact h.remembers.window
  pooled := by
    refine ⟨?_, ?_, ?_⟩
    · rw [horphans]
      exact h.pooled.bucket
    · rw [horphans]
      exact h.pooled.held_eq
    · rw [htotal]
      exact h.pooled.total_eq

theorem of_core {last : Node} (h : Filling first bs node done waiting)
    (hcore : SameCore node last) : Filling first bs last done waiting :=
  h.of_same hcore.chain (by rw [hcore.consensus]) (by rw [hcore.consensus])
    hcore.seenBlocks hcore.seenBlocksOrder hcore.orphansByPrev
    hcore.orphansTotal

theorem length_delivered_le (h : Filling first bs node done waiting) :
    (bs.take done ++ waiting).length ≤ bs.length := by
  have hle := (h.nodup.subperm h.waiting_sub).length_le
  have hdone := h.done_le
  rw [List.length_drop] at hle
  rw [List.length_append, List.length_take]
  omega

/-- Marking a block of the extension that was not delivered. -/
theorem remembers_mark (hext : Extension first bs)
    (h : Filling first bs node done waiting) {b : Block} (hb : b ∈ bs)
    (hnew : ¬ Delivered bs done waiting b) :
    Remembers bs (bs.take done ++ waiting ++ [b]) (node.mark b.hash) := by
  apply h.remembers.mark
  · rwa [h.seen_iff hext hb]
  · have hdelivered := h.length_delivered_le
    have hlength := hext.length_le
    have hsmall : MAX_ORPHANS_TOTAL + 2 ≤ MAX_SEEN_BLOCKS := by decide
    omega

/-- Past the next block, waiting blocks are past the one after it. -/
theorem drop_succ_of_ne (h : Filling first bs node done waiting) {b c : Block}
    (hnext : bs[done]? = some b) (hc : c ∈ waiting) (hne : c ≠ b) :
    c ∈ bs.drop (done + 1) := by
  obtain ⟨hlt, hget⟩ := List.getElem?_eq_some_iff.mp hnext
  have hdrop := h.waiting_sub c hc
  rw [List.drop_eq_getElem_cons hlt, hget, List.mem_cons] at hdrop
  exact hdrop.resolve_left hne

/-- The next block arrives and is appended. -/
theorem receive (hext : Extension first bs)
    (h : Filling first bs node done waiting) (env : Env) (pool : MemPool)
    {b : Block} (hnext : bs[done]? = some b)
    (hnew : ¬ Delivered bs done waiting b) :
    Filling first bs
      { (node.mark b.hash).grow env b with mempool := pool } (done + 1)
      waiting := by
  have hb : b ∈ bs := List.mem_of_getElem? hnext
  have hmark := h.remembers_mark hext hb hnew
  have hwaits : b ∉ waiting := fun hin => hnew (List.mem_append_right _ hin)
  have hperm : (bs.take done ++ waiting ++ [b]).Perm
      (bs.take (done + 1) ++ waiting) := by
    rw [List.take_add_one, hnext, Option.toList_some, List.append_assoc,
      List.append_assoc]
    exact (List.perm_append_comm).append_left _
  refine ⟨(List.getElem?_eq_some_iff.mp hnext).1, ?_, h.config_eq,
    h.verifier_eq, h.nodup, ?_, ?_, ?_, ?_⟩
  · show node.chain.blocks ++ [b] = _
    rw [h.blocks_eq, List.take_add_one, hnext, Option.toList_some,
      List.append_assoc]
  · intro c hc
    exact h.drop_succ_of_ne hnext hc fun heq => hwaits (heq ▸ hc)
  · intro hzero
    omega
  · exact ⟨(hmark.perm hperm).inStep, (hmark.perm hperm).window⟩
  · exact ⟨h.pooled.bucket, h.pooled.held_eq, h.pooled.total_eq⟩

/-- A later block arrives and waits. -/
theorem orphan (hext : Extension first bs)
    (h : Filling first bs node done waiting) {i : Nat} {b : Block}
    (hi : bs[i]? = some b) (hlater : done < i)
    (hnew : ¬ Delivered bs done waiting b) :
    Filling first bs ((node.mark b.hash).putOrphan b) done
      (waiting ++ [b]) := by
  have hb : b ∈ bs := List.mem_of_getElem? hi
  have hwaits : b ∉ waiting := fun hin => hnew (List.mem_append_right _ hin)
  have hlt : i < bs.length := (List.getElem?_eq_some_iff.mp hi).1
  have hmark := h.remembers_mark hext hb hnew
  rw [List.append_assoc] at hmark
  have hput : Pooled (waiting ++ [b]) ((node.mark b.hash).putOrphan b) := by
    apply Pooled.putOrphan
    · exact ⟨h.pooled.bucket, h.pooled.held_eq, h.pooled.total_eq⟩
    · exact h.length_waiting_lt hext hi hlater hwaits
    · intro c hc hprev
      have hcbs := List.mem_of_mem_drop (h.waiting_sub c hc)
      exact hwaits (hext.parent_inj hcbs hb hprev ▸ hc)
  obtain ⟨orphans, total, heq⟩ := (node.mark b.hash).putOrphan_eq b
  rw [heq] at hput ⊢
  refine ⟨h.done_le, h.blocks_eq, h.config_eq, h.verifier_eq, ?_, ?_, ?_,
    ⟨hmark.inStep, hmark.window⟩, hput⟩
  · rw [List.nodup_append]
    refine ⟨h.nodup, List.nodup_singleton b, ?_⟩
    rintro c hc d hd rfl
    exact hwaits (List.mem_singleton.mp hd ▸ hc)
  · intro c hc
    rcases List.mem_append.mp hc with hold | hlast
    · exact h.waiting_sub c hold
    · rw [List.mem_singleton.mp hlast, List.mem_iff_getElem?]
      exact ⟨i - done, by rw [List.getElem?_drop, ← hi]; congr 1; omega⟩
  · intro hzero c hc hfirst
    rcases List.mem_append.mp hc with hold | hlast
    · exact h.zero_idle hzero c hold hfirst
    · rw [List.mem_singleton.mp hlast] at hfirst
      have hsame := (List.getElem?_inj (by omega) hext.nodup).mp
        (hfirst.trans hi.symm)
      omega

/-- A bucket holds one block at most. -/
theorem length_bucket_le (hext : Extension first bs)
    (h : Filling first bs node done waiting) {key : Hash32Type}
    {vec : List Block} (hvec : node.orphansByPrev.lookup key = some vec) :
    vec.length ≤ 1 := by
  have hbucket := h.pooled.bucket key
  rw [hvec, Option.getD_some] at hbucket
  have hnodup : vec.Nodup := hbucket ▸ h.nodup.filter _
  have hsame : ∀ c ∈ vec, ∀ d ∈ vec, c = d := by
    intro c hc d hd
    rw [hbucket, List.mem_filter, decide_eq_true_iff] at hc hd
    exact hext.parent_inj (List.mem_of_mem_drop (h.waiting_sub c hc.1))
      (List.mem_of_mem_drop (h.waiting_sub d hd.1)) (hc.2.trans hd.2.symm)
  cases vec with
  | nil => simp
  | cons c rest =>
      cases rest with
      | nil => simp
      | cons d rest =>
          have heq := hsame c (by simp) d (by simp)
          rw [heq] at hnodup
          simp at hnodup

/-- The next block leaves the pool for the chain. -/
theorem connect (h : Filling first bs node done waiting) (env : Env)
    {b : Block}
    (hvec : node.orphansByPrev.lookup node.chain.last.hash = some [b])
    (hnext : bs[done]? = some b) :
    Filling first bs
      { node.grow env b with
        orphansByPrev := node.orphansByPrev.erase node.chain.last.hash
        orphansTotal := node.orphansTotal - 1 } (done + 1)
      (waiting.erase b) := by
  have hwaits : b ∈ waiting := by
    have hbucket := h.pooled.bucket node.chain.last.hash
    rw [hvec, Option.getD_some] at hbucket
    have hmem : b ∈ [b] := List.mem_singleton_self b
    rw [hbucket] at hmem
    exact List.mem_of_mem_filter hmem
  have hperm : (bs.take done ++ waiting).Perm
      (bs.take (done + 1) ++ waiting.erase b) := by
    rw [List.take_add_one, hnext, Option.toList_some, List.append_assoc,
      List.singleton_append]
    exact (List.perm_cons_erase hwaits).append_left _
  have hrem := h.remembers.perm hperm
  have hpooled : Pooled (waiting.erase b) { node.grow env b with
      orphansByPrev := node.orphansByPrev.erase node.chain.last.hash
      orphansTotal := node.orphansTotal - 1 } :=
    h.pooled.connect h.nodup hvec rfl rfl
  refine ⟨(List.getElem?_eq_some_iff.mp hnext).1, ?_, h.config_eq,
    h.verifier_eq, h.nodup.erase b, ?_, ?_, ⟨hrem.inStep, hrem.window⟩, hpooled⟩
  · show node.chain.blocks ++ [b] = _
    rw [h.blocks_eq, List.take_add_one, hnext, Option.toList_some,
      List.append_assoc]
  · intro c hc
    obtain ⟨hne, hin⟩ := (List.Nodup.mem_erase_iff h.nodup).mp hc
    exact h.drop_succ_of_ne hnext hin hne
  · intro hzero
    omega

end Filling

end Node

end B4n
