import B4n.Node.Filling
import B4n.Node.Sample

/-!
# Blocks in any order

A node receives the blocks of a valid extension of its chain in some order,
with repetitions and in batches, mixed with other messages.  Each block travels
one of three routes: it is appended on arrival, it waits in the orphan pool for
its parent, or it is skipped because its hash was seen.  The connection loop
runs only after progress, and for a batch only at its end.

## Main results

* `Filling.handle`, `Filling.connectLoop`, `Filling.onMessage` — what one
  block, the connection loop and a message do to the state in between.
* `run_converges` — after any run that brings every block of the extension, the
  chain has grown by exactly these and nothing waits.
-/

namespace B4n

open Lib Blockchain Transport

variable [Primitives]

namespace Node

namespace Filling

variable {first node : Node} {bs waiting : List Block} {done : Nat}

/-! ## What the handlers do to it -/

omit [Primitives] in
/-- Once the next block is on the chain, the same blocks are delivered and it
is too. -/
theorem delivered_succ {b c : Block} (hnext : bs[done]? = some b)
    (hc : c = b ∨ Delivered bs done waiting c) :
    Delivered bs (done + 1) waiting c := by
  unfold Delivered at hc ⊢
  rw [List.take_add_one, hnext, Option.toList_some, List.append_assoc,
    List.mem_append]
  rcases hc with rfl | hold
  · exact Or.inr (List.mem_cons_self ..)
  · rcases List.mem_append.mp hold with hdone | hwaits
    · exact Or.inl hdone
    · exact Or.inr (List.mem_cons_of_mem b hwaits)

omit [Primitives] in
/-- A block that was not delivered and is not the next one comes later in the
extension. -/
theorem later_of_not_next {i : Nat} {b : Block} (hi : bs[i]? = some b)
    (hnew : ¬ Delivered bs done waiting b) (hnext : bs[done]? ≠ some b) :
    done < i := by
  by_contra hle
  rcases Nat.lt_or_eq_of_le (Nat.not_lt.mp hle) with hlt | heq
  · apply hnew
    apply List.mem_append_left
    rw [List.mem_iff_getElem?]
    exact ⟨i, by rw [List.getElem?_take_of_lt hlt, hi]⟩
  · exact hnext (heq ▸ hi)

/-- A block that comes later in the extension becomes an orphan. -/
theorem handle_later (hext : Extension first bs)
    (h : Filling first bs node done waiting) (env : Env) {i : Nat} {b : Block}
    (hi : bs[i]? = some b) (hlater : done < i)
    (hseen : b.hash ∉ node.seenBlocks) (hnext : bs[done]? ≠ some b) :
    node.handleIncomingBlock env b =
      (node.mark b.hash).orphanAndSync env b (node.chain.getHeight + 1) := by
  have hindex := hext.index_eq hi
  have hheight := h.height_eq hext
  have hcase := node.handleIncomingBlock_cases env b
  generalize node.handleIncomingBlock env b = handled at hcase ⊢
  cases hcase with
  | seen hin => exact absurd hin hseen
  | stale _ hle =>
      rw [UInt64.le_iff_toNat_le] at hle
      omega
  | rejected _ hplace _ _ =>
      exfalso
      have hnat := congrArg UInt64.toNat hplace
      rw [UInt64.toNat_add, hindex, hheight] at hnat
      have hone : (1 : UInt64).toNat = 1 := rfl
      have hmod := Nat.mod_le (first.chain.getHeight.toNat + done +
        (1 : UInt64).toNat) (2 ^ 64)
      omega
  | appended _ hok =>
      have hin := List.mem_of_getElem? hi
      exact absurd ((h.accepts_iff hext hin).mp hok) hnext
  | orphaned _ hlt hgap => rfl

/-- One block of the extension is handled: it is delivered, and the chain moves
or the next block still does not wait. -/
theorem handle (hext : Extension first bs)
    (h : Filling first bs node done waiting) (env : Env) {b : Block}
    (hb : b ∈ bs) :
    ∃ done' waiting',
      Filling first bs (node.handleIncomingBlock env b).node done' waiting' ∧
      Delivered bs done' waiting' b ∧
      (∀ c, Delivered bs done waiting c → Delivered bs done' waiting' c) ∧
      ((node.handleIncomingBlock env b).progressed = true ∨
        (Idle bs done waiting → Idle bs done' waiting')) := by
  by_cases hseen : b.hash ∈ node.seenBlocks
  · rw [handleIncomingBlock_of_mem hseen]
    exact ⟨done, waiting, h, (h.seen_iff hext hb).mp hseen, fun _ hc => hc,
      Or.inr fun hidle => hidle⟩
  have hnew : ¬ Delivered bs done waiting b := fun hin =>
    hseen ((h.seen_iff hext hb).mpr hin)
  by_cases hnext : bs[done]? = some b
  · have hok := (h.accepts_iff hext hb).mpr hnext
    rw [handleIncomingBlock_of_accepts hseen hok]
    exact ⟨done + 1, waiting, h.receive hext env _ hnext hnew,
      delivered_succ hnext (Or.inl rfl),
      fun c hc => delivered_succ hnext (Or.inr hc), Or.inl rfl⟩
  obtain ⟨i, hi⟩ := List.mem_iff_getElem?.mp hb
  have hlater := later_of_not_next hi hnew hnext
  rw [h.handle_later hext env hi hlater hseen hnext]
  have horphan := (h.orphan hext hi hlater hnew).of_core
    (orphanAndSync_core env _ b (node.chain.getHeight + 1))
  have hdelivered : ∀ c, Delivered bs done (waiting ++ [b]) c ↔
      Delivered bs done waiting c ∨ c = b := by
    intro c
    unfold Delivered
    rw [← List.append_assoc, List.mem_append, List.mem_singleton]
  refine ⟨done, waiting ++ [b], horphan, (hdelivered b).mpr (Or.inr rfl),
    fun c hc => (hdelivered c).mpr (Or.inl hc), Or.inr ?_⟩
  intro hidle c hc hfirst
  rcases List.mem_append.mp hc with hold | hlast
  · exact hidle c hold hfirst
  · exact hnext (List.mem_singleton.mp hlast ▸ hfirst)

/-- As `handle`, for a batch. -/
theorem handleBatch (hext : Extension first bs) (env : Env)
    {page : List Block} (hpage : ∀ b ∈ page, b ∈ bs)
    (h : Filling first bs node done waiting) :
    ∃ done' waiting',
      Filling first bs (node.handleBatch env page).node done' waiting' ∧
      (∀ b ∈ page, Delivered bs done' waiting' b) ∧
      (∀ c, Delivered bs done waiting c → Delivered bs done' waiting' c) ∧
      ((node.handleBatch env page).progressed = true ∨
        (Idle bs done waiting → Idle bs done' waiting')) := by
  induction page generalizing node done waiting with
  | nil =>
      exact ⟨done, waiting, h, by simp, fun _ hc => hc,
        Or.inr fun hidle => hidle⟩
  | cons b page ih =>
      obtain ⟨done₁, waiting₁, h₁, hb₁, hkeep₁, hmove₁⟩ :=
        h.handle hext env (hpage b (by simp))
      obtain ⟨done₂, waiting₂, h₂, hb₂, hkeep₂, hmove₂⟩ :=
        ih (fun c hc => hpage c (List.mem_cons_of_mem b hc)) h₁
      refine ⟨done₂, waiting₂, h₂, ?_, fun c hc => hkeep₂ c (hkeep₁ c hc), ?_⟩
      · intro c hc
        rcases List.mem_cons.mp hc with rfl | hrest
        · exact hkeep₂ c hb₁
        · exact hb₂ c hrest
      · unfold Node.handleBatch
        dsimp only
        rw [Bool.or_eq_true]
        rcases hmove₁ with hprog | hidle₁
        · exact Or.inl (Or.inl hprog)
        · rcases hmove₂ with hprog | hidle₂
          · exact Or.inl (Or.inr hprog)
          · exact Or.inr fun hidle => hidle₂ (hidle₁ hidle)

/-- If no block filed under the tip is valid there, the next block does not
wait. -/
theorem idle_of_none (hext : Extension first bs)
    (h : Filling first bs node done waiting)
    (hnone : ∀ b, Files node.orphansByPrev node.chain.last.hash b →
      node.consensus.accepts node.chain.last b = false) :
    Idle bs done waiting := by
  intro c hc hnext
  have hin : c ∈ bs := List.mem_of_getElem? hnext
  have hok := (h.accepts_iff hext hin).mpr hnext
  have hprev :=
    ((PoAConsensus.accepts_iff _ _ _).mp hok).follows.previousHash_eq
  have hfiles : Files node.orphansByPrev node.chain.last.hash c := by
    rw [← mem_getD_iff, h.pooled.bucket, List.mem_filter]
    exact ⟨hc, by simpa using hprev⟩
  rw [hnone c hfiles] at hok
  cases hok

/-- The order of the buckets does not matter. -/
theorem reorder (h : Filling first bs node done waiting)
    {orphans : HashMap Hash32Type (List Block)}
    (hsame : ∀ key, orphans.lookup key = node.orphansByPrev.lookup key)
    (hheld : held orphans = held node.orphansByPrev) :
    Filling first bs { node with orphansByPrev := orphans } done waiting := by
  refine ⟨h.done_le, h.blocks_eq, h.config_eq, h.verifier_eq, h.nodup,
    h.waiting_sub, h.zero_idle, ⟨h.remembers.inStep, h.remembers.window⟩, ?_,
    hheld.trans h.pooled.held_eq, h.pooled.total_eq⟩
  intro key
  rw [← h.pooled.bucket key, ← hsame key]

/-- The connection loop connects until the next block does not wait. -/
theorem connectLoop (hext : Extension first bs) (env : Env) {fuel : Nat}
    (hfuel : waiting.length < fuel)
    (h : Filling first bs node done waiting) :
    ∃ done' waiting',
      Filling first bs (node.connectLoop env fuel).node done' waiting' ∧
      Idle bs done' waiting' ∧
      ∀ c, Delivered bs done waiting c → Delivered bs done' waiting' c := by
  induction fuel generalizing node done waiting with
  | zero => omega
  | succ fuel ih =>
      have hcase := node.connectOnce_cases env
      unfold Node.connectLoop
      generalize node.connectOnce env = round at hcase ⊢
      cases hcase with
      | done orphans hsame hheld hnone =>
          exact ⟨done, waiting, h.reorder hsame hheld, h.idle_of_none hext hnone,
            fun _ hc => hc⟩
      | connected vec pos hvec hok =>
          obtain ⟨hsole, hremoved⟩ :=
            swapRemove_of_length_le_one pos (h.length_bucket_le hext hvec)
          have hfiles : Files node.orphansByPrev node.chain.last.hash
              (vec.get pos) := ⟨vec, hvec, List.get_mem vec pos⟩
          rw [← mem_getD_iff, h.pooled.bucket, List.mem_filter] at hfiles
          have hwaits := hfiles.1
          have hin := List.mem_of_mem_drop (h.waiting_sub _ hwaits)
          have hnext := (h.accepts_iff hext hin).mp hok
          rw [hsole] at hvec
          have hlength := List.length_erase_of_mem hwaits
          have hpositive := List.length_pos_of_mem hwaits
          dsimp only
          rw [hremoved]
          obtain ⟨done', waiting', h', hidle, hkeep⟩ :=
            ih (by omega) (h.connect env hvec hnext)
          refine ⟨done', waiting', h', hidle, fun c hc => hkeep c ?_⟩
          have hperm : (bs.take done ++ waiting).Perm
              (bs.take (done + 1) ++ waiting.erase (vec.get pos)) := by
            rw [List.take_add_one, hnext, Option.toList_some,
              List.append_assoc, List.singleton_append]
            exact (List.perm_cons_erase hwaits).append_left _
          exact hperm.mem_iff.mp hc

/-- Handling blocks and then connecting, if there was progress. -/
theorem connectIfProgressed (hext : Extension first bs) (env : Env)
    {handled : Handled} {done' : Nat} {waiting' : List Block}
    (h' : Filling first bs handled.node done' waiting')
    (hmove : handled.progressed = true ∨ Idle bs done' waiting') :
    ∃ done'' waiting'',
      Filling first bs (Node.connectIfProgressed env handled).node done''
        waiting'' ∧
      Idle bs done'' waiting'' ∧
      ∀ c, Delivered bs done' waiting' c → Delivered bs done'' waiting'' c := by
  unfold Node.connectIfProgressed
  by_cases hprogressed : handled.progressed = true
  · rw [if_pos hprogressed]
    apply h'.connectLoop hext env
    rw [h'.pooled.held_eq]
    omega
  · rw [if_neg hprogressed]
    exact ⟨done', waiting', h', hmove.resolve_left hprogressed, fun _ hc => hc⟩

/-- A message that brings in blocks of the extension only. -/
theorem onMessage (hext : Extension first bs) (env : Env) {m : NodeMessage}
    (hm : ∀ b ∈ incoming m, b ∈ bs)
    (h : Filling first bs node done waiting) (hidle : Idle bs done waiting) :
    ∃ done' waiting',
      Filling first bs (node.onMessage env m).node done' waiting' ∧
      Idle bs done' waiting' ∧
      (∀ b ∈ incoming m, Delivered bs done' waiting' b) ∧
      ∀ c, Delivered bs done waiting c → Delivered bs done' waiting' c := by
  by_cases hblock : ∃ peerId b, m = .net peerId (.block b)
  · obtain ⟨peerId, b, rfl⟩ := hblock
    obtain ⟨done₁, waiting₁, h₁, hb₁, hkeep₁, hmove₁⟩ :=
      h.handle hext env (hm b (List.mem_singleton_self b))
    obtain ⟨done₂, waiting₂, h₂, hidle₂, hkeep₂⟩ :=
      h₁.connectIfProgressed hext env (hmove₁.imp_right fun hmove => hmove hidle)
    refine ⟨done₂, waiting₂, h₂, hidle₂, ?_, fun c hc => hkeep₂ c (hkeep₁ c hc)⟩
    intro c hc
    rw [List.mem_singleton.mp hc]
    exact hkeep₂ b hb₁
  by_cases hblocks : ∃ peerId page, m = .net peerId (.blocks page)
  · obtain ⟨peerId, page, rfl⟩ := hblocks
    obtain ⟨done₁, waiting₁, h₁, hb₁, hkeep₁, hmove₁⟩ :=
      h.handleBatch hext env hm
    obtain ⟨done₂, waiting₂, h₂, hidle₂, hkeep₂⟩ :=
      h₁.connectIfProgressed hext env (hmove₁.imp_right fun hmove => hmove hidle)
    exact ⟨done₂, waiting₂, h₂.of_core (nextPage_core _ peerId page), hidle₂,
      fun c hc => hkeep₂ c (hb₁ c hc), fun c hc => hkeep₂ c (hkeep₁ c hc)⟩
  have hcore : SameCore node (node.onMessage env m).node :=
    onMessage_core env (fun peerId b heq => hblock ⟨peerId, b, heq⟩)
      (fun peerId page heq => hblocks ⟨peerId, page, heq⟩)
  refine ⟨done, waiting, h.of_core hcore, hidle, ?_, fun _ hc => hc⟩
  intro b hb
  exfalso
  cases m with
  | net peerId msg =>
      cases msg with
      | block c => exact hblock ⟨peerId, c, rfl⟩
      | blocks page => exact hblocks ⟨peerId, page, rfl⟩
      | hello id pubkey => cases hb
      | helloAck id => cases hb
      | getStatus => cases hb
      | status height hash => cases hb
      | getBlocks start limit => cases hb
      | trx trx => cases hb
  | localTrx trx => cases hb
  | debugPrint => cases hb
  | stop => cases hb
  | addPeer peerId sender => cases hb
  | removePeer peerId => cases hb

/-- A tick without a proposal. -/
theorem onTick (h : Filling first bs node done waiting) {env : Env}
    (hquiet : (node.onTick env).node.chain = node.chain) :
    Filling first bs (node.onTick env).node done waiting := by
  have hdrained : Filling first bs (node.drained env) done waiting :=
    h.of_same (node.drained_chain env) (node.drained_config env)
      (node.drained_verifier env) (node.drained_seenBlocks env)
      (node.drained_seenBlocksOrder env) (node.drained_orphansByPrev env)
      (node.drained_orphansTotal env)
  have hcase := node.onTick_cases env
  generalize node.onTick env = reaction at hcase hquiet ⊢
  cases hcase with
  | waited consensus hconsensus hno =>
      rcases hconsensus with rfl | ⟨round, rfl⟩ <;>
        exact h.of_same rfl rfl rfl rfl rfl rfl rfl
  | keyless hturn htxs hbuild => exact hdrained
  | refused candidate hturn htxs hbuild hbad => exact hdrained
  | proposed candidate hturn htxs hbuild hok =>
      have hgrown := (proposed_advance env hok).blocks_eq
      rw [hquiet] at hgrown
      have hlength := congrArg List.length hgrown
      rw [List.length_append, List.length_singleton] at hlength
      omega

end Filling

/-! ## Runs -/

/-- The state a node with an empty pool starts from. -/
theorem Extension.filling {first : Node} {bs : List Block}
    (hbook : Bookkeeping first) (hempty : first.orphansTotal = 0)
    (hfresh : ∀ b ∈ bs, b.hash ∉ first.seenBlocks) :
    Filling first bs first 0 [] where
  done_le := Nat.zero_le _
  blocks_eq := by rw [List.take_zero, List.append_nil]
  config_eq := rfl
  verifier_eq := rfl
  nodup := List.nodup_nil
  waiting_sub := by simp
  zero_idle := by simp
  remembers := by
    refine ⟨hbook.inStep, first.seenBlocksOrder, [], by simp, .refl _, ?_⟩
    intro b hb hold
    exact hfresh b hb ((hbook.inStep.mem_iff _).mpr hold)
  pooled := hbook.pooled_nil hempty

/-- When every block was delivered and the next one does not wait, the
extension is on the chain. -/
theorem Filling.complete {first node : Node} {bs waiting : List Block}
    {done : Nat} (h : Filling first bs node done waiting)
    (hidle : Idle bs done waiting)
    (hall : ∀ b ∈ bs, Delivered bs done waiting b) (hnodup : bs.Nodup) :
    node.chain.blocks = first.chain.blocks ++ bs ∧ waiting = [] := by
  have hdone : done = bs.length := by
    by_contra hne
    have hlt : done < bs.length := Nat.lt_of_le_of_ne h.done_le hne
    have hnext := List.getElem?_eq_getElem hlt
    rcases List.mem_append.mp (hall _ (List.getElem_mem hlt)) with hin | hwaits
    · obtain ⟨i, hi⟩ := List.mem_iff_getElem?.mp hin
      have hi' : i < done := by
        have hlength := (List.getElem?_eq_some_iff.mp hi).1
        rw [List.length_take] at hlength
        omega
      rw [List.getElem?_take_of_lt hi'] at hi
      have hsame := (List.getElem?_inj (by omega) hnodup).mp
        (hi.trans hnext.symm)
      omega
    · exact hidle _ hwaits hnext
  refine ⟨?_, ?_⟩
  · rw [h.blocks_eq, hdone, List.take_length]
  · rw [List.eq_nil_iff_forall_not_mem]
    intro b hb
    have hin := h.waiting_sub b hb
    rw [hdone, List.drop_length] at hin
    cases hin

/-- Along a run that brings in blocks of the extension and proposes nothing,
everything that was brought in is delivered and the next block does not
wait. -/
theorem run_filling {first last : Node} {bs : List Block}
    (hext : Extension first bs) (hfirst : Filling first bs first 0 [])
    {more : List (Env × Input)} {out : List Effect}
    (hmore : Run Node.next first more last out)
    (honly : ∀ env m, (env, Input.message m) ∈ more → ∀ b ∈ incoming m, b ∈ bs)
    (hquiet : AllSteps Node.next first more fun node i =>
      i.2 = .tick → (node.onTick i.1).node.chain = node.chain) :
    ∃ done waiting, Filling first bs last done waiting ∧
      Idle bs done waiting ∧
      ∀ env m, (env, Input.message m) ∈ more → ∀ b ∈ incoming m,
        Delivered bs done waiting b := by
  induction hmore with
  | start => exact ⟨0, [], hfirst, by simp [Idle], by simp⟩
  | step hprev hnext ih =>
      rename_i inputs mid outputs i last out
      obtain ⟨done, waiting, h, hidle, hdelivered⟩ :=
        ih (fun env m hin => honly env m (List.mem_append_left _ hin))
          hquiet.of_append
      obtain ⟨env, input⟩ := i
      obtain ⟨rfl, -, -⟩ := next_eq_some hnext
      cases input with
      | message m =>
          have hm := honly env m
            (List.mem_append_right _ (List.mem_singleton_self _))
          obtain ⟨done', waiting', h', hidle', hnew, hkeep⟩ :=
            h.onMessage hext env hm hidle
          refine ⟨done', waiting', h', hidle', ?_⟩
          intro env' m' hin b hb
          rcases List.mem_append.mp hin with hold | hlast
          · exact hkeep b (hdelivered env' m' hold b hb)
          · rw [List.mem_singleton] at hlast
            cases hlast
            exact hnew b hb
      | tick =>
          refine ⟨done, waiting, h.onTick (hquiet.last hprev rfl), hidle, ?_⟩
          intro env' m' hin b hb
          rcases List.mem_append.mp hin with hold | hlast
          · exact hdelivered env' m' hold b hb
          · rw [List.mem_singleton] at hlast
            cases hlast

/-- From a reachable state with an empty orphan pool: whatever the order, the
repetitions and the batches in which the blocks of a valid extension arrive,
and whatever else is handled in between, short of an own proposal, the chain
ends as the old one followed by the extension, and no orphan is left. -/
theorem run_converges {netId : UInt32} {seed : Seed} {chain : BlockChain}
    {consensus : PoAConsensus} {first last : Node}
    {inputs more : List (Env × Input)} {effects out : List Effect}
    {bs : List Block}
    (hrun : Run Node.next (Node.new netId seed chain consensus) inputs first
      effects)
    (hempty : first.orphansTotal = 0)
    (hvalid : (first.chain.last :: bs).IsChain fun prev current =>
      first.consensus.validateBlock prev current = .ok ())
    (hlength : bs.length ≤ 1025)
    (hfresh : ∀ b ∈ bs, b.hash ∉ first.seenBlocks)
    (hInj : Set.InjOn calcHash (headerInputs (first.chain.last :: bs)))
    (hmore : Run Node.next first more last out)
    (honly : ∀ env m, (env, Input.message m) ∈ more → ∀ b ∈ incoming m, b ∈ bs)
    (hall : ∀ b ∈ bs, ∃ env m, (env, Input.message m) ∈ more ∧ b ∈ incoming m)
    (hquiet : AllSteps Node.next first more fun node i =>
      i.2 = .tick → (node.onTick i.1).node.chain = node.chain) :
    last.chain.blocks = first.chain.blocks ++ bs ∧
      held last.orphansByPrev = 0 ∧ last.orphansTotal = 0 := by
  have hext : Extension first bs :=
    ⟨hvalid.imp fun _ _ => (PoAConsensus.validateBlock_eq_ok_iff _ _ _).mp,
      hInj, hlength⟩
  have hfirst := Extension.filling (run_bookkeeping hrun) hempty hfresh
  obtain ⟨done, waiting, h, hidle, hdelivered⟩ :=
    run_filling hext hfirst hmore honly hquiet
  obtain ⟨hblocks, hnone⟩ := h.complete hidle (fun b hb => by
    obtain ⟨env, m, hin, hbm⟩ := hall b hb
    exact hdelivered env m hin b hbm) hext.nodup
  refine ⟨hblocks, ?_, ?_⟩
  · rw [h.pooled.held_eq, hnone, List.length_nil]
  · rw [h.pooled.total_eq, hnone, List.length_nil]

end Node

end B4n

namespace B4n.Blockchain.Sample

open B4n.Lib Transport

private def firstBlock : Block := block genesis [trx 1 "coffee"] 0 0 1
private def secondBlock : Block := block firstBlock [trx 2 "tea"] 0 1 2
private def thirdBlock : Block := block secondBlock [] 3 2 3

/-- A node that is not a validator. -/
private def receiver : Node := node 4 4 (config [1, 2, 3] 8) config_three_ok

/-- The third block, then a batch that brings the second, the first and the
second again, with a tick and a status in between. -/
private def backwards : List (Env × Input) :=
  [(env 10, .message (.net 7 (.block thirdBlock))), (env 1000, .tick),
    (env 1010, .message (.net 8 (.status 3 thirdBlock.hash))),
    (env 1020, .message
      (.net 8 (.blocks [secondBlock, firstBlock, secondBlock])))]

/-- The three blocks can be appended one after the other, and nothing
collides. -/
private theorem backwards_ok :
    (exec Node.next receiver backwards).isSome = true ∧
      receiver.identity.nodeId = none ∧
      ((receiver.chain.last :: [firstBlock, secondBlock, thirdBlock]).IsChain
        fun prev b => receiver.consensus.validateBlock prev b = .ok ()) ∧
      (((receiver.chain.last :: [firstBlock, secondBlock, thirdBlock]).map
        Block.headerToBytes).dedup.map calcHash).Nodup := by
  decide +kernel

/-- A node that is not a validator proposes nothing. -/
private theorem receiver_quiet {inputs : List (Env × Input)} :
    AllSteps Node.next receiver inputs fun node i =>
      i.2 = .tick → (node.onTick i.1).node.chain = node.chain := by
  intro before i after node outputs _ hrun _
  have hidentity := (Node.run_sameRules hrun).identity_eq
  have hnone := backwards_ok.2.1
  have hno : ¬ (Node.Turn i.1 node ∧ node.nextTrxs ≠ []) := by
    rintro ⟨hturn, -⟩
    have hnodeId := hturn.nodeId_eq
    rw [hidentity, hnone] at hnodeId
    cases hnodeId
  rcases Node.onTick_of_not_turn hno with htick | htick
  · rw [htick]
  · rw [htick]
    exact node.advanceRound_chain i.1

private theorem mem_backwards {e : Env} {m : NodeMessage}
    (h : (e, Input.message m) ∈ backwards) :
    Node.incoming m ⊆ [firstBlock, secondBlock, thirdBlock] := by
  simp only [backwards, List.mem_cons, Prod.mk.injEq, Input.message.injEq,
    reduceCtorEq, and_false, false_or, List.not_mem_nil, or_false] at h
  rcases h with ⟨-, rfl⟩ | ⟨-, rfl⟩ | ⟨-, rfl⟩ <;>
    simp [Node.incoming, ProtocolMessage.carried]

private theorem backwards_complete {b : Block}
    (hb : b ∈ [firstBlock, secondBlock, thirdBlock]) :
    ∃ e m, (e, Input.message m) ∈ backwards ∧ b ∈ Node.incoming m := by
  by_cases hthird : b = thirdBlock
  · exact ⟨_, _, List.mem_cons_self .., by simp [hthird, Node.incoming,
      ProtocolMessage.carried]⟩
  · refine ⟨env 1020, .net 8 (.blocks [secondBlock, firstBlock, secondBlock]),
      by simp [backwards], ?_⟩
    simp only [List.mem_cons, List.not_mem_nil, or_false, hthird] at hb
    rcases hb with rfl | rfl <;> simp [Node.incoming, ProtocolMessage.carried]

private theorem receiver_run : Run Node.next receiver [] receiver [] := .start

theorem run_converges_backwards :
    ∃ last out, Run Node.next receiver backwards last out ∧
      last.chain.blocks =
        receiver.chain.blocks ++ [firstBlock, secondBlock, thirdBlock] ∧
      held last.orphansByPrev = 0 ∧ last.orphansTotal = 0 := by
  obtain ⟨hlive, -, hvalid, hnodup⟩ := backwards_ok
  refine ⟨_, _, run_finish hlive, ?_⟩
  exact Node.run_converges receiver_run rfl hvalid (by decide)
    (fun _ _ => List.not_mem_nil) (injOn_headerInputs_of_nodup hnodup)
    (run_finish hlive) (fun _ _ h _ hb => mem_backwards h hb)
    (fun _ hb => backwards_complete hb) receiver_quiet

end B4n.Blockchain.Sample
