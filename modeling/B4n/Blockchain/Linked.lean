import B4n.Blockchain.Block

/-!
# Linked blocks

Facts about a list of blocks each of which follows the one before it: indices
count positions, so no block occurs twice, and as far as SHA-256 does not
collide on the headers of the list, hashes name its blocks.

## Main results

* `hash_inj_of_isChain` — blocks of the list with one hash are one block.
* `parent_inj_of_isChain` — no two blocks of the list have one parent.
* `history_eq_of_hash_eq` — two linked lists from one genesis whose tips have
  one hash have the same headers at the same positions.
-/

namespace B4n.Blockchain

open B4n.Lib

variable [Primitives]

/-- What is hashed for the hashes of the blocks. -/
def headerInputs (blocks : List Block) : Set (List UInt8) :=
  {bytes | ∃ b ∈ blocks, b.headerToBytes = bytes}

/-- Blocks of a linked list with one index stand at one position. -/
theorem position_inj_of_isChain {blocks : List Block}
    (hlinked : blocks.IsChain Block.Follows) {i j : Nat} {a b : Block}
    (ha : blocks[i]? = some a) (hb : blocks[j]? = some b)
    (hindex : a.header.index = b.header.index) : i = j := by
  cases hblocks : blocks with
  | nil => simp [hblocks] at ha
  | cons first rest =>
      have hhead : blocks.head? = some first := by rw [hblocks]; rfl
      have hi := BlockChain.index_of_isChain hlinked hhead i a ha
      have hj := BlockChain.index_of_isChain hlinked hhead j b hb
      rw [hindex] at hi
      omega

theorem nodup_of_isChain {blocks : List Block}
    (hlinked : blocks.IsChain Block.Follows) : blocks.Nodup := by
  rw [List.nodup_iff_getElem?_ne_getElem?]
  intro i j hij hj heq
  have hb := List.getElem?_eq_getElem hj
  have hsame := position_inj_of_isChain hlinked (heq.trans hb) hb rfl
  omega

/-- A hash names at most one block of a linked list. -/
theorem hash_inj_of_isChain {blocks : List Block}
    (hlinked : blocks.IsChain Block.Follows)
    (hInj : Set.InjOn calcHash (headerInputs blocks)) {a b : Block}
    (ha : a ∈ blocks) (hb : b ∈ blocks) (hhash : a.hash = b.hash) : a = b := by
  have hheader : a.header = b.header :=
    Block.headerToBytes_inj (hInj ⟨a, ha, rfl⟩ ⟨b, hb, rfl⟩ hhash)
  obtain ⟨i, hi⟩ := List.mem_iff_getElem?.mp ha
  obtain ⟨j, hj⟩ := List.mem_iff_getElem?.mp hb
  have hij := position_inj_of_isChain hlinked hi hj (by rw [hheader])
  rw [hij, hj] at hi
  exact (Option.some.inj hi).symm

/-- The previous hash of a block is the hash of the block before it. -/
theorem follows_of_isChain {blocks : List Block}
    (hlinked : blocks.IsChain Block.Follows) {i : Nat} {parent b : Block}
    (hparent : blocks[i]? = some parent) (hb : blocks[i + 1]? = some b) :
    Block.Follows parent b := by
  obtain ⟨hi, rfl⟩ := List.getElem?_eq_some_iff.mp hparent
  obtain ⟨hi', rfl⟩ := List.getElem?_eq_some_iff.mp hb
  exact List.isChain_iff_getElem.mp hlinked i hi'

/-- Blocks with one previous hash stand at one position. -/
theorem parent_inj_of_isChain {blocks : List Block}
    (hlinked : blocks.IsChain Block.Follows)
    (hInj : Set.InjOn calcHash (headerInputs blocks)) {i j : Nat}
    {a b : Block} (ha : blocks[i + 1]? = some a) (hb : blocks[j + 1]? = some b)
    (hprev : a.header.previousHash = b.header.previousHash) : i = j := by
  have hi : i < blocks.length := by
    have hlt := (List.getElem?_eq_some_iff.mp ha).1
    omega
  have hj : j < blocks.length := by
    have hlt := (List.getElem?_eq_some_iff.mp hb).1
    omega
  have hpa := follows_of_isChain hlinked (List.getElem?_eq_getElem hi) ha
  have hpb := follows_of_isChain hlinked (List.getElem?_eq_getElem hj) hb
  have hparent : blocks[i] = blocks[j] := by
    apply hash_inj_of_isChain hlinked hInj (List.getElem_mem hi)
      (List.getElem_mem hj)
    rw [← hpa.previousHash_eq, hprev, hpb.previousHash_eq]
  exact position_inj_of_isChain hlinked (List.getElem?_eq_getElem hi)
    (List.getElem?_eq_getElem hj) (by rw [hparent])

/-! ## Two linked lists -/

/-- Below two blocks with one header, the headers agree as far as the lists
go down. -/
theorem header_eq_below {as bs : List Block}
    (has : as.IsChain Block.Follows) (hbs : bs.IsChain Block.Follows)
    (hInj : Set.InjOn calcHash (headerInputs (as ++ bs))) {top : Nat}
    {a b : Block} (ha : as[top]? = some a) (hb : bs[top]? = some b)
    (hheader : a.header = b.header) (depth : Nat) {c d : Block}
    (hc : as[top - depth]? = some c) (hd : bs[top - depth]? = some d) :
    c.header = d.header := by
  induction depth generalizing c d with
  | zero =>
      rw [Nat.sub_zero] at hc hd
      rw [hc] at ha
      rw [hd] at hb
      cases ha
      cases hb
      exact hheader
  | succ depth ih =>
      by_cases hroom : depth < top
      swap
      · have hsame : top - (depth + 1) = top - depth := by omega
        rw [hsame] at hc hd
        exact ih hc hd
      have habove : top - (depth + 1) + 1 = top - depth := by omega
      have hlt : top < as.length := (List.getElem?_eq_some_iff.mp ha).1
      have hlt' : top < bs.length := (List.getElem?_eq_some_iff.mp hb).1
      have hup : as[top - depth]? = some as[top - depth] :=
        List.getElem?_eq_getElem (by omega)
      have hup' : bs[top - depth]? = some bs[top - depth] :=
        List.getElem?_eq_getElem (by omega)
      have hnext := ih hup hup'
      have hfollows := follows_of_isChain has hc (by rw [habove]; exact hup)
      have hfollows' := follows_of_isChain hbs hd (by rw [habove]; exact hup')
      have hhash : c.hash = d.hash := by
        rw [← hfollows.previousHash_eq, ← hfollows'.previousHash_eq, hnext]
      apply Block.headerToBytes_inj
      apply hInj _ _ hhash
      · exact ⟨c, List.mem_append_left _ (List.mem_of_getElem? hc), rfl⟩
      · exact ⟨d, List.mem_append_right _ (List.mem_of_getElem? hd), rfl⟩

/-- The hash of the tip commits to every header below it and to their number,
in lists whose first blocks have one index. -/
theorem history_eq_of_hash_eq {as bs : List Block}
    (has : as.IsChain Block.Follows) (hbs : bs.IsChain Block.Follows)
    {first first' : Block} (hfirst : as.head? = some first)
    (hfirst' : bs.head? = some first')
    (hindex : first.header.index = first'.header.index)
    (hInj : Set.InjOn calcHash (headerInputs (as ++ bs))) {a b : Block}
    (ha : as[as.length - 1]? = some a) (hb : bs[bs.length - 1]? = some b)
    (hhash : a.hash = b.hash) :
    as.length = bs.length ∧ ∀ (i : Nat) (c d : Block),
      as[i]? = some c → bs[i]? = some d → c.header = d.header := by
  have hheader : a.header = b.header := by
    apply Block.headerToBytes_inj
    apply hInj _ _ hhash
    · exact ⟨a, List.mem_append_left _ (List.mem_of_getElem? ha), rfl⟩
    · exact ⟨b, List.mem_append_right _ (List.mem_of_getElem? hb), rfl⟩
  -- the index of a block counts its position, so the tips stand equally high
  have hia := BlockChain.index_of_isChain has hfirst _ a ha
  have hib := BlockChain.index_of_isChain hbs hfirst' _ b hb
  have hlt := (List.getElem?_eq_some_iff.mp ha).1
  have hlt' := (List.getElem?_eq_some_iff.mp hb).1
  rw [hheader, hib, hindex] at hia
  have hlength : as.length = bs.length := by omega
  refine ⟨hlength, ?_⟩
  intro i c d hc hd
  have hi := (List.getElem?_eq_some_iff.mp hc).1
  have hdown : as.length - 1 - (as.length - 1 - i) = i := by omega
  rw [← hlength] at hb
  apply header_eq_below has hbs hInj ha hb hheader (as.length - 1 - i)
  · rw [hdown]
    exact hc
  · rw [hdown]
    exact hd

end B4n.Blockchain
