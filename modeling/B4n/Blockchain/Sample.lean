import B4n.Blockchain.Linked
import B4n.Blockchain.Poa

/-!
# Sample primitives

Executable stand-ins for the external crates, on which statements about the
node can be evaluated.  Transactions are serialised as postcard does it.  The
hash is a polynomial hash and a signature names its key and the hash of what
was signed, so that it verifies under that key only.

## Main results

* `toStdvec_injective` — the serialisation of a transaction is injective.
* `signaturesVerify`, `signaturesUnforgeable` — what runs assume of signatures.
-/

namespace B4n.Blockchain.Sample

open B4n.Lib

/-- A polynomial hash modulo `2 ^ 255 - 19`. -/
def sha256 (bytes : List UInt8) : Hash32Type :=
  let digest := bytes.foldl
    (fun acc byte => (257 * acc + byte.toNat + 1) % (2 ^ 255 - 19)) 7
  ⟨beBytes 32 digest, length_beBytes 32 digest⟩

/-- `postcard::to_stdvec`: every integer is a base-128 integer, and a string is
its length followed by its UTF-8 bytes. -/
def toStdvec (trx : Transaction) : List UInt8 :=
  varint 10 trx.id.toNat ++
  (varint 10 trx.fromId.toNat ++
  (varint 10 trx.toId.toNat ++
  (varint 10 trx.text.toByteArray.size ++ trx.text.toByteArray.data.toList)))

/-- The signature of a key. -/
def sign (seed : Seed) (data : List UInt8) : SignatureType :=
  ⟨seed.toList ++ (sha256 data).toList, by simp⟩

/-- The public key of a seed is the seed. -/
scoped instance primitives : Primitives where
  sha256 := sha256
  toStdvec := toStdvec
  verifyingKey := id
  sign := sign

def verifier : Verifier where
  verify pubkey data signature := signature = sign pubkey data

theorem toStdvec_injective : Function.Injective toStdvec := by
  intro a b h
  have w64 : ∀ x : UInt64, x.toNat % 128 ^ 10 = x.toNat := fun x =>
    Nat.mod_eq_of_lt (x.toNat_lt.trans (by decide))
  unfold toStdvec at h
  obtain ⟨hId, h⟩ := varint_append_inj h
  obtain ⟨hFrom, h⟩ := varint_append_inj h
  obtain ⟨hTo, h⟩ := varint_append_inj h
  obtain ⟨-, hText⟩ := varint_append_inj h
  rw [w64, w64, UInt64.toNat_inj] at hId hFrom hTo
  have hBytes : a.text.toByteArray = b.text.toByteArray :=
    ByteArray.ext (Array.toList_inj.mp hText)
  cases a
  cases b
  simp only [Transaction.mk.injEq]
  exact ⟨hId, hFrom, hTo, String.toByteArray_inj.mp hBytes⟩

theorem signaturesVerify : SignaturesVerify verifier := by
  intro seed data
  exact decide_eq_true rfl

theorem signaturesUnforgeable : SignaturesUnforgeable verifier := by
  intro seed pubkey data signed h
  have heq : sign seed signed = sign pubkey data := of_decide_eq_true h
  have hbytes : seed.toList ++ (sha256 signed).toList =
      pubkey.toList ++ (sha256 data).toList := congrArg List.Vector.toList heq
  exact (bytes_append_inj hbytes).1

/-! ## Short byte strings -/

/-- The polynomial before it is reduced. -/
private def weigh (bytes : List UInt8) : Nat :=
  bytes.foldl (fun acc byte => 257 * acc + byte.toNat + 1) 7

private theorem weigh_snoc (bytes : List UInt8) (byte : UInt8) :
    weigh (bytes ++ [byte]) = 257 * weigh bytes + byte.toNat + 1 := by
  simp [weigh]

private theorem le_weigh (bytes : List UInt8) : 7 ≤ weigh bytes := by
  induction bytes using List.reverseRecOn with
  | nil => exact Nat.le_refl 7
  | append_singleton bytes byte ih =>
      rw [weigh_snoc]
      omega

private theorem weigh_lt (bytes : List UInt8) :
    weigh bytes < 8 * 257 ^ bytes.length := by
  induction bytes using List.reverseRecOn with
  | nil => decide
  | append_singleton bytes byte ih =>
      have hbyte := byte.toNat_lt
      rw [weigh_snoc, List.length_append, List.length_singleton, Nat.pow_succ]
      omega

/-- The digits of the polynomial are never zero, so they can be read off. -/
private theorem weigh_inj {xs ys : List UInt8} (h : weigh xs = weigh ys) :
    xs = ys := by
  induction xs using List.reverseRecOn generalizing ys with
  | nil =>
      rcases List.eq_nil_or_concat ys with rfl | ⟨bytes, byte, rfl⟩
      · rfl
      · have hle := le_weigh bytes
        rw [List.concat_eq_append, weigh_snoc] at h
        have hseven : weigh [] = 7 := rfl
        omega
  | append_singleton xs x ih =>
      have hx := x.toNat_lt
      rcases List.eq_nil_or_concat ys with rfl | ⟨bytes, byte, rfl⟩
      · have hle := le_weigh xs
        rw [weigh_snoc] at h
        have hseven : weigh [] = 7 := rfl
        omega
      · have hbyte := byte.toNat_lt
        rw [List.concat_eq_append, weigh_snoc, weigh_snoc] at h
        rw [List.concat_eq_append, ih (by omega : weigh xs = weigh bytes),
          UInt8.toNat_inj.mp (by omega : x.toNat = byte.toNat)]

/-- Short byte strings are not reduced, so their hashes differ. -/
theorem sha256_inj_of_length_le {xs ys : List UInt8} (hxs : xs.length ≤ 31)
    (hys : ys.length ≤ 31) (h : sha256 xs = sha256 ys) : xs = ys := by
  have hbound : ∀ {bytes : List UInt8}, bytes.length ≤ 31 →
      weigh bytes < 2 ^ 255 - 19 := by
    intro bytes hlen
    apply (weigh_lt bytes).trans_le
    calc 8 * 257 ^ bytes.length ≤ 8 * 257 ^ 31 :=
          Nat.mul_le_mul_left 8 (Nat.pow_le_pow_right (by omega) hlen)
      _ ≤ 2 ^ 255 - 19 := by decide
  have hdigest : ∀ {bytes : List UInt8}, bytes.length ≤ 31 →
      bytes.foldl
        (fun acc byte => (257 * acc + byte.toNat + 1) % (2 ^ 255 - 19)) 7 =
          weigh bytes := by
    intro bytes hlen
    induction bytes using List.reverseRecOn with
    | nil => rfl
    | append_singleton bytes byte ih =>
        have hless := hbound hlen
        rw [List.length_append, List.length_singleton] at hlen
        rw [weigh_snoc] at hless ⊢
        rw [List.foldl_append, ih (by omega)]
        exact Nat.mod_eq_of_lt hless
  have hbytes := congrArg List.Vector.toList h
  unfold sha256 at hbytes
  simp only [List.Vector.toList_mk] at hbytes
  rw [hdigest hxs, hdigest hys] at hbytes
  have hwide : 2 ^ 255 - 19 < 256 ^ 32 := by decide
  exact weigh_inj (beBytes_inj ((hbound hxs).trans hwide)
    ((hbound hys).trans hwide) hbytes)

/-- Collision freedom on finitely many byte strings is a finite check. -/
theorem injOn_of_nodup {xs ys : List (List UInt8)}
    (h : ((xs ++ ys).dedup.map calcHash).Nodup) :
    Set.InjOn calcHash {bytes | bytes ∈ xs ∨ bytes ∈ ys} := by
  intro x hx y hy heq
  refine List.inj_on_of_nodup_map h ?_ ?_ heq
  · exact List.mem_dedup.mpr (List.mem_append.mpr hx)
  · exact List.mem_dedup.mpr (List.mem_append.mpr hy)

theorem injOn_headerInputs_of_nodup {blocks : List Block}
    (h : ((blocks.map Block.headerToBytes).dedup.map calcHash).Nodup) :
    Set.InjOn calcHash (headerInputs blocks) := by
  rintro x ⟨a, ha, rfl⟩ y ⟨b, hb, rfl⟩ heq
  refine List.inj_on_of_nodup_map h ?_ ?_ heq
  · exact List.mem_dedup.mpr (List.mem_map_of_mem ha)
  · exact List.mem_dedup.mpr (List.mem_map_of_mem hb)

/-! ## A validator set -/

/-- The seed whose bytes are all `value`. -/
def seed (value : UInt8) : Seed := List.Vector.replicate 32 value

/-- Validators with one second slots, a three second timeout and as many
transactions in a block as given. -/
def config (seeds : List UInt8) (maxTrx : Nat) : PoAConsensusConfig where
  validators := seeds.map fun value => ⟨seed value⟩
  slotDurationMs := 1000
  timeoutMs := 3000
  maxTrxPerBlock := maxTrx

theorem config_one_ok : (config [1] 8).validateConfig = true := by
  decide +kernel

theorem config_two_ok : (config [1, 2] 8).validateConfig = true := by
  decide +kernel

theorem config_three_ok : (config [1, 2, 3] 8).validateConfig = true := by
  decide +kernel

/-- A transaction with the given text. -/
def trx (id : UInt64) (text : String) : Transaction := ⟨id, 1, 2, text⟩

/-- The signed block a validator puts after `prev`. -/
def block (prev : Block) (txs : List Transaction) (round : UInt64)
    (proposerId : UInt32) (key : UInt8) : Block :=
  let unsigned := Block.buildUnsigned 0 (prev.header.index + 1) prev.hash txs
    round proposerId
  { unsigned with
    header :=
      { unsigned.header with
        signature := sign (seed key) unsigned.headerWoSignatureToBytes } }

/-- The first block of every chain. -/
def genesis : Block := Block.newGenesis BlockHeader.newGenesis

end B4n.Blockchain.Sample
