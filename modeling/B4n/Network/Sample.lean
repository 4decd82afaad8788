import B4n.Network.Network

/-!
# A sample network

Two validators over the sample primitives.  Each knows the other over one
channel: what is put on channel 1 leads to the second node, where the first one
is peer 3, and what is put on any other channel leads to the first node, where
the second one is peer 4.
-/

namespace B4n.Blockchain.Sample

open B4n.Lib

inductive Party where
  | first
  | second
deriving DecidableEq

def Party.key : Party → UInt8
  | .first => 1
  | .second => 2

theorem Party.key_inj {i j : Party} (h : seed i.key = seed j.key) : i = j := by
  have hdiffer : seed 1 ≠ seed 2 := by decide
  cases i with
  | first =>
      cases j with
      | first => rfl
      | second => exact absurd h hdiffer
  | second =>
      cases j with
      | first => exact absurd h.symm hdiffer
      | second => rfl

def pair : Setup Party where
  validators := [⟨seed 1⟩, ⟨seed 2⟩]
  verifier := verifier
  netId := fun i => i.key.toUInt32
  seed := fun i => seed i.key
  chainId := fun _ => 1
  consensus := fun _ => consensus (config [1, 2] 8) config_two_ok
  route := fun sender => if sender = 1 then (.second, 3) else (.first, 4)
  validators_eq := fun _ => rfl
  verifier_eq := fun _ => rfl
  keys_inj := fun _ _ _ h => Party.key_inj h

end B4n.Blockchain.Sample
