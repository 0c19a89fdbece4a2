import Monomorph.Digest

/-!
# Provenance

What a result was made from and by: the digest of the source text and the version of the program.
-/

namespace Monomorph

/-- Where a result comes from. -/
structure Provenance where
  sourceHash : String
  compilerVersion : String
deriving DecidableEq, Repr

/-- The version of this program. -/
def version : String := "0.1.0"

/-- The provenance of everything made from a source text. -/
def Provenance.ofSource (source : String) : Provenance := ⟨Digest.ofText source, version⟩

end Monomorph
