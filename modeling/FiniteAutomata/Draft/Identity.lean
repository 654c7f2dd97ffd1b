import FiniteAutomata.Digest.Sha256
import FiniteAutomata.Draft.Record
import FiniteAutomata.Value.Canonical

/-!
# The identity of a draft

A draft is known by its kind and a digest of its canonical text, so the order
of its declarations does not count.
-/

namespace FiniteAutomata

/-- A name and the first eight bytes of the digest of a canonical text. -/
def identifier (name : String) (v : Value) : String :=
  let bytes := (sha256 v.canonicalText.toUTF8.toList).take 8
  name ++ "_" ++ String.ofList (bytes.flatMap fun b => Quoted.hex 2 b.toNat)

namespace Draft

def identityText (d : Draft) : String := d.record.canonicalText

def id (d : Draft) : String := identifier d.kind.name d.record

end Draft

end FiniteAutomata
