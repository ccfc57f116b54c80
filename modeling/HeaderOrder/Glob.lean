import HeaderOrder.Glob.Braces
import HeaderOrder.Glob.Token

/-! # Glob patterns -/

namespace HeaderOrder

/-- A pattern as it was written, and the tokens of each alternative. -/
structure Glob where
  source : Text
  alternatives : List (List Glob.Token)

namespace Glob

/-- The empty pattern has no alternative, so it matches nothing. -/
def ofText (pattern : Text) : Glob :=
  ⟨pattern, if pattern = [] then [] else (Braces.expand pattern).map Token.scan⟩

def isEmpty (g : Glob) : Bool := g.alternatives.isEmpty

/-- The whole path is accepted by one of the alternatives. -/
def accepts (g : Glob) (path : Text) : Bool := g.alternatives.any (Token.accepts · path)

/-- A pattern in which braces are ordinary bytes. -/
def acceptsPlain (pattern path : Text) : Bool := Token.accepts (Token.scan pattern) path

end Glob

end HeaderOrder
