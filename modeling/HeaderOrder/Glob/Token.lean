import HeaderOrder.Text

/-! # The tokens of a pattern -/

namespace HeaderOrder.Glob

open Byte

inductive Token where
  /-- Two stars and a slash: nothing, or whole directories. -/
  | directories
  /-- Two stars: any bytes. -/
  | anything
  /-- One star: any bytes but slashes. -/
  | name
  /-- A question mark: one byte that is not a slash. -/
  | one
  /-- Any other byte: itself. -/
  | byte (b : Byte)
  deriving DecidableEq, Repr

namespace Token

/-! ## Reading -/

/-- The tokens of a pattern. Two stars (42) are taken together, and so is a slash (47) after them;
63 is the question mark. -/
def scan : Text → List Token
  | 42 :: 42 :: 47 :: t => directories :: scan t
  | 42 :: 42 :: t => anything :: scan t
  | 42 :: t => name :: scan t
  | 63 :: t => one :: scan t
  | b :: t => byte b :: scan t
  | [] => []

/-! ## Accepting -/

/-- The text itself and what is left after any of its beginnings. -/
def suffixes : Text → List Text
  | [] => [[]]
  | b :: t => (b :: t) :: suffixes t

def afterSlashes : Text → List Text
  | [] => []
  | b :: t => if b = slash then t :: afterSlashes t else afterSlashes t

/-- What is left after any beginning without a slash. -/
def nameSuffixes : Text → List Text
  | [] => [[]]
  | b :: t => (b :: t) :: if b = slash then [] else nameSuffixes t

/-- What is left of a text after each piece that the token can take off its front. -/
def rests : Token → Text → List Text
  | directories, t => t :: afterSlashes t
  | anything, t => suffixes t
  | name, t => nameSuffixes t
  | one, [] => []
  | one, b :: t => if b = slash then [] else [t]
  | byte _, [] => []
  | byte a, b :: t => if a = b then [t] else []

/-- The tokens take the whole text, one piece each. -/
def accepts : List Token → Text → Bool
  | [], t => t.isEmpty
  | k :: ks, t => (k.rests t).any (accepts ks)

end Token

end HeaderOrder.Glob
