import Cubing.Notation.Normalization
import Cubing.Notation.Parsing

set_option autoImplicit false

/-! # Reading notation

Text becomes a tree in two steps, characters to tokens and tokens to elements. `Tree.ofCanonical`
takes the text as it stands; `Tree.ofChars` admits the other spellings too, by normalizing it
first. -/

namespace Cubing

/-- Why a text is no notation. -/
inductive ReadError where
  | character (e : InvalidCharacter)
  | grammar (e : SyntaxError)
  deriving DecidableEq

def ReadError.message : ReadError → String
  | character e => e.message
  | grammar e => e.message

namespace Tree

/-- Reads notation as it stands. -/
def ofCanonical (cs : List Char) : Except ReadError Tree := do
  let tokens ← (Token.lex cs).mapError .character
  (ofTokens tokens).mapError .grammar

def ofChars (cs : List Char) : Except ReadError Tree := ofCanonical (Notation.normalize cs)

def ofText (s : String) : Except ReadError Tree := ofChars s.toList

end Tree

end Cubing
