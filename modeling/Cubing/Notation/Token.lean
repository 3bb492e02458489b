import Cubing.Text.Blank
import Cubing.Turn

set_option autoImplicit false

/-! # Tokens of notation

Notation is made of turns, repeat counts and six punctuation marks. A token keeps the characters
that were read, since messages show them.

Tokens are read greedily: a token that has been started takes the next character if it may
(`Token.grow?`), and only else does that character start a token of its own (`Token.start?`). A turn
may take one suffix, a repeat count any number of digits. Blanks end a token and start none. -/

namespace Cubing

inductive Token.Kind where
  | turn
  | leftBracket
  | rightBracket
  | colon
  | comma
  | leftParen
  | rightParen
  | multiplier
  deriving DecidableEq

namespace Token.Kind

def all : List Token.Kind :=
  [turn, leftBracket, rightBracket, colon, comma, leftParen, rightParen, multiplier]

def name : Token.Kind → String
  | turn => "turn"
  | leftBracket => "left bracket"
  | rightBracket => "right bracket"
  | colon => "colon"
  | comma => "comma"
  | leftParen => "left paren"
  | rightParen => "right paren"
  | multiplier => "multiplier"

def ofName? (s : String) : Option Token.Kind := all.find? (·.name = s)

end Token.Kind

/-- A token: its kind and the characters it was read from. -/
structure Token where
  kind : Token.Kind
  chars : List Char
  deriving DecidableEq

namespace Token

def text (t : Token) : String := String.ofList t.chars

/-! ## Reading characters -/

/-- The kind of token that a character starts. -/
def startKind? (c : Char) : Option Token.Kind :=
  match c with
  | '[' => some .leftBracket
  | ']' => some .rightBracket
  | ':' => some .colon
  | ',' => some .comma
  | '(' => some .leftParen
  | ')' => some .rightParen
  | c =>
    if (Move.ofLetter? c).isSome then some .turn
    else if c.isDigit then some .multiplier
    else none

def start? (c : Char) : Option Token := (startKind? c).map (⟨·, [c]⟩)

/-- Whether a token may take one more character: a bare turn letter its suffix, a repeat count a
    digit. -/
def takes (t : Token) (c : Char) : Bool :=
  match t.kind with
  | .turn => t.chars.length = 1 && (c = '\'' || c = '2')
  | .multiplier => c.isDigit
  | _ => false

/-- The token with one more character, if it may take it. -/
def grow? (t : Token) (c : Char) : Option Token :=
  if t.takes c then some ⟨t.kind, t.chars ++ [c]⟩ else none

end Token

/-- A character that neither continues nor starts a token. -/
structure InvalidCharacter where
  character : Char
  /-- Its position in the text, counted in characters from 1. -/
  position : Nat
  deriving DecidableEq

def InvalidCharacter.message (e : InvalidCharacter) : String :=
  s!"Invalid character '{e.character}' at position {e.position}."

namespace Token

/-- Reads the tokens of a text from a position on, while `current` may still grow. -/
def lexFrom (position : Nat) (current : Option Token) :
    List Char → Except InvalidCharacter (List Token)
  | [] => .ok current.toList
  | c :: cs =>
    match current.bind (·.grow? c) with
    | some grown => lexFrom (position + 1) (some grown) cs
    | none =>
      if Text.isBlank c then (current.toList ++ ·) <$> lexFrom (position + 1) none cs
      else
        match start? c with
        | some t => (current.toList ++ ·) <$> lexFrom (position + 1) (some t) cs
        | none => .error ⟨c, position⟩

/-- Reads a text as tokens. The first character that fits nowhere is an error. -/
def lex (cs : List Char) : Except InvalidCharacter (List Token) := lexFrom 1 none cs

end Token

end Cubing
