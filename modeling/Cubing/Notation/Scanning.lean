import Cubing.Notation.Token

set_option autoImplicit false

/-! # Scanning by longest match

The tokens of a text can also be found with rules for whole tokens. At the cursor blanks are skipped;
of what is left, the longest beginning that a rule matches is the next token. Where no rule matches
any beginning, the character at the cursor is the error.

The cursor counts bytes, as the text is stored in UTF-8. To report an error the text is cut at the
cursor: the character is the first one behind the cut, and its position is told by the number of
characters before it. A text cannot be cut inside a character, so scanning might have no result; that
it always has one, and the same as `Token.lex`, which counts characters and never looks back, is
proved where the two are compared. -/

namespace Cubing

/-! ## Bytes -/

namespace Text

/-- How many bytes a text takes. -/
def byteCount : List Char → Nat
  | [] => 0
  | c :: cs => c.utf8Size + byteCount cs

/-- A text cut after a number of bytes, unless the cut is inside a character or beyond the end. -/
def cutAt? : Nat → List Char → Option (List Char × List Char)
  | 0, cs => some ([], cs)
  | _ + 1, [] => none
  | n + 1, c :: cs =>
    if c.utf8Size ≤ n + 1 then do
      let (before, after) ← cutAt? (n + 1 - c.utf8Size) cs
      return (c :: before, after)
    else none

end Text

namespace Token

/-! ## Matching -/

/-- The rule of each kind of token: whether it matches a text as a whole. -/
def Kind.matches (kind : Kind) (cs : List Char) : Bool :=
  match kind with
  | .turn => (Turn.ofChars? cs).isSome
  | .leftBracket => cs = ['[']
  | .rightBracket => cs = [']']
  | .colon => cs = [':']
  | .comma => cs = [',']
  | .leftParen => cs = ['(']
  | .rightParen => cs = [')']
  | .multiplier => !cs.isEmpty && cs.all Char.isDigit

/-- The token that a text is as a whole, if a rule matches it. -/
def match? (cs : List Char) : Option Token := (Kind.all.find? (·.matches cs)).map (⟨·, cs⟩)

/-- The longest match among the beginnings of a text with up to `n` characters. -/
def longestWithin? (cs : List Char) : Nat → Option Token
  | 0 => none
  | n + 1 => match? (cs.take (n + 1)) <|> longestWithin? cs n

/-- The longest match at the start of a text. -/
def longest? (cs : List Char) : Option Token := longestWithin? cs cs.length

/-! ## Scanning -/

/-- The first character behind a cut and its position, counted in characters from 1. -/
def invalidAt? (text : List Char) (cursor : Nat) : Option InvalidCharacter := do
  let (before, after) ← Text.cutAt? cursor text
  return ⟨after.headD '\x00', before.length + 1⟩

/-- Finds the tokens in the rest of a text that is behind the cursor. -/
def scanFrom (text : List Char) (cursor : Nat) :
    List Char → Option (Except InvalidCharacter (List Token))
  | [] => some (.ok [])
  | c :: cs =>
    if Text.isBlank c then scanFrom text (cursor + c.utf8Size) cs
    else
      match longest? (c :: cs) with
      | some t => do
        -- A match is not empty, so the cursor is past the first character in any case.
        let found ← scanFrom text (cursor + Text.byteCount t.chars) (cs.drop (t.chars.length - 1))
        return (t :: ·) <$> found
      | none => do return .error (← invalidAt? text cursor)
termination_by rest => rest.length
decreasing_by
  · simp
  · simp only [List.length_cons, List.length_drop]
    omega

/-- Scans a text from its start. -/
def scan (cs : List Char) : Option (Except InvalidCharacter (List Token)) := scanFrom cs 0 cs

end Token

end Cubing
