import Cubing.Tree

set_option autoImplicit false

/-! # Writing an algorithm

The canonical text of a tree puts one space between turns and between elements, `: ` or `, `
between the sides of a bracket, and a count directly after its closing parenthesis. An empty
sequence writes nothing, so two spaces can stand together around one. -/

namespace Cubing

/-- Turns with one space between them. -/
def Turn.listChars (ts : List Turn) : List Char := [' '].intercalate (ts.map Turn.chars)

mutual

def Node.chars : Node → List Char
  | .seq ts => Turn.listChars ts
  | .bracket k a b => ['['] ++ Node.listChars a ++ [k.separator, ' '] ++ Node.listChars b ++ [']']
  | .repeated body n => ['('] ++ Node.listChars body ++ [')'] ++ Nat.toDigits 10 n.toNat

/-- The characters that write a list of nodes, with one space between them. -/
def Node.listChars : List Node → List Char
  | [] => []
  | [n] => n.chars
  | n :: m :: ns => n.chars ++ ' ' :: Node.listChars (m :: ns)

end

/-- The canonical text of an algorithm. -/
def Tree.text (t : Tree) : String := String.ofList (Node.listChars t)

end Cubing
