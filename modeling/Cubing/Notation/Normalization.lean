import Cubing.Move
import Cubing.Text.Blank
import Cubing.Text.DecimalDigit

set_option autoImplicit false

/-! # One spelling for all

People write the same algorithm in many ways. Normalization maps the common ones to the one that
tokens are read from:

- the typographic primes `’` and `′` become `'`;
- a half turn with a prime, `2'` or `'2`, becomes `2`;
- an upper-case face letter followed by `w` becomes the lower-case letter;
- parentheses that no repeat count follows are dropped;
- a star between a closing parenthesis and a count is dropped.

The steps run in this order over the whole text, after the blanks at its ends have gone, and each
replaces from left to right what does not overlap. -/

namespace Cubing.Notation

/-! ## Single characters and pairs -/

def plainPrime (c : Char) : Char := if c = '\u2019' || c = '\u2032' then '\'' else c

/-- Drops the prime next to the `2` of a half turn. -/
def dropDoublePrimes : List Char → List Char
  | '2' :: '\'' :: cs => '2' :: dropDoublePrimes cs
  | '\'' :: '2' :: cs => '2' :: dropDoublePrimes cs
  | c :: cs => c :: dropDoublePrimes cs
  | [] => []

/-- Writes wide turns with the lower-case letter only. -/
def lowerWide : List Char → List Char
  | c :: 'w' :: cs =>
    match Face.ofLetter? c with
    | some f => f.wideLetter :: lowerWide cs
    | none => c :: 'w' :: lowerWide cs
  | c :: cs => c :: lowerWide cs
  | [] => []

/-- Drops a star between a closing parenthesis and a decimal digit of any script. -/
def dropStars : List Char → List Char
  | ')' :: '*' :: d :: cs =>
    if Text.isDecimalDigit d then ')' :: d :: dropStars cs else ')' :: '*' :: dropStars (d :: cs)
  | c :: cs => c :: dropStars cs
  | [] => []

/-! ## Parentheses without a count -/

/-- Whether a repeat count begins what follows a closing parenthesis: an ASCII digit, perhaps after
    one star. -/
def countFollows : List Char → Bool
  | '*' :: c :: _ => c.isDigit
  | c :: _ => c.isDigit
  | [] => false

/-- The characters from an opening parenthesis on that may still turn out to be a pair. -/
def reopened : Option (List Char) → List Char
  | none => []
  | some inner => '(' :: inner.reverse

/-- Drops every innermost pair of parentheses that no count follows. `opened` holds what has been
    read since the last opening parenthesis, latest first, if no parenthesis has closed since. -/
def stripPairs (opened : Option (List Char)) : List Char → List Char
  | [] => reopened opened
  | '(' :: cs => reopened opened ++ stripPairs (some []) cs
  | ')' :: cs =>
    match opened with
    | none => ')' :: stripPairs none cs
    | some inner =>
      if countFollows cs then reopened opened ++ ')' :: stripPairs none cs
      else inner.reverse ++ stripPairs none cs
  | c :: cs =>
    match opened with
    | none => c :: stripPairs none cs
    | some inner => stripPairs (some (c :: inner)) cs

/-- Dropping pairs changes and moves no character that stays. -/
theorem stripPairs_sublist (opened : Option (List Char)) (cs : List Char) :
    (stripPairs opened cs).Sublist (reopened opened ++ cs) := by
  fun_induction stripPairs opened cs with
  | case1 opened => simp
  | case2 opened cs ih => exact (List.Sublist.refl _).append ih
  | case3 cs ih => exact ih.cons_cons _
  | case4 cs inner hcount ih => exact (List.Sublist.refl _).append (ih.cons_cons _)
  | case5 cs inner hcount ih => exact (List.sublist_cons_self _ _).append (ih.cons _)
  | case6 c cs hopen hclose ih => exact ih.cons_cons _
  | case7 c cs hopen hclose inner ih => simpa [reopened] using ih

/-- Dropping pairs never adds characters. -/
theorem length_stripPairs_le (opened : Option (List Char)) (cs : List Char) :
    (stripPairs opened cs).length ≤ (reopened opened).length + cs.length := by
  rw [← List.length_append]
  exact (stripPairs_sublist opened cs).length_le

/-- If no character is dropped, none is changed. -/
theorem stripPairs_eq_of_length_le (opened : Option (List Char)) (cs : List Char)
    (h : (reopened opened).length + cs.length ≤ (stripPairs opened cs).length) :
    stripPairs opened cs = reopened opened ++ cs := by
  rw [← List.length_append] at h
  exact (stripPairs_sublist opened cs).eq_of_length_le h

/-- Drops innermost pairs again and again until none is left to drop. -/
def stripPlainParens (cs : List Char) : List Char :=
  let next := stripPairs none cs
  if next.length < cs.length then stripPlainParens next else cs
termination_by cs.length

/-- No innermost pair is left to drop: a text that has not become shorter has not changed. -/
theorem stripPairs_stripPlainParens (cs : List Char) :
    stripPairs none (stripPlainParens cs) = stripPlainParens cs := by
  fun_induction stripPlainParens cs with
  | case1 cs next hshorter ih => exact ih
  | case2 cs next hdone =>
    exact stripPairs_eq_of_length_le none cs (by simpa [reopened] using hdone)

/-! ## All steps -/

def normalize (cs : List Char) : List Char :=
  dropStars (stripPlainParens (lowerWide (dropDoublePrimes ((Text.trim cs).map plainPrime))))

end Cubing.Notation
