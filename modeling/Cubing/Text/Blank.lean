set_option autoImplicit false

/-! # Blank characters

A character is blank if it has the Unicode property `White_Space`. Blanks separate elements of
notation and carry no other meaning. -/

namespace Cubing.Text

/-- The ranges of blank characters: the controls from tab to carriage return, space, next line,
    no-break space, and the spaces and separators of the general and ideographic blocks. -/
def blankRanges : List (Nat × Nat) :=
  [
    (0x0009, 0x000D), (0x0020, 0x0020), (0x0085, 0x0085), (0x00A0, 0x00A0), (0x1680, 0x1680),
    (0x2000, 0x200A), (0x2028, 0x2029), (0x202F, 0x202F), (0x205F, 0x205F), (0x3000, 0x3000)
  ]

def isBlank (c : Char) : Bool := blankRanges.any fun r => r.1 ≤ c.toNat && c.toNat ≤ r.2

/-- Characters without the blanks at both ends. -/
def trim (cs : List Char) : List Char :=
  ((cs.dropWhile isBlank).reverse.dropWhile isBlank).reverse

/-- What holds of a text and stays true as a blank goes from either end holds of the trimmed text. -/
theorem trim_induction {motive : List Char → Prop}
    (front : ∀ {c cs}, isBlank c → motive (c :: cs) → motive cs)
    (back : ∀ {c cs}, isBlank c → motive (cs ++ [c]) → motive cs) {cs : List Char}
    (h : motive cs) : motive (trim cs) := by
  have hfront (cs : List Char) (h : motive cs) : motive (cs.dropWhile isBlank) := by
    induction cs with
    | nil => exact h
    | cons c cs ih =>
      by_cases hc : isBlank c
      · rw [List.dropWhile_cons_of_pos hc]
        exact ih (front hc h)
      · rwa [List.dropWhile_cons_of_neg hc]
  have hback (cs : List Char) (h : motive cs.reverse) :
      motive (cs.dropWhile isBlank).reverse := by
    induction cs with
    | nil => exact h
    | cons c cs ih =>
      by_cases hc : isBlank c
      · rw [List.dropWhile_cons_of_pos hc]
        exact ih (back hc (List.reverse_cons ▸ h))
      · rwa [List.dropWhile_cons_of_neg hc]
  refine hback _ ?_
  rw [List.reverse_reverse]
  exact hfront cs h

end Cubing.Text
