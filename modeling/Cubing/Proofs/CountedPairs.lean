import Cubing.Proofs.Normalizing

set_option autoImplicit false

/-! # Which parentheses are left

Dropping pairs of parentheses ends when there is a count behind each pair that has no other pair in
it, so there is one behind each such pair of a normalized text. Dropping the stars before counts keeps
that, and puts the digit directly behind the parenthesis (`Notation.behindPairs_normalize`).

A pair that has other pairs in it is looked at only when these are gone. So it stays although no count
follows it, if one inside it has a count (`Notation.normalize_pairs`). -/

namespace Cubing.Notation

variable {cs xs inner rest : List Char}

/-! ## Matched pairs -/

/-- A text in which every parenthesis has its partner. -/
inductive Balanced : List Char → Prop where
  | nil : Balanced []
  | cons {c : Char} {cs : List Char} (notOpen : c ≠ '(') (notClose : c ≠ ')') (rest : Balanced cs) :
    Balanced (c :: cs)
  | pair {inner cs : List Char} (inside : Balanced inner) (rest : Balanced cs) :
    Balanced ('(' :: (inner ++ ')' :: cs))

theorem Flat.balanced (h : Flat cs) : Balanced cs := by
  induction cs with
  | nil => exact .nil
  | cons c cs ih =>
    obtain ⟨⟨hopen, hclose⟩, hcs⟩ := List.forall_mem_cons.1 h
    exact .cons hopen hclose (ih hcs)

/-- A digit is the first character of a text. -/
def DigitFollows (cs : List Char) : Prop := ∃ d ∈ cs.head?, d.isDigit

/-- A pair of parentheses directly before a digit, with no other pair in it, stands in a text. -/
def HasCountedPair (cs : List Char) : Prop :=
  ∃ before inner after, cs = before ++ '(' :: (inner ++ ')' :: after) ∧ Flat inner ∧
    DigitFollows after

/-- What has partners only has no parentheses, or an innermost pair. -/
theorem Balanced.flat_or_pair (h : Balanced cs) :
    Flat cs ∨ ∃ before inner after, cs = before ++ '(' :: (inner ++ ')' :: after) ∧ Flat inner := by
  induction h with
  | nil => exact .inl (by simp [Flat])
  | @cons c cs notOpen notClose rest ih =>
    rcases ih with hflat | ⟨before, inner, after, rfl, hflat⟩
    · exact .inl (List.forall_mem_cons.2 ⟨⟨notOpen, notClose⟩, hflat⟩)
    · exact .inr ⟨c :: before, inner, after, rfl, hflat⟩
  | @pair inside cs _ _ ih _ =>
    rcases ih with hflat | ⟨before, inner, after, rfl, hflat⟩
    · exact .inr ⟨[], inside, cs, rfl, hflat⟩
    · exact .inr ⟨'(' :: before, inner, after ++ ')' :: cs, by simp, hflat⟩

/-- If a digit follows each innermost pair, it follows a matched pair as well, or one inside it. -/
theorem BehindPairs.digitFollows {before after : List Char}
    (h : BehindPairs DigitFollows (before ++ '(' :: (inner ++ ')' :: after)))
    (hinner : Balanced inner) : DigitFollows after ∨ HasCountedPair inner := by
  rcases hinner.flat_or_pair with hflat | ⟨x, y, z, rfl, hflat⟩
  · exact .inl (h inner after (List.suffix_append _ _) hflat)
  · right
    have hpair : '(' :: (y ++ ')' :: (z ++ ')' :: after)) <:+
        before ++ '(' :: (x ++ '(' :: (y ++ ')' :: z) ++ ')' :: after) :=
      ⟨before ++ '(' :: x, by simp⟩
    obtain ⟨d, hd, hdigit⟩ := h y _ hpair hflat
    refine ⟨x, y, z, rfl, hflat, ?_⟩
    cases z with
    | nil =>
      -- The digit would be the closing parenthesis of the outer pair.
      obtain rfl : ')' = d := by simpa using hd
      cases hdigit
    | cons c z => exact ⟨d, hd, hdigit⟩

/-! ## Stars -/

theorem dropStars_cons {c : Char} (hc : c ≠ ')') : dropStars (c :: cs) = c :: dropStars cs := by
  rw [dropStars]
  simp [hc]

theorem head?_dropStars (cs : List Char) : (dropStars cs).head? = cs.head? := by
  fun_induction dropStars cs <;> rfl

/-- The first closing parenthesis is where it is without the stars before counts, too. -/
theorem exists_of_dropStars_eq (hflat : Flat inner) (h : dropStars cs = inner ++ ')' :: rest) :
    ∃ rest', cs = inner ++ ')' :: rest' ∧ dropStars (')' :: rest') = ')' :: rest := by
  induction inner generalizing cs with
  | nil =>
    have hhead := head?_dropStars cs
    rw [h] at hhead
    obtain ⟨rest', rfl⟩ := List.head?_eq_some_iff.1 hhead.symm
    exact ⟨rest', rfl, h⟩
  | cons c inner ih =>
    obtain ⟨⟨-, hc⟩, hflat⟩ := List.forall_mem_cons.1 hflat
    have hhead := head?_dropStars cs
    rw [h] at hhead
    obtain ⟨cs, rfl⟩ := List.head?_eq_some_iff.1 hhead.symm
    rw [dropStars_cons hc] at h
    obtain ⟨rest', rfl, hrest⟩ := ih hflat (List.cons.inj h).2
    exact ⟨rest', rfl, hrest⟩

/-- Behind a parenthesis, a count follows directly once its star has been dropped. -/
theorem digitFollows_of_dropStars {rest' : List Char} (hcount : countFollows rest')
    (h : dropStars (')' :: rest') = ')' :: rest) : DigitFollows rest := by
  unfold countFollows at hcount
  split at hcount
  · rename_i d ds
    rw [dropStars, if_pos (Text.isDecimalDigit_of_isDigit hcount)] at h
    obtain rfl := (List.cons.inj h).2
    exact ⟨d, rfl, hcount⟩
  · rename_i d ds _
    have hstar : d ≠ '*' := by
      rintro rfl
      cases hcount
    have hclose : d ≠ ')' := by
      rintro rfl
      cases hcount
    rw [dropStars, dropStars_cons hclose] at h
    · obtain rfl := (List.cons.inj h).2
      exact ⟨d, rfl, hcount⟩
    · rintro e es - heq
      exact hstar (List.cons.inj heq).1
  · cases hcount

theorem BehindPairs.cons {P : List Char → Prop} {c : Char} (h : BehindPairs P cs) (hc : c ≠ '(') :
    BehindPairs P (c :: cs) := by
  intro inner rest hpair hflat
  rcases List.suffix_cons_iff.1 hpair with heq | hsuffix
  · exact absurd (List.cons.inj heq).1.symm hc
  · exact h inner rest hsuffix hflat

/-- **Counts stay behind their pairs as the stars before them go.** -/
theorem behindPairs_dropStars (h : BehindPairs (fun rest => countFollows rest) cs) :
    BehindPairs DigitFollows (dropStars cs) := by
  fun_induction dropStars cs with
  | case1 d cs hd ih =>
    have hopen : d ≠ '(' := by
      rintro rfl
      revert hd
      decide
    have hrest := ih (h.of_suffix (List.suffix_append [')', '*', d] cs))
    exact (hrest.cons hopen).cons (by decide)
  | case2 d cs hd ih =>
    have hrest := ih (h.of_suffix (List.suffix_append [')', '*'] (d :: cs)))
    exact (hrest.cons (by decide)).cons (by decide)
  | case3 c cs _ ih =>
    have hrest := ih (h.of_suffix (List.suffix_cons c cs))
    by_cases hc : c = '('
    · subst hc
      intro inner rest hpair hflat
      rcases List.suffix_cons_iff.1 hpair with heq | hsuffix
      · obtain ⟨rest', rfl, hdrop⟩ := exists_of_dropStars_eq hflat (List.cons.inj heq).2.symm
        exact digitFollows_of_dropStars (h inner rest' List.suffix_rfl hflat) hdrop
      · exact hrest inner rest hsuffix hflat
    · exact hrest.cons hc
  | case4 =>
    intro inner rest hpair
    cases List.suffix_nil.1 hpair

/-! ## Normalized texts -/

/-- **In a normalized text, a digit follows each innermost pair of parentheses.** -/
theorem behindPairs_normalize (cs : List Char) : BehindPairs DigitFollows (normalize cs) :=
  behindPairs_dropStars (stripPairs_eq_self_iff.1 (stripPairs_stripPlainParens _))

/-- **Which parentheses are left.** In a normalized text, a digit follows each matched pair of
    parentheses, unless there is a pair inside it that a digit follows. -/
theorem normalize_pairs {cs before inner after : List Char}
    (h : normalize cs = before ++ '(' :: (inner ++ ')' :: after)) (hinner : Balanced inner) :
    DigitFollows after ∨ HasCountedPair inner := by
  have hpairs := behindPairs_normalize cs
  rw [h] at hpairs
  exact hpairs.digitFollows hinner

/-- Two plain pairs and two stars go; the pair around all the rest stays. -/
theorem normalize_pairs_nested :
    let before := "x ".toList
    let inner := "R (U)2".toList
    let after := "3 D".toList
    normalize " x ((R) ((U))*2)*3 (D)".toList = before ++ '(' :: (inner ++ ')' :: after)
      ∧ (DigitFollows after ∨ HasCountedPair inner) := by
  intro before inner after
  have hpair : Balanced ('(' :: (['U'] ++ ')' :: ['2'])) :=
    .pair (Flat.balanced (by decide)) (Flat.balanced (by decide))
  have hinner : Balanced inner := .cons (by decide) (by decide) (.cons (by decide) (by decide) hpair)
  have hnormal : normalize " x ((R) ((U))*2)*3 (D)".toList
      = before ++ '(' :: (inner ++ ')' :: after) := by decide +kernel
  exact ⟨hnormal, normalize_pairs hnormal hinner⟩

/-- The outer pair of `((R)2 U)` has no count, and is not dropped. -/
theorem normalize_keeps_pair :
    let inner := "(R)2 U".toList
    normalize "((R)2 U)".toList = [] ++ '(' :: (inner ++ ')' :: []) ∧ Balanced inner
      ∧ ¬ DigitFollows [] := by
  intro inner
  have hpair : Balanced ('(' :: (['R'] ++ ')' :: "2 U".toList)) :=
    .pair (Flat.balanced (by decide)) (Flat.balanced (by decide))
  refine ⟨by decide +kernel, hpair, ?_⟩
  rintro ⟨d, hd, -⟩
  cases hd

end Cubing.Notation
