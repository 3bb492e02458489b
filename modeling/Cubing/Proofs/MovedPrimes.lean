import Cubing.Proofs.ValidTexts

set_option autoImplicit false

/-! # Moving a prime along parentheses

Dropping pairs takes nothing but parentheses (`Notation.filter_stripPlainParens`). Which ones it
takes does not depend on the characters between them, as long as these begin no count: around a
stretch without parentheses one round does the same whatever the stretch is
(`Notation.exists_stripPairs_append`).

So a prime behind parentheses can be moved to the character before them, and a round drops the same
parentheses as before (`Notation.exists_stripPairs_move`). When all rounds are done, the two texts
are the same if no parenthesis is left between that character and the prime
(`Notation.stripPlainParens_move`). The texts are compared round by round, since it matters what is
dropped first: of `(A)(3)` the first pair would stay if the second were dropped before it. -/

namespace Cubing.Notation

variable {c : Char} {cs xs ys : List Char}

/-! ## Characters that are no parentheses -/

def isParen (c : Char) : Bool := c = '(' || c = ')'

theorem isParen_eq_false (hopen : c ≠ '(') (hclose : c ≠ ')') : isParen c = false := by
  simp [isParen, hopen, hclose]

theorem eq_of_isParen (h : isParen c) : c = '(' ∨ c = ')' := by
  simpa [isParen] using h

theorem filter_parens {parens : List Char} (h : ∀ d ∈ parens, isParen d) :
    parens.filter (!isParen ·) = [] :=
  List.filter_eq_nil_iff.2 fun d hd => by simp [h d hd]

theorem filter_stripPairs (opened : Option (List Char)) (cs : List Char) :
    (stripPairs opened cs).filter (!isParen ·) = (reopened opened ++ cs).filter (!isParen ·) := by
  fun_induction stripPairs opened cs with
  | case1 opened => simp
  | case2 opened cs ih => simp [ih, reopened]
  | case3 cs ih => simp [List.filter_cons, ih, reopened]
  | case4 cs inner hcount ih => simp [List.filter_cons, ih, reopened]
  | case5 cs inner hcount ih =>
    have hopen : isParen '(' := rfl
    have hclose : isParen ')' := rfl
    simp [ih, reopened, hopen, hclose]
  | case6 c cs _ _ ih => simp [List.filter_cons, ih, reopened]
  | case7 c cs _ _ inner ih => simp [ih, reopened]

/-- Dropping pairs takes nothing but parentheses. -/
theorem filter_stripPlainParens (cs : List Char) :
    (stripPlainParens cs).filter (!isParen ·) = cs.filter (!isParen ·) := by
  fun_induction stripPlainParens cs with
  | case1 cs next hshorter ih => exact ih.trans (filter_stripPairs none cs)
  | case2 cs next hdone => rfl

/-- Dropping pairs keeps a character that is no parenthesis, and what is before it but for
    parentheses. -/
theorem stripPlainParens_append_cons (hc : isParen c = false) (xs ys : List Char) :
    ∃ before after, stripPlainParens (xs ++ c :: ys) = before ++ c :: after
      ∧ before.filter (!isParen ·) = xs.filter (!isParen ·) := by
  have hfilter := filter_stripPlainParens (xs ++ c :: ys)
  rw [List.filter_append, List.filter_cons_of_pos (by simp [hc]),
    List.filter_eq_append_iff] at hfilter
  obtain ⟨front, back, hall, hfront, hback⟩ := hfilter
  obtain ⟨parens, after, rfl, hparens, -, -⟩ := List.filter_eq_cons_iff.1 hback
  refine ⟨front ++ parens, after, by simpa using hall, ?_⟩
  rw [List.filter_append, hfront, List.filter_eq_nil_iff.2 hparens, List.append_nil]

/-! ## One round around a stretch without parentheses -/

/-- What has been held back since an opening parenthesis has each stretch in its place, whether the
    pair is dropped or not. -/
theorem exists_stripPairs_some (held inner ys : List Char) :
    ∃ left right, left.filter (!isParen ·) = held.reverse.filter (!isParen ·)
      ∧ ∀ mid : List Char,
        stripPairs (some (inner ++ (mid.reverse ++ held))) ys = left ++ (mid ++ right) := by
  have hreopened (inner mid : List Char) :
      reopened (some (inner ++ (mid.reverse ++ held)))
        = '(' :: held.reverse ++ (mid ++ inner.reverse) := by
    simp [reopened]
  have hopen : isParen '(' := rfl
  induction ys generalizing inner with
  | nil =>
    refine ⟨'(' :: held.reverse, inner.reverse, by simp [hopen], fun mid => ?_⟩
    rw [stripPairs, hreopened]
  | cons c ys ih =>
    by_cases hleft : c = '('
    · subst hleft
      refine ⟨'(' :: held.reverse, inner.reverse ++ stripPairs (some []) ys, by simp [hopen],
        fun mid => ?_⟩
      rw [stripPairs, hreopened]
      simp
    · by_cases hright : c = ')'
      · subst hright
        by_cases hcount : countFollows ys
        · refine ⟨'(' :: held.reverse, inner.reverse ++ ')' :: stripPairs none ys, by simp [hopen],
            fun mid => ?_⟩
          simp only [stripPairs, hcount, if_true, hreopened]
          simp
        · refine ⟨held.reverse, inner.reverse ++ stripPairs none ys, rfl, fun mid => ?_⟩
          simp [stripPairs, hcount]
      · obtain ⟨left, right, hfilter, hmid⟩ := ih (c :: inner)
        refine ⟨left, right, hfilter, fun mid => ?_⟩
        rw [stripPairs_some_cons hleft hright]
        exact hmid mid

/-- **A round drops the same parentheses around each stretch without parentheses**, if no count
    begins with the stretch. -/
theorem exists_stripPairs_append (opened : Option (List Char)) (xs ys : List Char) :
    ∃ left right, left.filter (!isParen ·) = (reopened opened ++ xs).filter (!isParen ·)
      ∧ ∀ mid : List Char, Flat mid → countFollows (mid ++ ys) = false →
        stripPairs opened (xs ++ (mid ++ ys)) = left ++ (mid ++ right) := by
  have hclose : isParen ')' := rfl
  have hopen : isParen '(' := rfl
  fun_induction stripPairs opened xs with
  | case1 opened =>
    cases opened with
    | none =>
      refine ⟨[], stripPairs none ys, rfl, fun mid hflat _ => ?_⟩
      exact stripPairs_none_append hflat ys
    | some held =>
      obtain ⟨left, right, hfilter, hmid⟩ := exists_stripPairs_some held [] ys
      refine ⟨left, right, by simpa [reopened, hopen] using hfilter, fun mid hflat _ => ?_⟩
      exact (stripPairs_some_append hflat held ys).trans (hmid mid)
  | case2 opened xs ih =>
    obtain ⟨left, right, hfilter, hmid⟩ := ih
    refine ⟨reopened opened ++ left, right, by simp [hfilter, reopened], fun mid hflat hcount => ?_⟩
    rw [List.cons_append, stripPairs, hmid mid hflat hcount, List.append_assoc]
  | case3 xs ih =>
    obtain ⟨left, right, hfilter, hmid⟩ := ih
    refine ⟨')' :: left, right, by simp [hfilter, reopened, hclose], fun mid hflat hcount => ?_⟩
    rw [List.cons_append, stripPairs, hmid mid hflat hcount]
    rfl
  | case4 xs inner hfollows ih =>
    obtain ⟨left, right, hfilter, hmid⟩ := ih
    refine ⟨reopened (some inner) ++ ')' :: left, right, ?_, fun mid hflat hcount => ?_⟩
    · simp [List.filter_cons, hfilter, reopened]
    have hsame := (countFollows_append hcount xs).trans hfollows
    simp [stripPairs, hsame, hmid mid hflat hcount]
  | case5 xs inner hfollows ih =>
    obtain ⟨left, right, hfilter, hmid⟩ := ih
    refine ⟨inner.reverse ++ left, right, by simp [hfilter, reopened, hclose, hopen],
      fun mid hflat hcount => ?_⟩
    have hsame : countFollows (xs ++ (mid ++ ys)) = countFollows xs := countFollows_append hcount xs
    simp [stripPairs, hsame, hfollows, hmid mid hflat hcount]
  | case6 c xs hleft hright ih =>
    obtain ⟨left, right, hfilter, hmid⟩ := ih
    refine ⟨c :: left, right, ?_, fun mid hflat hcount => ?_⟩
    · simp [List.filter_cons, hfilter, reopened]
    · rw [List.cons_append, stripPairs_none_cons hleft hright, hmid mid hflat hcount]
      rfl
  | case7 c xs hleft hright inner ih =>
    obtain ⟨left, right, hfilter, hmid⟩ := ih
    refine ⟨left, right, by simpa [reopened] using hfilter, fun mid hflat hcount => ?_⟩
    rw [List.cons_append, stripPairs_some_cons hleft hright]
    exact hmid mid hflat hcount

/-! ## Moving a prime -/

/-- If a text begins in two ways, and one of them has one character more that is no parenthesis, it
    is the other with that character and parentheses behind it. -/
theorem exists_parens_of_append_eq {left right left' right' : List Char} (hc : isParen c = false)
    (h : left ++ right = left' ++ c :: right')
    (hfilter : left.filter (!isParen ·) = left'.filter (!isParen ·) ++ [c]) :
    ∃ parens, left = left' ++ c :: parens ∧ right' = parens ++ right
      ∧ ∀ d ∈ parens, isParen d := by
  rcases List.append_eq_append_iff.1 h with ⟨mid, rfl, -⟩ | ⟨mid, rfl, hmid⟩
  · have hlength := congrArg List.length hfilter
    simp only [List.filter_append, List.length_append, List.length_singleton] at hlength
    omega
  · cases mid with
    | nil => simp at hfilter
    | cons d mid =>
      obtain ⟨rfl, rfl⟩ := List.cons.inj hmid
      exact ⟨mid, rfl, rfl, by simpa [hc] using hfilter⟩

/-- **A round drops the same parentheses** if a prime behind some is moved before them. -/
theorem exists_stripPairs_move {parens : List Char} (hc : isParen c = false)
    (hstart : ∀ cs, countFollows (c :: cs) = false) (hparens : ∀ d ∈ parens, isParen d)
    (hys : countFollows ys = false) (before : List Char) :
    ∃ before' parens' ys', (∀ d ∈ parens', isParen d)
      ∧ stripPairs none (before ++ c :: (parens ++ '\'' :: ys))
          = before' ++ c :: (parens' ++ '\'' :: ys')
      ∧ stripPairs none (before ++ c :: '\'' :: (parens ++ ys))
          = before' ++ c :: '\'' :: (parens' ++ ys') := by
  have hflat : Flat [c] := by
    intro d hd
    obtain rfl := List.mem_singleton.1 hd
    constructor <;> rintro rfl <;> cases hc
  have hprime : Flat ['\''] := by decide
  -- The prime is put in two places of the text without it.
  obtain ⟨left, right, hleft, hbehind⟩ := exists_stripPairs_append none (before ++ c :: parens) ys
  obtain ⟨left', right', hleft', hhere⟩ := exists_stripPairs_append none before (parens ++ ys)
  have hplain := hbehind [] flat_nil hys
  have hplain' := hhere [c] hflat (hstart _)
  have hmoved := hbehind ['\''] hprime (countFollows_cons rfl (by decide) _)
  have hmoved' := hhere [c, '\''] (hflat.append hprime) (hstart _)
  simp only [List.append_assoc, List.cons_append, List.nil_append] at hplain hplain' hmoved hmoved'
  have hfilter : left.filter (!isParen ·) = left'.filter (!isParen ·) ++ [c] := by
    rw [hleft, hleft']
    simp [reopened, hc, filter_parens hparens]
  obtain ⟨parens', rfl, rfl, hparens'⟩ :=
    exists_parens_of_append_eq hc (hplain.symm.trans hplain') hfilter
  exact ⟨left', parens', right, hparens', by simpa using hmoved, hmoved'⟩

/-- No parenthesis stands directly before a prime, and no count behind one. -/
def PrimesPlaced (cs : List Char) : Prop :=
  ∀ left right, cs = left ++ '\'' :: right →
    (∀ d ∈ left.getLast?, isParen d = false) ∧ countFollows right = false

/-- A count is a stretch without parentheses. -/
theorem exists_count_of_countFollows (h : countFollows ys) :
    ∃ count rest, ys = count ++ rest ∧ Flat count ∧ ∀ cs, countFollows (count ++ cs) := by
  have hdigit {d : Char} (hd : d.isDigit) : Flat [d] := .of_isDigit (by simp [hd])
  unfold countFollows at h
  split at h
  · rename_i d rest
    have hstar : Flat ['*'] := by decide
    exact ⟨['*', d], rest, rfl, hstar.append (hdigit h), fun cs => h⟩
  · rename_i d rest _
    exact ⟨[d], rest, rfl, hdigit h, fun cs => countFollows_of_isDigit ⟨d, rfl, h⟩⟩
  · cases h

theorem exists_head?_of_countFollows (h : countFollows cs) :
    ∃ d ∈ cs.head?, d = '*' ∨ d.isDigit := by
  unfold countFollows at h
  split at h
  · exact ⟨_, rfl, .inl rfl⟩
  · exact ⟨_, rfl, .inr h⟩
  · cases h

/-- A count that is directly behind a prime stays there. -/
theorem PrimesPlaced.countFollows_eq_false (h : PrimesPlaced (stripPlainParens cs))
    (hprime : '\'' :: ys <:+ cs) : countFollows ys = false := by
  refine Bool.eq_false_iff.2 fun hcount => ?_
  obtain ⟨count, rest, rfl, hflat, hcount⟩ := exists_count_of_countFollows hcount
  obtain ⟨front, rfl⟩ := hprime
  have hstretch : Flat ('\'' :: count) := List.forall_mem_cons.2 ⟨by decide, hflat⟩
  have hinfix : '\'' :: count <:+: front ++ '\'' :: (count ++ rest) := ⟨front, rest, by simp⟩
  obtain ⟨left, right, hleft⟩ := infix_stripPlainParens hstretch hinfix
  have hnone := (h left (count ++ right) (by simp [← hleft])).2
  exact Bool.eq_false_iff.1 hnone (hcount right)

/-- **A prime that comes to stand directly behind a character is read behind it**: with the prime
    moved there, the same is left of the text. -/
theorem stripPlainParens_move {before parens : List Char} (hc : isParen c = false)
    (hstart : ∀ cs, countFollows (c :: cs) = false) (hparens : ∀ d ∈ parens, isParen d)
    (hplaced : PrimesPlaced (stripPlainParens (before ++ c :: (parens ++ '\'' :: ys)))) :
    stripPlainParens (before ++ c :: '\'' :: (parens ++ ys))
      = stripPlainParens (before ++ c :: (parens ++ '\'' :: ys)) := by
  generalize htext : before ++ c :: (parens ++ '\'' :: ys) = text at hplaced ⊢
  revert before parens ys
  fun_induction stripPlainParens text with
  | case1 text next hshorter ih =>
    intro ys before parens hparens htext
    have hys : countFollows ys = false := by
      rw [stripPlainParens_stripPairs] at hplaced
      exact hplaced.countFollows_eq_false ⟨before ++ c :: parens, by simp [← htext]⟩
    obtain ⟨before', parens', ys', hparens', hround, hround'⟩ :=
      exists_stripPairs_move hc hstart hparens hys before
    rw [htext] at hround
    rw [← stripPlainParens_stripPairs, hround']
    exact ih hplaced hparens' hround.symm
  | case2 text next hdone =>
    intro ys before parens hparens htext
    have hsame : stripPlainParens text = text := by
      rw [stripPlainParens]
      exact if_neg hdone
    -- The text stays as it is, so there are no parentheses before the prime.
    obtain rfl | ⟨parens, d, rfl⟩ := List.eq_nil_or_concat' parens
    · subst htext
      exact hsame
    · have hplain := (hplaced (before ++ c :: (parens ++ [d])) ys (by simp [← htext])).1 d
        (List.getLast?_eq_some_iff.2 ⟨before ++ c :: parens, by simp⟩)
      exact absurd (hparens d (by simp)) (Bool.eq_false_iff.1 hplain)

end Cubing.Notation
