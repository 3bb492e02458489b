import Cubing.Proofs.Normalizing

set_option autoImplicit false

/-! # Normalization on both sides of a blank

No step of normalization replaces a blank, and what a step looks for never has one inside. So a text
with a blank in it is normalized piece by piece, with one exception: the step that drops parentheses
looks for pairs, and a pair may well hold a blank. It does not if every parenthesis before the blank
is closed there (`Notation.respell_append_blank`).

Dropping pairs keeps the number of open parentheses, so whether all of them are closed can be told
from the normalized text (`Notation.unclosed_respell`). The blanks at the ends of a text, which
normalization drops before anything else, make no difference to the tokens that it spells
(`Token.renders_normalize_iff`). -/

namespace Cubing

open Text (isBlank)

namespace Notation

variable {c : Char} {xs ys : List Char}

/-! ## Characters that are no blanks -/

theorem ne_of_isBlank (hc : isBlank c) {d : Char} (hd : isBlank d = false) : c ≠ d := by
  rintro rfl
  cases hc.symm.trans hd

theorem isDecimalDigit_eq_false_of_isBlank (hc : isBlank c) : Text.isDecimalDigit c = false := by
  have hapart : ∀ r ∈ Text.blankRanges, ∀ z ∈ Text.zeroDigits, r.2 < z ∨ z + 10 ≤ r.1 := by
    decide +kernel
  refine Bool.eq_false_iff.2 fun hdigit => ?_
  obtain ⟨r, hr, hblank⟩ := List.any_eq_true.1 hc
  obtain ⟨z, hz, hdecimal⟩ := List.any_eq_true.1 hdigit
  have hranges := hapart r hr z hz
  simp only [Bool.and_eq_true, decide_eq_true_eq] at hblank hdecimal
  omega

theorem ofLetter?_eq_none_of_isBlank (hc : isBlank c) : Face.ofLetter? c = none := by
  have hall : ∀ f ∈ Face.all, isBlank f.letter = false := by decide
  refine List.find?_eq_none.2 fun f hf => ?_
  simpa using (ne_of_isBlank hc (hall f hf)).symm

/-! ## Steps that look at neighbours -/

theorem map_plainPrime_append_blank (hc : isBlank c) :
    (xs ++ c :: ys).map plainPrime = xs.map plainPrime ++ c :: ys.map plainPrime := by
  have hcurly : c ≠ '\u2019' := ne_of_isBlank hc (by decide)
  have htypographic : c ≠ '\u2032' := ne_of_isBlank hc (by decide)
  simp [plainPrime, hcurly, htypographic]

theorem dropDoublePrimes_cons (h : ∀ b ∈ ys.head?, isDoublePrime c b = false) :
    dropDoublePrimes (c :: ys) = c :: dropDoublePrimes ys := by
  rw [dropDoublePrimes]
  · rintro rest rfl rfl
    cases h _ rfl
  · rintro rest rfl rfl
    cases h _ rfl

/-- A prime is dropped on one side of a place where it does not meet a `2`. -/
theorem dropDoublePrimes_append
    (h : ∀ a ∈ xs.getLast?, ∀ b ∈ ys.head?, isDoublePrime a b = false) :
    dropDoublePrimes (xs ++ ys) = dropDoublePrimes xs ++ dropDoublePrimes ys := by
  have hrest {d : Char} {xs : List Char}
      (h : ∀ a ∈ (d :: xs).getLast?, ∀ b ∈ ys.head?, isDoublePrime a b = false) :
      ∀ a ∈ xs.getLast?, ∀ b ∈ ys.head?, isDoublePrime a b = false :=
    fun a ha => h a (by simp [List.getLast?_cons, Option.mem_def.1 ha])
  fun_induction dropDoublePrimes xs with
  | case1 xs ih => simp [dropDoublePrimes, ih (hrest (hrest h))]
  | case2 xs ih => simp [dropDoublePrimes, ih (hrest (hrest h))]
  | case3 d xs hfirst hsecond ih =>
    rw [List.cons_append, dropDoublePrimes_cons, ih (hrest h)]
    · rfl
    · intro b hb
      cases xs with
      | nil => exact h d rfl b hb
      | cons x xs =>
        obtain rfl : x = b := by simpa using hb
        refine Bool.eq_false_iff.2 fun hpair => ?_
        simp only [isDoublePrime, Bool.or_eq_true, Bool.and_eq_true, decide_eq_true_eq] at hpair
        rcases hpair with ⟨hd, hx⟩ | ⟨hd, hx⟩
        · exact hfirst xs hd (hx ▸ rfl)
        · exact hsecond xs hd (hx ▸ rfl)
  | case4 => rfl

theorem dropDoublePrimes_append_blank (hc : isBlank c) :
    dropDoublePrimes (xs ++ c :: ys) = dropDoublePrimes xs ++ c :: dropDoublePrimes ys := by
  have htwo : c ≠ '2' := ne_of_isBlank hc (by decide)
  have hprime : c ≠ '\'' := ne_of_isBlank hc (by decide)
  rw [dropDoublePrimes_append (by simp [isDoublePrime, htwo, hprime]),
    dropDoublePrimes_cons (by simp [isDoublePrime, htwo, hprime])]

/-- Only a face letter has a wide spelling. -/
theorem lowerWide_cons (hc : Face.ofLetter? c = none) : lowerWide (c :: ys) = c :: lowerWide ys := by
  induction ys generalizing c with
  | nil => simp [lowerWide]
  | cons d ys ih =>
    by_cases hd : d = 'w'
    · subst hd
      rw [lowerWide, hc, ih (by decide)]
    · rw [lowerWide]
      simpa using fun h => absurd h hd

/-- No letter becomes that of a wide turn at a place behind which there is no `w`. -/
theorem lowerWide_append (h : ∀ b ∈ ys.head?, b ≠ 'w') :
    lowerWide (xs ++ ys) = lowerWide xs ++ lowerWide ys := by
  fun_induction lowerWide xs with
  | case1 d xs f hf ih => simp [lowerWide, hf, ih]
  | case2 d xs hf ih => simp [lowerWide, hf, ih]
  | case3 d xs hnext ih =>
    rw [List.cons_append, lowerWide, ih]
    · rfl
    · intro rest heq
      cases xs with
      | nil =>
        obtain rfl : ys = 'w' :: rest := heq
        exact h 'w' rfl rfl
      | cons x xs => exact hnext xs (congrArg (· :: xs) (List.cons.inj heq).1)
  | case4 => rfl

theorem lowerWide_append_cons (hw : c ≠ 'w') (hletter : Face.ofLetter? c = none) :
    lowerWide (xs ++ c :: ys) = lowerWide xs ++ c :: lowerWide ys := by
  rw [lowerWide_append (by simpa using hw), lowerWide_cons hletter]

/-- A star is dropped on one side of a place behind which there is neither a star nor a digit. -/
theorem dropStars_append (h : ∀ b ∈ ys.head?, b ≠ '*' ∧ Text.isDecimalDigit b = false) :
    dropStars (xs ++ ys) = dropStars xs ++ dropStars ys := by
  fun_induction dropStars xs with
  | case1 d xs hd ih => simp [dropStars, hd, ih]
  | case2 d xs hd ih =>
    simp only [List.cons_append] at ih ⊢
    simp [dropStars, hd, ih]
  | case3 d xs hnext ih =>
    by_cases hend : d = ')' ∧ xs = ['*']
    · -- The star at the end is followed by no digit.
      obtain ⟨rfl, rfl⟩ := hend
      cases ys with
      | nil => simp [dropStars]
      | cons b ys => simp [dropStars, (h b rfl).2]
    · rw [List.cons_append, dropStars, ih]
      · rfl
      · rintro e rest rfl heq
        cases xs with
        | nil =>
          obtain rfl : ys = '*' :: e :: rest := heq
          exact (h '*' rfl).1 rfl
        | cons x xs =>
          obtain ⟨rfl, heq⟩ := List.cons.inj heq
          cases xs with
          | nil => exact hend ⟨rfl, rfl⟩
          | cons y xs => exact hnext y xs rfl rfl
  | case4 => rfl

theorem dropStars_append_cons (hparen : c ≠ ')') (hstar : c ≠ '*')
    (hdigit : Text.isDecimalDigit c = false) :
    dropStars (xs ++ c :: ys) = dropStars xs ++ c :: dropStars ys := by
  have hhere : dropStars (c :: ys) = c :: dropStars ys := by
    rw [dropStars]
    simp [hparen]
  rw [dropStars_append (by simp [hstar, hdigit]), hhere]

theorem lowerWide_append_blank (hc : isBlank c) :
    lowerWide (xs ++ c :: ys) = lowerWide xs ++ c :: lowerWide ys :=
  lowerWide_append_cons (ne_of_isBlank hc (by decide)) (ofLetter?_eq_none_of_isBlank hc)

theorem dropStars_append_blank (hc : isBlank c) :
    dropStars (xs ++ c :: ys) = dropStars xs ++ c :: dropStars ys :=
  dropStars_append_cons (ne_of_isBlank hc (by decide)) (ne_of_isBlank hc (by decide))
    (isDecimalDigit_eq_false_of_isBlank hc)

/-! ## Open parentheses -/

/-- The number of open parentheses after one more character. A parenthesis that closes nothing is
    ignored. -/
def depth (n : Nat) (c : Char) : Nat := if c = '(' then n + 1 else if c = ')' then n - 1 else n

/-- The number of open parentheses after a text. -/
def unclosed (n : Nat) (cs : List Char) : Nat := cs.foldl depth n

variable {n : Nat}

@[simp] theorem unclosed_nil : unclosed n [] = n := rfl

@[simp] theorem unclosed_cons : unclosed n (c :: xs) = unclosed (depth n c) xs := rfl

@[simp] theorem unclosed_append : unclosed n (xs ++ ys) = unclosed (unclosed n xs) ys :=
  List.foldl_append

@[simp] theorem depth_open : depth n '(' = n + 1 := rfl

@[simp] theorem depth_close : depth n ')' = n - 1 := rfl

theorem depth_of_ne (hopen : c ≠ '(') (hclose : c ≠ ')') : depth n c = n := by
  simp [depth, hopen, hclose]

theorem Flat.unclosed_eq (h : Flat xs) : unclosed n xs = n := by
  induction xs with
  | nil => rfl
  | cons c xs ih =>
    obtain ⟨⟨hopen, hclose⟩, hxs⟩ := List.forall_mem_cons.1 h
    rw [unclosed_cons, depth_of_ne hopen hclose, ih hxs]

/-- Dropping a pair changes nothing outside it. -/
theorem unclosed_stripPairs {opened : Option (List Char)} (h : ∀ inner ∈ opened, Flat inner) :
    unclosed n (stripPairs opened xs) = unclosed n (reopened opened ++ xs) := by
  fun_induction stripPairs opened xs generalizing n with
  | case1 opened => simp
  | case2 opened xs ih => simp [ih, reopened]
  | case3 xs ih => simp [ih, reopened]
  | case4 xs inner hcount ih => simp [ih, reopened]
  | case5 xs inner hcount ih => simp [ih, reopened, (h inner rfl).reverse.unclosed_eq]
  | case6 d xs hopen hclose ih => simp [ih, reopened]
  | case7 d xs hopen hclose inner ih =>
    rw [ih]
    · simp [reopened]
    · rintro _ ⟨⟩
      exact List.forall_mem_cons.2 ⟨⟨hopen, hclose⟩, h inner rfl⟩

theorem stripPlainParens_stripPairs (cs : List Char) :
    stripPlainParens (stripPairs none cs) = stripPlainParens cs := by
  by_cases hshorter : (stripPairs none cs).length < cs.length
  · rw [stripPlainParens.eq_def cs]
    simp [hshorter]
  · rw [stripPairs_eq_of_length_le none cs (by simpa [reopened] using hshorter)]
    rfl

theorem unclosed_stripPlainParens : unclosed n (stripPlainParens xs) = unclosed n xs := by
  fun_induction stripPlainParens xs with
  | case1 xs next hshorter ih =>
    rw [ih]
    exact unclosed_stripPairs (by simp)
  | case2 xs next hdone => rfl

theorem unclosed_dropStars : unclosed n (dropStars xs) = unclosed n xs := by
  fun_induction dropStars xs generalizing n with
  | case1 d xs hd ih => simp [ih, depth_of_ne]
  | case2 d xs hd ih => simp [ih, depth_of_ne]
  | case3 d xs hnext ih => simp [ih]
  | case4 => rfl

/-! ## The step that drops parentheses -/

theorem countFollows_append_blank (hc : isBlank c) :
    countFollows (xs ++ c :: ys) = countFollows xs :=
  countFollows_append_cons (Token.isDigit_eq_false_of_isBlank hc) (ne_of_isBlank hc (by decide)) xs ys

/-- A pair does not reach across a blank at which all parentheses are closed, nor across one that
    ends the text. -/
theorem stripPairs_append_blank {opened : Option (List Char)} (hc : isBlank c)
    (hopened : opened.isSome → 1 ≤ n) (h : unclosed n xs = 0 ∨ ys = []) :
    stripPairs opened (xs ++ c :: ys) = stripPairs opened xs ++ c :: stripPairs none ys := by
  have hleft : c ≠ '(' := ne_of_isBlank hc (by decide)
  have hright : c ≠ ')' := ne_of_isBlank hc (by decide)
  fun_induction stripPairs opened xs generalizing n with
  | case1 opened =>
    cases opened with
    | none => simp [stripPairs_none_cons hleft hright, reopened]
    | some inner =>
      -- The parenthesis that is open before the blank is never closed.
      have hn : 1 ≤ n := hopened rfl
      have hend : ys = [] := h.resolve_left (by simp; omega)
      simp [stripPairs_some_cons hleft hright, reopened, stripPairs, hend]
  | case2 opened xs ih =>
    rw [List.cons_append, stripPairs, ih (n := n + 1) (by simp) h, List.append_assoc]
  | case3 xs ih =>
    rw [List.cons_append, stripPairs, ih (n := n - 1) (by simp) h]
    rfl
  | case4 xs inner hcount ih =>
    simp [stripPairs, countFollows_append_blank hc, hcount, ih (n := n - 1) (by simp) h]
  | case5 xs inner hcount ih =>
    simp [stripPairs, countFollows_append_blank hc, hcount, ih (n := n - 1) (by simp) h]
  | case6 d xs hopen hclose ih =>
    rw [unclosed_cons, depth_of_ne hopen hclose] at h
    rw [List.cons_append, stripPairs_none_cons hopen hclose, ih hopened h]
    rfl
  | case7 d xs hopen hclose inner ih =>
    rw [unclosed_cons, depth_of_ne hopen hclose] at h
    rw [List.cons_append, stripPairs_some_cons hopen hclose]
    exact ih hopened h

theorem stripPlainParens_append_blank (hc : isBlank c) (h : unclosed 0 xs = 0 ∨ ys = []) :
    stripPlainParens (xs ++ c :: ys) = stripPlainParens xs ++ c :: stripPlainParens ys := by
  induction hlength : (xs ++ c :: ys).length using Nat.strongRecOn generalizing xs ys with
  | _ length ih =>
  subst hlength
  have hcut : stripPairs none (xs ++ c :: ys) = stripPairs none xs ++ c :: stripPairs none ys :=
    stripPairs_append_blank hc (by simp) h
  rw [stripPlainParens.eq_def (xs ++ c :: ys), hcut]
  by_cases hshorter :
      (stripPairs none xs ++ c :: stripPairs none ys).length < (xs ++ c :: ys).length
  · -- Both parts have their innermost pairs dropped, and one of them is shorter now.
    have hnext : unclosed 0 (stripPairs none xs) = 0 ∨ stripPairs none ys = [] := by
      rcases h with h | rfl
      · exact .inl ((unclosed_stripPairs (by simp)).trans h)
      · exact .inr rfl
    rw [if_pos hshorter, ih _ hshorter hnext rfl, stripPlainParens_stripPairs,
      stripPlainParens_stripPairs]
  · have hxs := length_stripPairs_le none xs
    have hys := length_stripPairs_le none ys
    have hdone {cs : List Char} (hcs : ¬ (stripPairs none cs).length < cs.length) :
        stripPlainParens cs = cs := by
      rw [stripPlainParens]
      simp [hcs]
    simp only [List.length_append, List.length_cons, reopened, List.length_nil] at hshorter hxs hys
    rw [if_neg (by simpa using hshorter), hdone (by omega), hdone (by omega)]

/-! ## All steps but the first -/

/-- The parentheses that are open at the end are open in the text as it is written, too. -/
theorem unclosed_respell :
    unclosed n (respell xs) = unclosed n (lowerWide (dropDoublePrimes (xs.map plainPrime))) := by
  rw [respell, unclosed_dropStars, unclosed_stripPlainParens]

/-- **A text is normalized on both sides of a blank separately**, if all parentheses are closed there
    or the text ends there. -/
theorem respell_append_blank (hc : isBlank c) (h : unclosed 0 (respell xs) = 0 ∨ ys = []) :
    respell (xs ++ c :: ys) = respell xs ++ c :: respell ys := by
  rw [unclosed_respell] at h
  have hparens : unclosed 0 (lowerWide (dropDoublePrimes (xs.map plainPrime))) = 0 ∨
      lowerWide (dropDoublePrimes (ys.map plainPrime)) = [] := by
    rcases h with h | rfl
    · exact .inl h
    · exact .inr rfl
  rw [respell, map_plainPrime_append_blank hc, dropDoublePrimes_append_blank hc,
    lowerWide_append_blank hc, stripPlainParens_append_blank hc hparens, dropStars_append_blank hc]
  rfl

@[simp] theorem respell_nil : respell [] = [] := by
  simp [respell, dropDoublePrimes, lowerWide, stripPlainParens, stripPairs, reopened, dropStars]

theorem respell_cons_blank (hc : isBlank c) : respell (c :: ys) = c :: respell ys := by
  have hcut : respell ([] ++ c :: ys) = respell [] ++ c :: respell ys :=
    respell_append_blank hc (.inl (by simp))
  simpa using hcut

theorem respell_append_singleton (hc : isBlank c) : respell (xs ++ [c]) = respell xs ++ [c] := by
  simpa using respell_append_blank hc (.inr rfl)

end Notation

namespace Token

open Notation

variable {tokens : List Token} {cs : List Char}

/-- The blanks at the ends of a text make no difference to what it spells once it is normalized. -/
theorem renders_normalize_iff : Renders tokens (normalize cs) ↔ Renders tokens (respell cs) := by
  rw [normalize_eq_respell_trim]
  constructor
  · -- What the trimmed text spells is spelled with every blank put back.
    refine Text.trim_induction (motive := fun ds => Renders tokens (respell ds) →
      Renders tokens (respell cs)) ?_ ?_ id
    · intro c ds hc h hrest
      refine h ?_
      rw [respell_cons_blank hc]
      exact .blank hc hrest
    · intro c ds hc h hrest
      refine h ?_
      rw [respell_append_singleton hc]
      simpa using hrest.append_blank hc .nil
  · intro h
    refine Text.trim_induction (motive := fun ds => Renders tokens (respell ds)) ?_ ?_ h
    · intro c ds hc h
      rw [respell_cons_blank hc] at h
      exact h.of_blank hc
    · intro c ds hc h
      rw [respell_append_singleton hc] at h
      exact h.of_append_blank hc

end Token

end Cubing
