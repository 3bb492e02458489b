import Cubing.Proofs.AnySpelling
import Cubing.Proofs.MovedPrimes

set_option autoImplicit false

/-! # Primes behind groups

Notation inverts turns, and has no way to invert a group. A prime that is read stands behind the
letter of a turn, once the text is normalized (`Token.Renders.before_prime`). A prime behind a group
can still get there, or get lost, because the steps of normalization do not know what a group is.

- If there is a `2` beside the prime, even the count of the group, the prime is lost. Nothing else
  changes, since a text with one more prime beside the `2` is not read
  (`Notation.respell_of_double`).
- Else, all that is taken away from between the prime and what is before it are parentheses. So the
  last character before it that is no parenthesis is the letter of a turn in the text as it is
  written, too, or the `w` behind one, and the text becomes what it would with the prime moved there
  (`Notation.exists_move_of_prime`).

So a text with a prime behind a group is read just as one of these texts, if that is normalized to
the same, and is rejected if none is (`Notation.TakenFor`, `Tree.ofText_primed_group`). -/

namespace Cubing

open Text (isBlank)

namespace Notation

variable {c d p : Char} {cs xs ys parens : List Char} {tokens : List Token}

/-! ## What the first steps do to the last character -/

/-- A prime that goes leaves the `2` beside it. -/
theorem getLast?_dropDoublePrimes (cs : List Char) :
    (dropDoublePrimes cs).getLast? = cs.getLast?
      ∨ (dropDoublePrimes cs).getLast? = some '2' := by
  fun_induction dropDoublePrimes cs with
  | case1 cs ih | case2 cs ih =>
    rcases ih with h | h <;> cases hcs : cs.getLast? <;> simp [List.getLast?_cons, h, hcs]
  | case3 c cs _ _ ih => rcases ih with h | h <;> simp [List.getLast?_cons, h]
  | case4 => exact .inl rfl

/-- The `w` of a wide turn goes with its letter. -/
theorem getLast?_lowerWide (cs : List Char) :
    (lowerWide cs).getLast? = cs.getLast?
      ∨ cs.getLast? = some 'w' ∧ ∃ f : Face, (lowerWide cs).getLast? = some f.wideLetter := by
  fun_induction lowerWide cs with
  | case1 c cs f hf ih =>
    rcases ih with h | ⟨h, g, hg⟩
    · cases hcs : cs.getLast? <;> simp [List.getLast?_cons, h, hcs]
    · simp [List.getLast?_cons, h, hg]
  | case2 c cs hf ih | case3 c cs _ ih =>
    rcases ih with h | ⟨h, g, hg⟩
    · simp [List.getLast?_cons, h]
    · simp [List.getLast?_cons, h, hg]
  | case4 => exact .inl rfl

theorem getLast?_dropStars (cs : List Char) : (dropStars cs).getLast? = cs.getLast? := by
  fun_induction dropStars cs with
  | case1 d cs hd ih => simp [List.getLast?_cons, ih]
  | case2 d cs hd ih => simp [List.getLast?_cons, ih]
  | case3 c cs _ ih => rw [List.getLast?_cons, List.getLast?_cons, ih]
  | case4 => rfl

theorem eq_of_plainPrime (h : plainPrime c = d) (hd : d ≠ '\'') : c = d := by
  unfold plainPrime at h
  split at h
  · exact absurd h.symm hd
  · exact h

/-- Besides primes and the `2` beside one, only the `w` of a wide turn is changed at the end. -/
theorem getLast?_of_respellTurns (h : (respellTurns cs).getLast? = some c) (htwo : c ≠ '2')
    (hprime : c ≠ '\'') :
    cs.getLast? = some c ∨ cs.getLast? = some 'w' ∧ ∃ f : Face, f.wideLetter = c := by
  have hplain {d : Char} (hd : d ≠ '2') (hprime : d ≠ '\'')
      (h : (dropDoublePrimes (cs.map plainPrime)).getLast? = some d) : cs.getLast? = some d := by
    rcases getLast?_dropDoublePrimes (cs.map plainPrime) with hsame | hlast
    · rw [hsame, List.getLast?_map] at h
      obtain ⟨e, he, hed⟩ := Option.map_eq_some_iff.1 h
      exact eq_of_plainPrime hed hprime ▸ he
    · exact absurd (Option.some.inj (h.symm.trans hlast)) hd
  rcases getLast?_lowerWide (dropDoublePrimes (cs.map plainPrime)) with hsame | ⟨hw, f, hwide⟩
  · exact .inl (hplain htwo hprime (hsame.symm.trans h))
  · exact .inr ⟨hplain (by decide) (by decide) hw, f, Option.some.inj (hwide.symm.trans h)⟩

theorem isParen_letter (m : Move) : isParen m.letter = false :=
  isParen_eq_false (Token.letter_ne (by decide) m) (Token.letter_ne (by decide) m)

/-- The first steps put no parenthesis at the end. -/
theorem isParen_of_respellTurns (h : ∀ d ∈ cs.getLast?, isParen d = false) :
    ∀ d ∈ (respellTurns cs).getLast?, isParen d = false := by
  intro d hd
  refine Bool.eq_false_iff.2 fun hparen => ?_
  have hne {c : Char} (hc : isParen c = false) : d ≠ c := by
    rintro rfl
    cases hparen.symm.trans hc
  have hwide (f : Face) : isParen f.wideLetter = false := by cases f <;> rfl
  rcases getLast?_of_respellTurns hd (hne rfl) (hne rfl) with hsame | ⟨-, f, hf⟩
  · cases hparen.symm.trans (h d hsame)
  · exact hne (hwide f) hf.symm

/-! ## Primes that are kept -/

/-- A prime in any of its spellings. -/
def IsPrime (c : Char) : Prop := c ∈ ['\'', '\u2019', '\u2032']

instance (c : Char) : Decidable (IsPrime c) :=
  inferInstanceAs (Decidable (c ∈ ['\'', '\u2019', '\u2032']))

theorem isPrime_iff : IsPrime c ↔ plainPrime c = '\'' := by
  constructor
  · intro h
    simp only [IsPrime, List.mem_cons, List.not_mem_nil, or_false] at h
    rcases h with rfl | rfl | rfl <;> rfl
  · intro h
    unfold plainPrime at h
    split at h
    · rename_i hc
      simp only [Bool.or_eq_true, decide_eq_true_eq] at hc
      simp [IsPrime, hc]
    · simp [IsPrime, h]

theorem plainPrime_eq_two_iff : plainPrime c = '2' ↔ c = '2' := by
  constructor
  · intro h
    exact eq_of_plainPrime h (by decide)
  · rintro rfl
    rfl

/-- A prime, however it is spelled, is dropped on one side of a place where it meets no `2`. -/
theorem dropDoublePrimes_map_append
    (h : ∀ a ∈ xs.getLast?, ∀ b ∈ ys.head?, isDoublePrime (plainPrime a) (plainPrime b) = false) :
    dropDoublePrimes ((xs ++ ys).map plainPrime)
      = dropDoublePrimes (xs.map plainPrime) ++ dropDoublePrimes (ys.map plainPrime) := by
  have hplain : ∀ a ∈ (xs.map plainPrime).getLast?, ∀ b ∈ (ys.map plainPrime).head?,
      isDoublePrime a b = false := by
    intro a ha b hb
    rw [List.getLast?_map] at ha
    rw [List.head?_map] at hb
    obtain ⟨c, hc, rfl⟩ := Option.map_eq_some_iff.1 ha
    obtain ⟨d, hd, rfl⟩ := Option.map_eq_some_iff.1 hb
    exact h c hc d hd
  rw [List.map_append, dropDoublePrimes_append hplain]

/-- The first steps keep a prime that is not beside a `2`. -/
theorem respellTurns_append_prime (hp : IsPrime p) (hbefore : xs.getLast? ≠ some '2')
    (hafter : ys.head? ≠ some '2') :
    respellTurns (xs ++ p :: ys) = respellTurns xs ++ '\'' :: respellTurns ys := by
  have hplain := isPrime_iff.1 hp
  have hleft : ∀ a ∈ xs.getLast?, ∀ b ∈ (p :: ys).head?,
      isDoublePrime (plainPrime a) (plainPrime b) = false := by
    rintro a ha _ ⟨⟩
    have htwo : a ≠ '2' := fun htwo => hbefore (htwo ▸ ha)
    simp [isDoublePrime, hplain, plainPrime_eq_two_iff, htwo]
  have hright : ∀ b ∈ (ys.map plainPrime).head?, isDoublePrime '\'' b = false := by
    intro b hb
    rw [List.head?_map] at hb
    obtain ⟨c, hc, rfl⟩ := Option.map_eq_some_iff.1 hb
    have htwo : c ≠ '2' := fun htwo => hafter (htwo ▸ hc)
    simp [isDoublePrime, plainPrime_eq_two_iff, htwo]
  rw [respellTurns, dropDoublePrimes_map_append hleft, List.map_cons, hplain,
    dropDoublePrimes_cons hright, lowerWide_append_cons (by decide) (by decide)]
  rfl

/-- The first steps do nothing to parentheses. -/
theorem respellTurns_parens_append (hparens : ∀ d ∈ parens, isParen d) (ys : List Char) :
    respellTurns (parens ++ ys) = parens ++ respellTurns ys := by
  induction parens with
  | nil => rfl
  | cons c parens ih =>
    obtain ⟨hc, hparens⟩ := List.forall_mem_cons.1 hparens
    obtain ⟨hplain, htwo, hprime, hletter⟩ :
        plainPrime c = c ∧ c ≠ '2' ∧ c ≠ '\'' ∧ Face.ofLetter? c = none := by
      rcases eq_of_isParen hc with rfl | rfl <;> decide
    rw [List.cons_append, respellTurns, List.map_cons, hplain,
      dropDoublePrimes_cons (by simp [isDoublePrime, htwo, hprime]), lowerWide_cons hletter]
    exact congrArg (c :: ·) (ih hparens)

/-- The first steps do not reach across parentheses. -/
theorem respellTurns_append_parens (hparens : ∀ d ∈ parens, isParen d) (xs : List Char) :
    respellTurns (xs ++ parens) = respellTurns xs ++ parens := by
  have hfresh : Fresh parens := by
    intro c hc
    rcases eq_of_isParen (hparens c (List.mem_of_head? hc)) with rfl | rfl <;> decide
  have hsame : respellTurns parens = parens := by
    simpa using respellTurns_parens_append hparens []
  rw [respellTurns_append hfresh, hsame]

theorem respell_behind_parens (hparens : ∀ d ∈ parens, isParen d) (hp : IsPrime p)
    (hbefore : (xs ++ parens).getLast? ≠ some '2') (hafter : ys.head? ≠ some '2') :
    respell (xs ++ parens ++ p :: ys)
      = dropStars (stripPlainParens (respellTurns xs ++ parens ++ '\'' :: respellTurns ys)) := by
  rw [← respellTurns_append_parens hparens, ← respellTurns_append_prime hp hbefore hafter]
  rfl

theorem respell_before_parens (hparens : ∀ d ∈ parens, isParen d) (hp : IsPrime p)
    (hbefore : xs.getLast? ≠ some '2') (hafter : ys.head? ≠ some '2') :
    respell (xs ++ p :: (parens ++ ys))
      = dropStars (stripPlainParens (respellTurns xs ++ '\'' :: (parens ++ respellTurns ys))) := by
  have hhead : (parens ++ ys).head? ≠ some '2' := by
    cases parens with
    | nil => exact hafter
    | cons d parens =>
      rintro ⟨⟩
      cases hparens '2' List.mem_cons_self
  rw [← respellTurns_parens_append hparens, ← respellTurns_append_prime hp hbefore hhead]
  rfl

/-- The parentheses at the end of a text. -/
theorem exists_parens (xs : List Char) :
    ∃ stem parens, xs = stem ++ parens ∧ (∀ d ∈ parens, isParen d)
      ∧ ∀ d ∈ stem.getLast?, isParen d = false := by
  induction xs using List.reverseRecOn with
  | nil => exact ⟨[], [], rfl, by simp, by simp⟩
  | append_singleton xs c ih =>
    by_cases hc : isParen c
    · obtain ⟨stem, parens, rfl, hparens, hstem⟩ := ih
      refine ⟨stem, parens ++ [c], List.append_assoc _ _ _, ?_, hstem⟩
      simpa [or_imp, forall_and, hc] using hparens
    · exact ⟨xs ++ [c], [], by simp, by simp, by simpa using hc⟩

theorem getLast?_filter_isParen (h : ∀ d ∈ cs.getLast?, isParen d = false) :
    (cs.filter (!isParen ·)).getLast? = cs.getLast? := by
  rcases List.eq_nil_or_concat' cs with rfl | ⟨cs, d, rfl⟩
  · rfl
  · simp [h d (by simp)]

/-- In notation, no parenthesis stands before a prime and no count behind it. -/
theorem primesPlaced_of_renders (h : Token.Renders tokens (dropStars cs))
    (hcounts : Token.CountsPlaced tokens) : PrimesPlaced cs := by
  rintro left right rfl
  rw [dropStars_append_cons (by decide) (by decide) (by decide)] at h
  constructor
  · obtain ⟨m, hletter⟩ := h.before_prime
    rw [getLast?_dropStars] at hletter
    intro d hd
    obtain rfl : m.letter = d := Option.some.inj (hletter.symm.trans hd)
    exact isParen_letter m
  · refine Bool.eq_false_iff.2 fun hcount => ?_
    obtain ⟨d, hd, hstart⟩ : ∃ d ∈ (dropStars right).head?, d = '*' ∨ d.isDigit := by
      rw [head?_dropStars]
      exact exists_head?_of_countFollows hcount
    rcases hstart with rfl | hdigit
    · have hmem : '*' ∈ dropStars left ++ '\'' :: dropStars right := by
        simp [List.mem_of_head? hd]
      rcases h.starts_of_mem hmem with hblank | hprime | ⟨kind, hkind⟩
      · cases hblank
      · cases hprime
      · cases hkind
    · cases hdigit.symm.trans (h.behind_prime hcounts d hd)

/-- What the last steps make notation of has a letter before each prime, and parentheses. -/
theorem exists_letter_of_renders
    (h : Token.Renders tokens (dropStars (stripPlainParens (xs ++ '\'' :: ys)))) :
    ∃ m : Move, (xs.filter (!isParen ·)).getLast? = some m.letter := by
  have hprime : isParen '\'' = false := rfl
  obtain ⟨before, after, hdropped, hsame⟩ := stripPlainParens_append_cons hprime xs ys
  rw [hdropped, dropStars_append_cons (by decide) (by decide) (by decide)] at h
  obtain ⟨m, hletter⟩ := h.before_prime
  rw [getLast?_dropStars] at hletter
  obtain ⟨before, rfl⟩ := List.getLast?_eq_some_iff.1 hletter
  refine ⟨m, ?_⟩
  simp [← hsame, isParen_letter m]

/-- The first steps make letters of letters and of `w` only. -/
theorem exists_getLast?_of_letter {m : Move}
    (h : (respellTurns cs).getLast? = some m.letter) :
    ∃ c, cs.getLast? = some c ∧ (c = 'w' ∨ ∃ m : Move, m.letter = c) := by
  have htwo : m.letter ≠ '2' := Token.letter_ne (by decide) m
  have hprime : m.letter ≠ '\'' := Token.letter_ne (by decide) m
  rcases getLast?_of_respellTurns h htwo hprime with hsame | ⟨hw, -⟩
  · exact ⟨m.letter, hsame, .inr ⟨m, rfl⟩⟩
  · exact ⟨'w', hw, .inl rfl⟩

/-- **A prime that is not lost is read behind the last character before it that is no parenthesis**,
    which is the letter of a turn or its `w`. -/
theorem exists_move_of_prime (h : Token.Renders tokens (respell (xs ++ p :: ys)))
    (hcounts : Token.CountsPlaced tokens) (hp : IsPrime p) (hbefore : xs.getLast? ≠ some '2')
    (hafter : ys.head? ≠ some '2') :
    ∃ front c parens, xs = front ++ c :: parens ∧ (∀ d ∈ parens, isParen d)
      ∧ (c = 'w' ∨ ∃ m : Move, m.letter = c)
      ∧ respell (front ++ c :: p :: (parens ++ ys)) = respell (xs ++ p :: ys) := by
  obtain ⟨stem, parens, rfl, hparens, hstem⟩ := exists_parens xs
  rw [respell_behind_parens hparens hp hbefore hafter] at h ⊢
  obtain ⟨m, hletter⟩ := exists_letter_of_renders h
  rw [List.filter_append, filter_parens hparens, List.append_nil,
    getLast?_filter_isParen (isParen_of_respellTurns hstem)] at hletter
  obtain ⟨c, hlast, hc⟩ := exists_getLast?_of_letter hletter
  obtain ⟨before, hbefore⟩ := List.getLast?_eq_some_iff.1 hletter
  obtain ⟨front, rfl⟩ := List.getLast?_eq_some_iff.1 hlast
  refine ⟨front, c, parens, by simp, hparens, hc, ?_⟩
  have htwo : (front ++ [c]).getLast? ≠ some '2' := by
    rw [hlast]
    rintro ⟨⟩
    rcases hc with hw | ⟨m, htwo⟩
    · cases hw
    · exact Token.letter_ne (by decide) m htwo
  have hmoved := respell_before_parens hparens hp htwo hafter
  have hstart (cs : List Char) : countFollows (m.letter :: cs) = false :=
    countFollows_cons (Token.isDigit_letter m) (Token.letter_ne (by decide) m) cs
  have hplaced := primesPlaced_of_renders h hcounts
  rw [hbefore] at hplaced hmoved ⊢
  simp only [List.append_assoc, List.cons_append, List.nil_append] at hplaced hmoved ⊢
  rw [hmoved, stripPlainParens_move (isParen_letter m) hstart hparens hplaced]

/-! ## Primes that are lost -/

/-- A `2` takes the prime that is next once the rest has been gone through, unless there is a prime
    behind it that stays. -/
theorem dropDoublePrimes_two (cs : List Char) :
    dropDoublePrimes ('2' :: cs) = '2' :: dropDoublePrimes cs
      ∨ ['2', '\''] <:+: '2' :: dropDoublePrimes cs := by
  fun_induction dropDoublePrimes cs with
  | case1 cs ih =>
    left
    rw [dropDoublePrimes_cons (by simp [isDoublePrime]), dropDoublePrimes]
  | case2 cs ih =>
    rw [dropDoublePrimes]
    exact ih.imp (congrArg ('2' :: ·)) List.infix_cons
  | case3 c cs htwo hprime ih =>
    by_cases hc : c = '\''
    · subst hc
      exact .inr ⟨[], dropDoublePrimes cs, rfl⟩
    · left
      have hcs : dropDoublePrimes (c :: cs) = c :: dropDoublePrimes cs := by
        rw [dropDoublePrimes] <;> assumption
      rw [dropDoublePrimes_cons (by simp [isDoublePrime, hc]), hcs]
  | case4 => exact .inl rfl

/-- No digit stands directly before a prime in a text that spells tokens. -/
theorem not_renders_two_prime (h : ['2', '\''] <:+: cs) :
    ¬ Token.Renders tokens (dropStars (stripPlainParens (lowerWide cs))) := by
  obtain ⟨front, rest, rfl⟩ := h
  have hwide : ['2', '\''] <:+: lowerWide (front ++ ['2', '\''] ++ rest) := by
    rw [List.append_assoc, List.cons_append, lowerWide_append_cons (by decide) (by decide),
      List.cons_append, lowerWide_cons (by decide)]
    exact ⟨lowerWide front, lowerWide rest, by simp⟩
  obtain ⟨left, right, hdropped⟩ := infix_stripPlainParens (by decide) hwide
  have hsplit : left ++ ['2', '\''] ++ right = left ++ ['2'] ++ '\'' :: right := by simp
  rw [← hdropped, hsplit, dropStars_append_cons (by decide) (by decide) (by decide)]
  intro hrenders
  obtain ⟨m, hletter⟩ := hrenders.before_prime
  rw [getLast?_dropStars, List.getLast?_concat] at hletter
  exact Token.letter_ne (by decide) m (Option.some.inj hletter).symm

/-- **A prime beside a `2` is lost**: the text without it is read alike. -/
theorem respell_of_double {front rest : List Char} {a b : Char}
    (h : Token.Renders tokens (respell (front ++ a :: b :: rest)))
    (hpair : isDoublePrime (plainPrime a) (plainPrime b))
    (hfront : ∀ e ∈ front.getLast?,
      isDoublePrime (plainPrime e) (plainPrime a) = false ∧ ¬ IsPrime e) :
    respell (front ++ '2' :: rest) = respell (front ++ a :: b :: rest) := by
  have hwith : dropDoublePrimes ((front ++ a :: b :: rest).map plainPrime)
      = dropDoublePrimes (front.map plainPrime)
        ++ '2' :: dropDoublePrimes (rest.map plainPrime) := by
    rw [dropDoublePrimes_map_append (by simpa using fun e he => (hfront e he).1), List.map_cons,
      List.map_cons]
    simp only [isDoublePrime, Bool.or_eq_true, Bool.and_eq_true, decide_eq_true_eq] at hpair
    rcases hpair with ⟨ha, hb⟩ | ⟨ha, hb⟩ <;> rw [ha, hb, dropDoublePrimes]
  have hwithout : dropDoublePrimes ((front ++ '2' :: rest).map plainPrime)
      = dropDoublePrimes (front.map plainPrime)
        ++ dropDoublePrimes ('2' :: rest.map plainPrime) := by
    refine dropDoublePrimes_map_append ?_
    rintro e he _ ⟨⟩
    have hprime : plainPrime e ≠ '\'' := fun hprime => (hfront e he).2 (isPrime_iff.2 hprime)
    have htwo : plainPrime '2' = '2' := rfl
    simp [isDoublePrime, hprime, htwo]
  rw [respell, hwith] at h
  rw [respell, respell, hwith, hwithout]
  rcases dropDoublePrimes_two (rest.map plainPrime) with hsame | hprime
  · rw [hsame]
  · exact absurd h (not_renders_two_prime (List.infix_append_of_infix_right hprime))

/-! ## Groups -/

/-- A text ends with a closing parenthesis, or with one and a count: digits, perhaps after blanks or
    a star. -/
def EndsGroup (cs : List Char) : Prop :=
  ∃ front between digits, cs = front ++ ')' :: (between ++ digits)
    ∧ (∀ c ∈ between, isBlank c ∨ c = '*') ∧ (∀ d ∈ digits, d.isDigit)
    ∧ (digits = [] → between = [])

/-- The texts that a text with a prime between two parts can be taken for. -/
inductive TakenFor (p : Char) (xs ys : List Char) : List Char → Prop where
  /-- The prime is beside a `2` and lost. -/
  | lost (htwo : xs.getLast? = some '2' ∨ ys.head? = some '2') : TakenFor p xs ys (xs ++ ys)
  /-- The prime is behind parentheses and read before them, as that of a turn. -/
  | moved {front parens : List Char} {c : Char} (hxs : xs = front ++ c :: parens)
      (hparens : ∀ d ∈ parens, isParen d) (hc : c = 'w' ∨ ∃ m : Move, m.letter = c) :
      TakenFor p xs ys (front ++ c :: p :: (parens ++ ys))

theorem getLast?_filter_append_parens (front : List Char) (hc : c = 'w' ∨ ∃ m : Move, m.letter = c)
    (hparens : ∀ d ∈ parens, isParen d) :
    ((front ++ c :: parens).filter (!isParen ·)).getLast? = some c := by
  have hplain : isParen c = false := by
    rcases hc with rfl | ⟨m, rfl⟩
    · rfl
    · exact isParen_letter m
  simp [hplain, filter_parens hparens]

/-- No prime is at the end of a group, nor before a digit there. -/
theorem EndsGroup.not_isPrime (h : EndsGroup xs) :
    (∀ e ∈ xs.getLast?, ¬ IsPrime e)
      ∧ ∀ front, xs = front ++ ['2'] → ∀ e ∈ front.getLast?, ¬ IsPrime e := by
  obtain ⟨front, between, digits, rfl, hbetween, hdigits, -⟩ := h
  have htail : ∀ e ∈ between ++ digits, ¬ IsPrime e := by
    intro e he hprime
    simp only [IsPrime, List.mem_cons, List.not_mem_nil, or_false] at hprime
    rcases List.mem_append.1 he with he | he
    · rcases hbetween e he with hblank | rfl
      · rcases hprime with rfl | rfl | rfl <;> cases hblank
      · rcases hprime with h | h | h <;> cases h
    · have hdigit := hdigits e he
      rcases hprime with rfl | rfl | rfl <;> cases hdigit
  have hclose : ¬ IsPrime ')' := by decide
  generalize between ++ digits = tail at htail
  rcases List.eq_nil_or_concat' tail with rfl | ⟨tail, d, rfl⟩
  · refine ⟨by simpa using hclose, fun front' heq => ?_⟩
    cases (List.append_inj' heq rfl).2
  · have hsplit : front ++ ')' :: (tail ++ [d]) = front ++ ')' :: tail ++ [d] := by simp
    rw [hsplit]
    constructor
    · intro e he
      rw [List.getLast?_concat] at he
      obtain rfl := Option.some.inj he
      exact htail d (by simp)
    · intro front' heq e he
      obtain ⟨rfl, -⟩ := List.append_inj' heq rfl
      rw [List.getLast?_append_of_ne_nil _ (List.cons_ne_nil _ _)] at he
      rcases List.mem_cons.1 (List.mem_of_getLast? he) with rfl | he
      · exact hclose
      · exact htail e (List.mem_append_left _ he)

/-- **A prime behind a group is lost or moved**, if the text is read. -/
theorem exists_takenFor (h : Token.Renders tokens (respell (xs ++ p :: ys)))
    (hcounts : Token.CountsPlaced tokens) (hp : IsPrime p) (hgroup : EndsGroup xs) :
    ∃ cs, TakenFor p xs ys cs ∧ respell cs = respell (xs ++ p :: ys) := by
  obtain ⟨hlast, hbefore⟩ := hgroup.not_isPrime
  by_cases htwo : xs.getLast? = some '2'
  · obtain ⟨front, rfl⟩ := List.getLast?_eq_some_iff.1 htwo
    refine ⟨_, .lost (.inl htwo), ?_⟩
    have hpair : isDoublePrime (plainPrime '2') (plainPrime p) := by
      rw [isPrime_iff.1 hp]
      rfl
    rw [List.append_assoc] at h ⊢
    rw [List.append_assoc]
    refine respell_of_double h hpair fun e he => ⟨?_, hbefore front rfl e he⟩
    have hprime : plainPrime e ≠ '\'' := fun hprime => hbefore front rfl e he (isPrime_iff.2 hprime)
    have htwo : plainPrime '2' = '2' := rfl
    simp [isDoublePrime, htwo, hprime]
  by_cases htwo' : ys.head? = some '2'
  · obtain ⟨rest, rfl⟩ := List.head?_eq_some_iff.1 htwo'
    refine ⟨_, .lost (.inr htwo'), ?_⟩
    have hpair : isDoublePrime (plainPrime p) (plainPrime '2') := by
      rw [isPrime_iff.1 hp]
      rfl
    refine respell_of_double h hpair fun e he => ⟨?_, hlast e he⟩
    have hne : e ≠ '2' := fun heq => htwo (heq ▸ he)
    simp [isDoublePrime, isPrime_iff.1 hp, plainPrime_eq_two_iff, hne]
  obtain ⟨front, c, parens, hxs, hparens, hc, hsame⟩ :=
    exists_move_of_prime h hcounts hp htwo htwo'
  exact ⟨_, .moved hxs hparens hc, hsame⟩

end Notation

/-! ## Reading groups with primes -/

namespace Tree

open Notation (IsPrime EndsGroup TakenFor)

/-- **A group has no prime.** A text with a prime directly behind a group or its count is not read,
    unless normalization loses the prime beside a `2`, or makes it that of the turn at the end of
    the group; and then it is read just as the text without the prime, or with the prime there. -/
theorem ofText_primed_group {s : String} {xs ys : List Char} {p : Char}
    (hs : s.toList = xs ++ p :: ys) (hp : IsPrime p) (hgroup : EndsGroup xs) :
    (∀ t, ofText s = .ok t ↔ ∃ cs, TakenFor p xs ys cs
        ∧ Notation.respell cs = Notation.respell s.toList ∧ ofText (String.ofList cs) = .ok t)
      ∧ ((∀ cs, TakenFor p xs ys cs → Notation.respell cs ≠ Notation.respell s.toList) →
        ∃ e, ofText s = .error e) := by
  have hread (t : Tree) : ofText s = .ok t ↔ ∃ cs, TakenFor p xs ys cs
      ∧ Notation.respell cs = Notation.respell s.toList ∧ ofText (String.ofList cs) = .ok t := by
    constructor
    · intro h
      obtain ⟨tokens, hrenders, hwritten, hjoined⟩ := ofText_eq_ok_iff.1 h
      have hrenders' := hs ▸ hrenders
      obtain ⟨cs, htaken, hsame⟩ :=
        Notation.exists_takenFor hrenders' hwritten.countsPlaced hp hgroup
      rw [← hs] at hsame
      refine ⟨cs, htaken, hsame, ofText_eq_ok_iff.2 ⟨tokens, ?_, hwritten, hjoined⟩⟩
      rwa [String.toList_ofList, hsame]
    · rintro ⟨cs, -, hsame, h⟩
      obtain ⟨tokens, hrenders, hwritten, hjoined⟩ := ofText_eq_ok_iff.1 h
      rw [String.toList_ofList, hsame] at hrenders
      exact ofText_eq_ok_iff.2 ⟨tokens, hrenders, hwritten, hjoined⟩
  refine ⟨hread, fun hnone => ?_⟩
  cases h : ofText s with
  | error e => exact ⟨e, rfl⟩
  | ok t =>
    obtain ⟨cs, htaken, hsame, -⟩ := (hread t).1 h
    exact absurd hsame (hnone cs htaken)

/-- The last turn of the group has a half-turn suffix, so it cannot take the prime. -/
theorem ofText_primed_group_half_turn :
    let s := "[x: (M (R U2))\u2032 y]"
    let xs := "[x: (M (R U2))".toList
    let ys := " y]".toList
    s.toList = xs ++ '\u2032' :: ys ∧ EndsGroup xs ∧ (∀ cs, ¬ TakenFor '\u2032' xs ys cs)
      ∧ ∃ e, ofText s = .error e := by
  intro s xs ys
  have hs : s.toList = xs ++ '\u2032' :: ys := by decide
  have hgroup : EndsGroup xs :=
    ⟨"[x: (M (R U2)".toList, [], [], by decide, by simp, by simp, by simp⟩
  have hnone (cs : List Char) : ¬ TakenFor '\u2032' xs ys cs := by
    intro htaken
    cases htaken with
    | lost htwo =>
      rcases htwo with hbefore | hafter
      · cases hbefore
      · cases hafter
    | @moved front parens c hxs hparens hc =>
      have hlast := Notation.getLast?_filter_append_parens front hc hparens
      rw [← hxs] at hlast
      obtain rfl : '2' = c := Option.some.inj hlast
      rcases hc with htwo | ⟨m, htwo⟩
      · cases htwo
      · exact Token.letter_ne (by decide) m htwo
  refine ⟨hs, hgroup, hnone, (ofText_primed_group hs (by decide) hgroup).2 ?_⟩
  exact fun cs htaken => absurd htaken (hnone cs)

/-- A prime after a group is read as that of its last turn, or is lost beside a `2`. -/
theorem ofText_misreads_primed_group :
    let run : Tree := [.seq [⟨.face .R, .cw⟩, ⟨.face .U, .cw⟩]]
    (EndsGroup "(R U)".toList ∧ EndsGroup "(R U)2".toList)
      ∧ ofText "(R U)'" = .ok [.seq [⟨.face .R, .cw⟩, ⟨.face .U, .ccw⟩]]
      ∧ ofText "(R U)2'" = .ok [.repeated run 2]
      ∧ ofText "(R U)'2" = .ok [.repeated run 2] := by
  intro run
  have hgroup : EndsGroup "(R U)".toList :=
    ⟨"(R U".toList, [], [], by decide, by simp, by simp, by simp⟩
  have hcounted : EndsGroup "(R U)2".toList :=
    ⟨"(R U".toList, [], ['2'], by decide, by simp, by simp, by simp⟩
  exact ⟨⟨hgroup, hcounted⟩, by decide +kernel, by decide +kernel, by decide +kernel⟩

end Tree

end Cubing
