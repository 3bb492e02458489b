import Cubing.Notation.Normalization
import Cubing.Proofs.Lexing
import Mathlib.Data.List.Chain

set_option autoImplicit false

/-! # What normalization leaves alone

Each step of normalization looks for something that canonical text lacks: a typographic prime, a
prime next to a `2`, a `w`, a star, a pair of parentheses without a count. Whether a pair is dropped
is decided at pairs that have no other pair in them, by what is behind them (`Notation.BehindPairs`):
nothing is dropped just if there is a count behind each (`Notation.stripPairs_eq_self_iff`).

A text that spells tokens has no characters but those of tokens and blanks, so a step can find
something only in how tokens meet: a count after a primed turn, or parentheses whose count does not
follow directly. Where counts are only after parentheses, nothing else is dropped
(`Token.Renders.respell_eq`), and where they follow directly, a text spells its tokens also once it is
normalized (`Token.Renders.normalize`). -/

namespace Cubing

open Text (isBlank)

namespace Notation

variable {cs : List Char}

/-! ## Steps that find nothing -/

/-- Whether neighbouring characters are a prime and the `2` of a half turn, in either order. -/
def isDoublePrime (a b : Char) : Bool := (a = '2' && b = '\'') || (a = '\'' && b = '2')

theorem map_plainPrime_eq_self (h : ∀ c ∈ cs, c ≠ '\u2019' ∧ c ≠ '\u2032') :
    cs.map plainPrime = cs := by
  have hsame (c) (hc : c ∈ cs) : plainPrime c = c := by
    obtain ⟨hcurly, htypographic⟩ := h c hc
    simp [plainPrime, hcurly, htypographic]
  rw [List.map_congr_left hsame, List.map_id']

theorem dropDoublePrimes_eq_self (h : cs.IsChain fun a b => isDoublePrime a b = false) :
    dropDoublePrimes cs = cs := by
  fun_induction dropDoublePrimes cs with
  | case1 cs ih => simp [isDoublePrime] at h
  | case2 cs ih => simp [isDoublePrime] at h
  | case3 c cs _ _ ih => rw [ih h.tail]
  | case4 => rfl

theorem lowerWide_eq_self (h : 'w' ∉ cs) : lowerWide cs = cs := by
  fun_induction lowerWide cs with
  | case1 c cs f hf ih => simp at h
  | case2 c cs hf ih => simp at h
  | case3 c cs _ ih => rw [ih (List.not_mem_of_not_mem_cons h)]
  | case4 => rfl

theorem dropStars_eq_self (h : '*' ∉ cs) : dropStars cs = cs := by
  fun_induction dropStars cs with
  | case1 d cs hd ih => simp at h
  | case2 d cs hd ih => simp at h
  | case3 c cs _ ih => rw [ih (List.not_mem_of_not_mem_cons h)]
  | case4 => rfl

/-! ## Closing parentheses -/

/-- What is behind each closing parenthesis is of some kind. -/
def BehindParens (P : List Char → Prop) (cs : List Char) : Prop :=
  ∀ rest, ')' :: rest <:+ cs → P rest

section

variable {P : List Char → Prop} {c : Char} {ds : List Char}

theorem behindParens_nil : BehindParens P [] := by
  intro rest hrest
  cases List.suffix_nil.1 hrest

theorem BehindParens.cons (h : BehindParens P cs) (hc : c ≠ ')') : BehindParens P (c :: cs) := by
  intro rest hrest
  rcases List.suffix_cons_iff.1 hrest with heq | hsuffix
  · exact absurd (List.cons.inj heq).1.symm hc
  · exact h rest hsuffix

theorem BehindParens.append (h : BehindParens P cs) (hds : ∀ c ∈ ds, c ≠ ')') :
    BehindParens P (ds ++ cs) := by
  induction ds with
  | nil => exact h
  | cons d ds ih =>
    obtain ⟨hd, hds⟩ := List.forall_mem_cons.1 hds
    exact (ih hds).cons hd

theorem BehindParens.close (h : BehindParens P cs) (hcs : P cs) : BehindParens P (')' :: cs) := by
  intro rest hrest
  rcases List.suffix_cons_iff.1 hrest with heq | hsuffix
  · obtain rfl := (List.cons.inj heq).2
    exact hcs
  · exact h rest hsuffix

end

/-! ## Pairs of parentheses -/

variable {inner rest : List Char} {opened : Option (List Char)} {P : List Char → Prop}

/-- A text without parentheses. -/
def Flat (cs : List Char) : Prop := ∀ c ∈ cs, c ≠ '(' ∧ c ≠ ')'

instance (cs : List Char) : Decidable (Flat cs) :=
  List.decidableBAll (fun c => c ≠ '(' ∧ c ≠ ')') cs

@[simp] theorem flat_nil : Flat [] := fun _ hc => absurd hc List.not_mem_nil

theorem Flat.append {xs ys : List Char} (hxs : Flat xs) (hys : Flat ys) : Flat (xs ++ ys) :=
  List.forall_mem_append.2 ⟨hxs, hys⟩

theorem Flat.reverse (h : Flat cs) : Flat cs.reverse := fun c hc => h c (List.mem_reverse.1 hc)

theorem Flat.of_isDigit (h : ∀ d ∈ cs, d.isDigit) : Flat cs := by
  intro c hc
  constructor <;> rintro rfl <;> cases h _ hc

/-- What is behind each pair of parentheses that has no other pair in it is of some kind. -/
def BehindPairs (P : List Char → Prop) (cs : List Char) : Prop :=
  ∀ inner rest, '(' :: (inner ++ ')' :: rest) <:+ cs → Flat inner → P rest

theorem BehindPairs.of_suffix {ds : List Char} (h : BehindPairs P cs) (hsuffix : ds <:+ cs) :
    BehindPairs P ds :=
  fun inner rest hpair => h inner rest (hpair.trans hsuffix)

theorem countFollows_of_isDigit (h : ∃ d ∈ rest.head?, d.isDigit) : countFollows rest := by
  obtain ⟨d, hd, hdigit⟩ := h
  obtain ⟨rest, rfl⟩ := List.head?_eq_some_iff.1 hd
  rw [countFollows]
  · exact hdigit
  · rintro c cs rfl
    cases hdigit

/-- What begins no count does not complete one either. -/
theorem countFollows_append {ys : List Char} (h : countFollows ys = false) (xs : List Char) :
    countFollows (xs ++ ys) = countFollows xs := by
  match xs with
  | [] => exact h
  | [c] =>
    by_cases hc : c = '*'
    · subst hc
      cases ys with
      | nil => rfl
      | cons d ys =>
        refine Bool.eq_false_iff.2 fun hdigit => ?_
        exact Bool.eq_false_iff.1 h (countFollows_of_isDigit ⟨d, rfl, hdigit⟩)
    · simp [countFollows, hc]
  | c :: d :: xs =>
    by_cases hc : c = '*'
    · subst hc
      rfl
    · simp [countFollows, hc]

theorem countFollows_cons {c : Char} (hdigit : c.isDigit = false) (hstar : c ≠ '*')
    (cs : List Char) : countFollows (c :: cs) = false := by
  rw [countFollows, hdigit]
  rintro d rest rfl
  exact absurd rfl hstar

theorem countFollows_append_cons {c : Char} (hdigit : c.isDigit = false) (hstar : c ≠ '*')
    (xs ys : List Char) : countFollows (xs ++ c :: ys) = countFollows xs :=
  countFollows_append (countFollows_cons hdigit hstar ys) xs

theorem stripPairs_none_cons {c : Char} (hopen : c ≠ '(') (hclose : c ≠ ')') :
    stripPairs none (c :: cs) = c :: stripPairs none cs := by
  rw [stripPairs] <;> assumption

theorem stripPairs_some_cons {c : Char} (hopen : c ≠ '(') (hclose : c ≠ ')') :
    stripPairs (some inner) (c :: cs) = stripPairs (some (c :: inner)) cs := by
  rw [stripPairs] <;> assumption

/-- What is before an opening parenthesis is read by itself. -/
theorem stripPairs_append_open (xs ys : List Char) :
    stripPairs opened (xs ++ '(' :: ys) = stripPairs opened xs ++ stripPairs (some []) ys := by
  have hcount (xs : List Char) : countFollows (xs ++ '(' :: ys) = countFollows xs :=
    countFollows_append_cons rfl (by decide) xs ys
  fun_induction stripPairs opened xs with
  | case1 opened => rw [List.nil_append, stripPairs]
  | case2 opened xs ih => rw [List.cons_append, stripPairs, ih, List.append_assoc]
  | case3 xs ih =>
    rw [List.cons_append, stripPairs, ih]
    rfl
  | case4 xs inner hfollows ih => simp [stripPairs, hcount, hfollows, ih]
  | case5 xs inner hfollows ih => simp [stripPairs, hcount, hfollows, ih]
  | case6 c xs hopen hclose ih =>
    rw [List.cons_append, stripPairs_none_cons hopen hclose, ih]
    rfl
  | case7 c xs hopen hclose inner ih =>
    rw [List.cons_append, stripPairs_some_cons hopen hclose, ih]

theorem stripPairs_some_append (hflat : Flat inner) (held ys : List Char) :
    stripPairs (some held) (inner ++ ys) = stripPairs (some (inner.reverse ++ held)) ys := by
  induction inner generalizing held with
  | nil => rfl
  | cons c inner ih =>
    obtain ⟨⟨hopen, hclose⟩, hflat⟩ := List.forall_mem_cons.1 hflat
    rw [List.cons_append, stripPairs_some_cons hopen hclose, ih hflat]
    simp

/-- An innermost pair without a count is dropped. -/
theorem stripPairs_pair (hflat : Flat inner) (hcount : countFollows rest = false)
    (xs : List Char) :
    stripPairs opened (xs ++ '(' :: (inner ++ ')' :: rest))
      = stripPairs opened xs ++ (inner ++ stripPairs none rest) := by
  rw [stripPairs_append_open, stripPairs_some_append hflat, stripPairs]
  simp [hcount]

/-- What has been held back since an opening parenthesis is put before a text that stays. -/
theorem stripPairs_eq_append (hflat : ∀ inner ∈ opened, Flat inner)
    (h : BehindPairs (fun rest => countFollows rest) (reopened opened ++ cs)) :
    stripPairs opened cs = reopened opened ++ cs := by
  fun_induction stripPairs opened cs with
  | case1 opened => simp
  | case2 opened cs ih =>
    rw [ih (by simp) (h.of_suffix (List.suffix_append _ _))]
    rfl
  | case3 cs ih =>
    rw [ih (by simp) (h.of_suffix (List.suffix_cons _ _))]
    rfl
  | case4 cs inner hcount ih =>
    have hrest : cs <:+ reopened (some inner) ++ ')' :: cs :=
      (List.suffix_cons _ _).trans (List.suffix_append _ _)
    rw [ih (by simp) (h.of_suffix hrest)]
    rfl
  | case5 cs inner hcount ih =>
    exact absurd (h inner.reverse cs List.suffix_rfl (hflat inner rfl).reverse) hcount
  | case6 c cs hopen hclose ih =>
    rw [ih (by simp) (h.of_suffix (List.suffix_cons _ _))]
    rfl
  | case7 c cs hopen hclose inner ih =>
    have hheld : reopened (some (c :: inner)) ++ cs = reopened (some inner) ++ c :: cs := by
      simp [reopened]
    rw [ih ?_ (hheld ▸ h), hheld]
    rintro _ ⟨⟩
    exact List.forall_mem_cons.2 ⟨⟨hopen, hclose⟩, hflat inner rfl⟩

/-- **Nothing is dropped just if there is a count behind each innermost pair.** -/
theorem stripPairs_eq_self_iff :
    stripPairs none cs = cs ↔ BehindPairs (fun rest => countFollows rest) cs := by
  constructor
  · rintro h inner rest ⟨before, rfl⟩ hflat
    by_contra hcount
    have hdropped : stripPairs none (before ++ '(' :: (inner ++ ')' :: rest)) = _ :=
      stripPairs_pair hflat (Bool.eq_false_iff.2 hcount) before
    rw [h] at hdropped
    have hlength := congrArg List.length hdropped
    have hbefore := length_stripPairs_le none before
    have hrest := length_stripPairs_le none rest
    simp only [reopened, List.length_append, List.length_cons, List.length_nil]
      at hlength hbefore hrest
    omega
  · intro h
    exact stripPairs_eq_append (by simp) h

theorem stripPlainParens_sublist (cs : List Char) : (stripPlainParens cs).Sublist cs := by
  fun_induction stripPlainParens cs with
  | case1 cs next hshorter ih => exact ih.trans (stripPairs_sublist none cs)
  | case2 cs next hdone => exact .refl _

theorem stripPlainParens_eq_self (h : BehindPairs (fun rest => countFollows rest) cs) :
    stripPlainParens cs = cs := by
  rw [stripPlainParens, stripPairs_eq_self_iff.2 h]
  simp

/-- What is behind each closing parenthesis is behind each pair. -/
theorem BehindParens.behindPairs (h : BehindParens P cs) : BehindPairs P cs := by
  intro inner rest hpair _
  have hclose : ')' :: rest <:+ '(' :: (inner ++ ')' :: rest) :=
    (List.suffix_append _ _).trans (List.suffix_cons _ _)
  exact h rest (hclose.trans hpair)

/-! ## All steps but the first -/

/-- Normalization without its first step, which drops the blanks at the ends. -/
def respell (cs : List Char) : List Char :=
  dropStars (stripPlainParens (lowerWide (dropDoublePrimes (cs.map plainPrime))))

theorem normalize_eq_respell_trim (cs : List Char) : normalize cs = respell (Text.trim cs) := rfl

/-- Where the first steps find nothing, only pairs of parentheses can go. -/
theorem respell_eq_stripPlainParens
    (hchars : ∀ c ∈ cs, c ≠ '\u2019' ∧ c ≠ '\u2032' ∧ c ≠ 'w' ∧ c ≠ '*')
    (hprimes : cs.IsChain fun a b => isDoublePrime a b = false) :
    respell cs = stripPlainParens cs := by
  have hwide : 'w' ∉ cs := fun hmem => (hchars _ hmem).2.2.1 rfl
  have hstar : '*' ∉ stripPlainParens cs :=
    fun hmem => (hchars _ ((stripPlainParens_sublist cs).mem hmem)).2.2.2 rfl
  have hplain (c) (hc : c ∈ cs) : c ≠ '\u2019' ∧ c ≠ '\u2032' :=
    ⟨(hchars c hc).1, (hchars c hc).2.1⟩
  rw [respell, map_plainPrime_eq_self hplain, dropDoublePrimes_eq_self hprimes,
    lowerWide_eq_self hwide, dropStars_eq_self hstar]

end Notation

/-! ## Texts that spell tokens -/

namespace Token

open Notation (isDoublePrime)

/-- A count is read after a closing parenthesis only. -/
def CountAfter (a b : Token) : Prop := b.kind = .multiplier → a.kind = .rightParen

/-- Only a turn has a prime, and it ends there. -/
theorem Spelled.kind_of_prime {t : Token} (h : t.Spelled) (hprime : '\'' ∈ t.chars) :
    t.kind = .turn := by
  cases h with
  | turn t => rfl
  | count nonempty digits => cases digits _ hprime
  | mark hmark =>
    obtain rfl := List.mem_singleton.1 hprime
    cases hmark.1

theorem Spelled.isChain {t : Token} (h : t.Spelled) :
    t.chars.IsChain fun a b => isDoublePrime a b = false := by
  cases h with
  | turn t =>
    obtain ⟨m, d⟩ := t
    have htwo : m.letter ≠ '2' := letter_ne (by decide) m
    have hprime : m.letter ≠ '\'' := letter_ne (by decide) m
    cases d with
    | cw => exact List.isChain_singleton _
    | double => exact List.isChain_pair.2 (by simp [isDoublePrime, htwo, hprime])
    | ccw => exact List.isChain_pair.2 (by simp [isDoublePrime, htwo, hprime])
  | @count ds nonempty digits =>
    refine (List.pairwise_of_forall_mem_list fun a ha b hb => ?_).isChain
    have hne (c) (hc : c ∈ ds) : c ≠ '\'' := by
      rintro rfl
      cases digits _ hc
    simp [isDoublePrime, hne a ha, hne b hb]
  | mark hmark => exact List.isChain_singleton _

theorem Renders.isChain {tokens : List Token} {cs : List Char} (h : Renders tokens cs)
    (hcounts : tokens.IsChain CountAfter) :
    cs.IsChain fun a b => isDoublePrime a b = false := by
  induction h with
  | nil => exact .nil
  | @blank tokens c cs hc rest ih =>
    refine List.isChain_cons.2 ⟨?_, ih hcounts⟩
    intro d hd
    have hne : c ≠ '2' ∧ c ≠ '\'' := by
      constructor <;> rintro rfl <;> cases hc
    simp [isDoublePrime, hne]
  | @token t tokens cs spelled ends rest ih =>
    refine List.isChain_append.2 ⟨spelled.isChain, ih hcounts.tail, ?_⟩
    intro a ha b hb
    refine Bool.eq_false_iff.2 fun hpair => ?_
    obtain ⟨cs, rfl⟩ := List.head?_eq_some_iff.1 hb
    have hnext := rest.head_cases
    have hlast := List.mem_of_getLast? ha
    simp only [isDoublePrime, Bool.or_eq_true, Bool.and_eq_true, decide_eq_true_eq] at hpair
    rcases hpair with ⟨rfl, rfl⟩ | ⟨rfl, rfl⟩
    · rcases hnext with ⟨hblank, -⟩ | ⟨u, us, rfl, hstart⟩
      · cases hblank
      · cases hstart
    · rcases hnext with ⟨hblank, -⟩ | ⟨u, us, rfl, hstart⟩
      · cases hblank
      · -- A `2` after a primed turn starts a count, which cannot follow a turn.
        have hcount : u.kind = .multiplier := (Option.some.inj hstart).symm
        have hparen := (List.isChain_cons_cons.1 hcounts).1 hcount
        rw [spelled.kind_of_prime hlast] at hparen
        cases hparen

/-- **From a text that spells tokens, nothing but parentheses is dropped**, if every count is where
    the grammar has it. -/
theorem Renders.respell_eq {tokens : List Token} {cs : List Char} (h : Renders tokens cs)
    (hcounts : tokens.IsChain CountAfter) :
    Notation.respell cs = Notation.stripPlainParens cs := by
  refine Notation.respell_eq_stripPlainParens ?_ (h.isChain hcounts)
  intro c hc
  have hne {d : Char} (hblank : isBlank d = false) (hprime : d ≠ '\'')
      (hstart : startKind? d = none) : c ≠ d := by
    rintro rfl
    rcases h.starts_of_mem hc with hblank' | hprime' | ⟨kind, hstart'⟩
    · exact Bool.false_ne_true (hblank.symm.trans hblank')
    · exact hprime hprime'
    · cases hstart.symm.trans hstart'
  exact ⟨hne (by decide) (by decide) (by decide), hne (by decide) (by decide) (by decide),
    hne (by decide) (by decide) (by decide), hne (by decide) (by decide) (by decide)⟩

end Token

end Cubing
