import Cubing.Notation.Spelling
import Cubing.Proofs.Concatenation
import Cubing.Proofs.CountedPairs
import Cubing.Proofs.TreeTokens
import Cubing.Tree.Printer
import Mathlib.Data.Bool.AllAny

set_option autoImplicit false

/-! # All spellings are read alike

Normalization runs over the whole text, one step after the other, and still makes of every turn what it
would make of the turn alone. A blank, a turn or a mark of punctuation begins with a character that no
step takes together with what is before it (`Notation.fresh`), so no step reaches across a place behind
which one of them stands (`Notation.respellTurns_append`). Of the turn itself, whatever its spelling,
the steps leave its canonical text (`Notation.respellTurns_of_mem_spellings`).

No parentheses are dropped, because a count or its star is behind each pair, and then the stars go. What
is left spells the tokens of the tree (`Token.Respells`), so every spelling of a tree is read as the
same tree (`Tree.ofText_any_spelling`). -/

namespace Cubing

open Text (isBlank)

namespace Notation

variable {c : Char} {xs ys ds : List Char}

/-! ## Places that no step reaches across -/

/-- Whether a character can begin something new in a text: it is a blank, or it starts a token that is
    no count. -/
def fresh (c : Char) : Bool := isBlank c || (Token.startKind? c).any (· ≠ .multiplier)

/-- A text that is empty or begins with something new. -/
def Fresh (cs : List Char) : Prop := ∀ c ∈ cs.head?, fresh c

theorem fresh_of_isBlank (hc : isBlank c) : fresh c := by
  simp [fresh, hc]

theorem fresh_of_startKind? {kind : Token.Kind} (h : Token.startKind? c = some kind)
    (hkind : kind ≠ .multiplier) : fresh c := by
  simp [fresh, h, hkind]

theorem ne_of_fresh (hc : fresh c) {d : Char} (hd : fresh d = false) : c ≠ d := by
  rintro rfl
  cases hc.symm.trans hd

theorem isDecimalDigit_eq_false_of_fresh (hc : fresh c) : Text.isDecimalDigit c = false := by
  by_cases hblank : isBlank c
  · exact isDecimalDigit_eq_false_of_isBlank hblank
  · obtain ⟨kind, hstart, hkind⟩ : ∃ kind, Token.startKind? c = some kind ∧ kind ≠ .multiplier := by
      simpa [fresh, hblank, Option.any_eq_true] using hc
    rcases Token.of_startKind?_eq_some hstart with hmark | ⟨m, rfl⟩ | hdigit
    · have hall : ∀ c ∈ ['[', ']', ':', ',', '(', ')'], Text.isDecimalDigit c = false :=
        List.all_iff_forall_prop.1 (by decide)
      exact hall c hmark
    · have hall : ∀ m ∈ Move.all, Text.isDecimalDigit m.letter = false := by decide
      exact hall m (Move.mem_all m)
    · cases (Token.startKind?_of_isDigit hdigit).symm.trans hstart
      exact absurd rfl hkind

theorem fresh_nil : Fresh [] := by
  simp [Fresh]

theorem fresh_cons (hc : fresh c) : Fresh (c :: xs) := by
  simpa [Fresh] using hc

theorem Fresh.map_plainPrime (h : Fresh xs) : Fresh (xs.map plainPrime) := by
  cases xs with
  | nil => exact fresh_nil
  | cons c xs =>
    have hcurly : c ≠ '\u2019' := ne_of_fresh (h c rfl) (by decide)
    have htypographic : c ≠ '\u2032' := ne_of_fresh (h c rfl) (by decide)
    have hsame : plainPrime c = c := by simp [plainPrime, hcurly, htypographic]
    rw [List.map_cons, hsame]
    exact fresh_cons (h c rfl)

theorem Fresh.dropDoublePrimes (h : Fresh xs) : Fresh (dropDoublePrimes xs) := by
  cases xs with
  | nil => exact fresh_nil
  | cons c xs =>
    have htwo : c ≠ '2' := ne_of_fresh (h c rfl) (by decide)
    have hprime : c ≠ '\'' := ne_of_fresh (h c rfl) (by decide)
    rw [dropDoublePrimes_cons (by simp [isDoublePrime, htwo, hprime])]
    exact fresh_cons (h c rfl)

theorem Fresh.lowerWide (h : Fresh xs) : Fresh (lowerWide xs) := by
  have hwide (f : Face) : fresh f.wideLetter := by cases f <;> decide
  unfold Notation.lowerWide
  split
  · split
    · exact fresh_cons (hwide _)
    · exact fresh_cons (h _ rfl)
  · exact fresh_cons (h _ rfl)
  · exact fresh_nil

theorem Fresh.dropStars (h : Fresh xs) : Fresh (dropStars xs) := by
  intro c hc
  rw [head?_dropStars] at hc
  exact h c hc

theorem dropStars_eq_self_of_parens (h : ∀ c ∈ xs, c ≠ ')') : dropStars xs = xs := by
  induction xs with
  | nil => rfl
  | cons c xs ih =>
    obtain ⟨hc, hxs⟩ := List.forall_mem_cons.1 h
    rw [dropStars_cons hc, ih hxs]

/-! ## Turns -/

/-- The steps that change how turns are spelled. -/
def respellTurns (cs : List Char) : List Char := lowerWide (dropDoublePrimes (cs.map plainPrime))

@[simp] theorem respellTurns_nil : respellTurns [] = [] := rfl

theorem Fresh.respellTurns (h : Fresh xs) : Fresh (respellTurns xs) :=
  h.map_plainPrime.dropDoublePrimes.lowerWide

/-- **Turns are spelled anew on both sides of a place separately**, if something new begins there. -/
theorem respellTurns_append (h : Fresh ys) :
    respellTurns (xs ++ ys) = respellTurns xs ++ respellTurns ys := by
  have hplain := h.map_plainPrime
  have hprimes : ∀ a ∈ (xs.map plainPrime).getLast?, ∀ b ∈ (ys.map plainPrime).head?,
      isDoublePrime a b = false := by
    intro a _ b hb
    have htwo : b ≠ '2' := ne_of_fresh (hplain b hb) (by decide)
    have hprime : b ≠ '\'' := ne_of_fresh (hplain b hb) (by decide)
    simp [isDoublePrime, htwo, hprime]
  have hwide : ∀ b ∈ (dropDoublePrimes (ys.map plainPrime)).head?, b ≠ 'w' :=
    fun b hb => ne_of_fresh (hplain.dropDoublePrimes b hb) (by decide)
  rw [respellTurns, List.map_append, dropDoublePrimes_append hprimes, lowerWide_append hwide]
  rfl

theorem dropStars_respellTurns_append (h : Fresh ys) :
    dropStars (respellTurns (xs ++ ys))
      = dropStars (respellTurns xs) ++ dropStars (respellTurns ys) := by
  have hstars : ∀ b ∈ (respellTurns ys).head?, b ≠ '*' ∧ Text.isDecimalDigit b = false := by
    intro b hb
    have hfresh : fresh b := h.respellTurns b hb
    exact ⟨ne_of_fresh hfresh (by decide), isDecimalDigit_eq_false_of_fresh hfresh⟩
  rw [respellTurns_append h, dropStars_append hstars]

/-- Only primes and the `w` of wide turns are spelled anew. -/
theorem respellTurns_eq_self (h : ∀ c ∈ xs, c ∉ primes ∧ c ≠ 'w') : respellTurns xs = xs := by
  have hplain : ∀ c ∈ xs, c ≠ '\u2019' ∧ c ≠ '\u2032' := by
    intro c hc
    have hprime := (h c hc).1
    simp only [primes, List.mem_cons, List.not_mem_nil, or_false, not_or] at hprime
    exact hprime.2
  have hdouble : xs.IsChain fun a b => isDoublePrime a b = false := by
    refine (List.pairwise_of_forall_mem_list fun a ha b hb => ?_).isChain
    have hne (c) (hc : c ∈ xs) : c ≠ '\'' := by
      rintro rfl
      exact (h _ hc).1 List.mem_cons_self
    simp [isDoublePrime, hne a ha, hne b hb]
  rw [respellTurns, map_plainPrime_eq_self hplain, dropDoublePrimes_eq_self hdouble,
    lowerWide_eq_self fun hw => (h _ hw).2 rfl]

/-- **A turn by itself becomes its canonical text**, whatever its spelling. -/
theorem respellTurns_of_mem_spellings {t : Turn} (h : ds ∈ t.spellings) :
    respellTurns ds = t.chars := by
  have hall : ∀ m ∈ Move.all, ∀ d ∈ [Direction.cw, .double, .ccw],
      ∀ ds ∈ Turn.spellings ⟨m, d⟩, respellTurns ds = Turn.chars ⟨m, d⟩ := by
    decide +kernel
  obtain ⟨m, d⟩ := t
  exact hall m (Move.mem_all m) d (by cases d <;> simp) ds h

theorem fresh_of_mem_spellings {t : Turn} (h : ds ∈ t.spellings) (cs : List Char) :
    Fresh (ds ++ cs) := by
  obtain ⟨ms, hms, suffix, -, rfl⟩ : ∃ ms ∈ t.move.spellings, ∃ suffix ∈ t.direction.spellings,
      ms ++ suffix = ds := by
    simpa [Turn.spellings] using h
  have hall : ∀ m ∈ Move.all, ∀ ms ∈ m.spellings, ms.head?.any fresh := by decide
  obtain ⟨c, hc, hfresh⟩ := (Option.any_eq_true _ _).1 (hall t.move (Move.mem_all _) ms hms)
  obtain ⟨ms, rfl⟩ := List.head?_eq_some_iff.1 hc
  exact fresh_cons hfresh

/-! ## Counts -/

section

variable {star : List Char} (hstar : star ∈ stars) (n : UInt32)

include hstar

theorem isDigit_or_eq_star (h : c ∈ star ++ Nat.toDigits 10 n.toNat) : c = '*' ∨ c.isDigit := by
  rcases List.mem_append.1 h with hc | hc
  · have hall : ∀ star ∈ stars, star.all (· = '*') := by decide
    exact .inl (List.all_iff_forall_prop.1 (hall star hstar) c hc)
  · exact .inr (isDigit_toDigits n c hc)

/-- No parenthesis stands in a count. -/
theorem ne_paren_of_mem_count (h : c ∈ star ++ Nat.toDigits 10 n.toNat) : c ≠ ')' := by
  rintro rfl
  rcases isDigit_or_eq_star hstar n h with hc | hc <;> cases hc

/-- Nothing in a count is spelled anew. -/
theorem respellTurns_count :
    respellTurns (')' :: (star ++ Nat.toDigits 10 n.toNat))
      = ')' :: (star ++ Nat.toDigits 10 n.toNat) := by
  refine respellTurns_eq_self fun c hc => ?_
  rcases List.mem_cons.1 hc with rfl | hc
  · decide
  · have hne {d : Char} (hd : d ≠ '*') (hdigit : d.isDigit = false) : c ≠ d := by
      rintro rfl
      rcases isDigit_or_eq_star hstar n hc with hc | hc
      · exact hd hc
      · cases hdigit.symm.trans hc
    have hall : ∀ p ∈ primes, p ≠ '*' ∧ p.isDigit = false :=
      List.all_iff_forall_prop.1 (by decide)
    exact ⟨fun hp => hne (hall c hp).1 (hall c hp).2 rfl, hne (by decide) (by decide)⟩

/-- The star before a count is dropped. -/
theorem dropStars_count :
    dropStars (')' :: (star ++ Nat.toDigits 10 n.toNat)) = ')' :: Nat.toDigits 10 n.toNat := by
  obtain ⟨d, ds, hds⟩ := List.exists_cons_of_ne_nil (Nat.toDigits_ne_nil (n := n.toNat) (b := 10))
  have hdigits : ∀ c ∈ d :: ds, c.isDigit := hds ▸ isDigit_toDigits n
  obtain ⟨hd, hrest⟩ := List.forall_mem_cons.1 hdigits
  have hsame {cs : List Char} (hcs : ∀ c ∈ cs, c.isDigit) : dropStars cs = cs :=
    dropStars_eq_self_of_parens fun c hc => (Flat.of_isDigit hcs c hc).2
  simp only [stars, List.mem_cons, List.not_mem_nil, or_false] at hstar
  rw [hds]
  rcases hstar with rfl | rfl
  · have hne : d ≠ '*' := by
      rintro rfl
      cases hd
    rw [List.nil_append, dropStars, hsame hdigits]
    intro e es _ hstart
    exact hne (List.cons.inj hstart).1
  · have hdecimal : Text.isDecimalDigit d := Text.isDecimalDigit_of_isDigit hd
    simp [dropStars, hdecimal, hsame hrest]

theorem countFollows_count (rest : List Char) :
    countFollows (star ++ Nat.toDigits 10 n.toNat ++ rest) := by
  obtain ⟨d, ds, hds⟩ := List.exists_cons_of_ne_nil (Nat.toDigits_ne_nil (n := n.toNat) (b := 10))
  have hd : d.isDigit := isDigit_toDigits n d (by simp [hds])
  simp only [stars, List.mem_cons, List.not_mem_nil, or_false] at hstar
  rw [hds]
  rcases hstar with rfl | rfl
  · exact countFollows_of_isDigit ⟨d, rfl, hd⟩
  · exact hd

end

end Notation

/-! ## Texts that spell tokens once they are normalized -/

namespace Token

open Notation (Fresh BehindParens countFollows respellTurns fresh)

/-- No token takes what a text starts with. -/
def Untaken (cs : List Char) : Prop := ∀ c ∈ cs.head?, c ≠ '\'' ∧ c.isDigit = false

theorem Untaken.takes_eq_false {cs : List Char} (h : Untaken cs) (t : Token) :
    ∀ c ∈ cs.head?, t.takes c = false := by
  intro c hc
  obtain ⟨hprime, hdigit⟩ := h c hc
  have htwo : c ≠ '2' := by
    rintro rfl
    cases hdigit
  unfold takes
  split <;> simp [hprime, htwo, hdigit]

/-- A text that spells tokens once its turns are spelled anew and its stars are gone, with a count
    behind each closing parenthesis. -/
structure Respells (tokens : List Token) (cs : List Char) : Prop where
  fresh : Fresh cs
  renders : Renders tokens (Notation.dropStars (respellTurns cs))
  counted : BehindParens (fun rest => countFollows rest) (respellTurns cs)

namespace Respells

variable {tokens : List Token} {cs : List Char}

theorem nil : Respells [] [] where
  fresh := Notation.fresh_nil
  renders := .nil
  counted := Notation.behindParens_nil

/-- What stands before a text takes no character from it. -/
theorem untaken (h : Respells tokens cs) :
    Untaken (Notation.dropStars (respellTurns cs)) := by
  intro c hc
  have hfresh : Notation.fresh c := h.fresh.respellTurns.dropStars c hc
  refine ⟨Notation.ne_of_fresh hfresh (by decide), Bool.eq_false_iff.2 fun hdigit => ?_⟩
  have hdecimal := Text.isDecimalDigit_of_isDigit hdigit
  rw [Notation.isDecimalDigit_eq_false_of_fresh hfresh] at hdecimal
  cases hdecimal

/-- A piece of text that is spelled anew, before a text. -/
theorem append (ts : List Token) {ds ds' : List Char} (h : Respells tokens cs)
    (hfresh : Fresh (ds ++ cs)) (hds : respellTurns ds = ds') (hparens : ∀ c ∈ ds', c ≠ ')')
    (hrenders : Renders (ts ++ tokens) (ds' ++ Notation.dropStars (respellTurns cs))) :
    Respells (ts ++ tokens) (ds ++ cs) where
  fresh := hfresh
  renders := by
    rwa [Notation.dropStars_respellTurns_append h.fresh, hds,
      Notation.dropStars_eq_self_of_parens hparens]
  counted := by
    rw [Notation.respellTurns_append h.fresh, hds]
    exact h.counted.append hparens

theorem blank {c : Char} (hc : isBlank c) (h : Respells tokens cs) : Respells tokens (c :: cs) := by
  have hchars : ∀ d ∈ [c], d ∉ primes ∧ d ≠ 'w' := by
    intro d hd
    obtain rfl := List.mem_singleton.1 hd
    refine ⟨fun hprime => ?_, Notation.ne_of_isBlank hc (by decide)⟩
    have hall : ∀ p ∈ primes, isBlank p = false := List.all_iff_forall_prop.1 (by decide)
    cases hc.symm.trans (hall d hprime)
  have hparens : ∀ d ∈ [c], d ≠ ')' := by
    simpa using Notation.ne_of_isBlank hc (by decide)
  exact h.append [] (Notation.fresh_cons (Notation.fresh_of_isBlank hc))
    (Notation.respellTurns_eq_self hchars) hparens (.blank hc h.renders)

theorem blanks {gap : List Char} (hgap : ∀ c ∈ gap, isBlank c) (h : Respells tokens cs) :
    Respells tokens (gap ++ cs) := by
  induction gap with
  | nil => exact h
  | cons c gap ih =>
    obtain ⟨hc, hgap⟩ := List.forall_mem_cons.1 hgap
    exact (ih hgap).blank hc

theorem turn {t : Turn} {ds : List Char} (hds : ds ∈ t.spellings) (h : Respells tokens cs) :
    Respells (.ofTurn t :: tokens) (ds ++ cs) := by
  have hparens : ∀ c ∈ t.chars, c ≠ ')' :=
    fun c hc => ne_of_mem_turn_chars hc (by decide) (by decide) (by decide)
  exact h.append [.ofTurn t] (Notation.fresh_of_mem_spellings hds cs)
    (Notation.respellTurns_of_mem_spellings hds) hparens
    (.token (.turn t) (h.untaken.takes_eq_false _) h.renders)

theorem mark {kind : Kind} {c : Char} (hmark : IsMark kind c) (hc : c ≠ ')')
    (h : Respells tokens cs) : Respells (⟨kind, [c]⟩ :: tokens) (c :: cs) := by
  have hchars : ∀ d ∈ [c], d ∉ primes ∧ d ≠ 'w' := by
    intro d hd
    obtain rfl := List.mem_singleton.1 hd
    have hne {p : Char} (hp : startKind? p = none) : d ≠ p := by
      rintro rfl
      cases hp.symm.trans hmark.1
    have hall : ∀ p ∈ primes, startKind? p = none := List.all_iff_forall_prop.1 (by decide)
    exact ⟨fun hprime => hne (hall d hprime) rfl, hne (by decide)⟩
  exact h.append [⟨kind, [c]⟩]
    (Notation.fresh_cons (Notation.fresh_of_startKind? hmark.1 hmark.2.2))
    (Notation.respellTurns_eq_self hchars) (by simpa using hc) (h.renders.mark hmark)

/-- A closing parenthesis and its count, with or without a star. -/
theorem count {star : List Char} (hstar : star ∈ stars) (n : UInt32) (h : Respells tokens cs) :
    Respells (⟨.rightParen, [')']⟩ :: .ofCount n :: tokens)
      (')' :: (star ++ Nat.toDigits 10 n.toNat) ++ cs) where
  fresh := Notation.fresh_cons (by decide)
  renders := by
    have hcount : Spelled (.ofCount n) := .count Nat.toDigits_ne_nil (isDigit_toDigits n)
    have hrest := Renders.token hcount (h.untaken.takes_eq_false _) h.renders
    rw [Notation.dropStars_respellTurns_append h.fresh, Notation.respellTurns_count hstar,
      Notation.dropStars_count hstar]
    exact hrest.mark (by decide)
  counted := by
    have hparens (c) (hc : c ∈ star ++ Nat.toDigits 10 n.toNat) : c ≠ ')' :=
      Notation.ne_paren_of_mem_count hstar n hc
    rw [Notation.respellTurns_append h.fresh, Notation.respellTurns_count hstar]
    exact (h.counted.append hparens).close (Notation.countFollows_count hstar n _)

end Respells

end Token

/-! ## Spellings of a tree -/

open Token (Respells)

/-- Turns in any spelling, before a text. -/
theorem Turn.ListSpelling.respells {ts : List Turn} {cs ds : List Char} {tokens : List Token}
    (h : ListSpelling ts cs) (hrest : Respells tokens ds) :
    Respells (ts.map .ofTurn ++ tokens) (cs ++ ds) := by
  induction h with
  | nil => exact hrest
  | cons blanks spelled rest ih => simpa using (ih.turn spelled).blanks blanks

/-- **Every spelling of a tree spells its tokens** once it is normalized, whatever follows. -/
theorem Tree.Spelling.respells {t : Tree} {cs ds : List Char} {tokens : List Token}
    (h : t.Spelling cs) (hrest : Respells tokens ds) : Respells (t.tokens ++ tokens) (cs ++ ds) := by
  -- What a node and the list behind it spell, they spell side by side.
  have hcons {n : Node} {t : Tree} {gap here there ds : List Char} {tokens : List Token}
      (hgap : ∀ c ∈ gap, isBlank c)
      (hn : ∀ {us es}, Respells us es → Respells (n.tokens ++ us) (here ++ es))
      (ht : Respells (t.tokens ++ tokens) (there ++ ds)) :
      Respells (Tree.tokens (n :: t) ++ tokens) (gap ++ here ++ there ++ ds) := by
    have htokens : Tree.tokens (n :: t) = n.tokens ++ t.tokens := rfl
    simpa [htokens] using (hn ht).blanks hgap
  induction t using Tree.induction generalizing cs ds tokens with
  | nil =>
    cases h with
    | nil blanks => exact hrest.blanks blanks
  | seq ts t ih =>
    cases h with
    | cons blanks spelled rest =>
      cases spelled with
      | seq turns => exact hcons blanks turns.respells (ih rest hrest)
  | bracket kind a b t iha ihb ih =>
    cases h with
    | cons blanks spelled rest =>
      cases spelled with
      | bracket first second =>
        refine hcons blanks ?_ (ih rest hrest)
        intro us es hes
        have hmark : Token.IsMark kind.separatorKind kind.separator ∧ kind.separator ≠ ')' := by
          cases kind <;> decide
        have hclosing := hes.mark (by decide : Token.IsMark .rightBracket ']') (by decide)
        have hseparator := (ihb second hclosing).mark hmark.1 hmark.2
        have hopening := (iha first hseparator).mark
          (by decide : Token.IsMark .leftBracket '[') (by decide)
        simpa [Node.tokens, Tree.tokens] using hopening
  | repeated body n t ihbody ih =>
    cases h with
    | cons blanks spelled rest =>
      cases spelled with
      | repeated contents starred =>
        refine hcons blanks ?_ (ih rest hrest)
        intro us es hes
        have hopening := (ihbody contents (hes.count starred n)).mark
          (by decide : Token.IsMark .leftParen '(') (by decide)
        simpa [Node.tokens, Tree.tokens] using hopening

/-! ## The canonical spelling -/

theorem Turn.chars_mem_spellings (t : Turn) : t.chars ∈ t.spellings := by
  obtain ⟨m, d⟩ := t
  have hmove : [m.letter] ∈ m.spellings := by
    cases m <;> simp [Move.spellings, Move.letter]
  have hdirection : d.suffix ∈ d.spellings := by cases d <;> decide
  simp only [spellings, List.mem_flatMap, List.mem_map]
  exact ⟨[m.letter], hmove, d.suffix, hdirection, rfl⟩

theorem Node.ListSpelling.blanks {ns : List Node} {gap cs : List Char} (hgap : ∀ c ∈ gap, isBlank c)
    (h : ListSpelling ns cs) : ListSpelling ns (gap ++ cs) := by
  cases h with
  | nil blanks => exact .nil (List.forall_mem_append.2 ⟨hgap, blanks⟩)
  | @cons n ns gap' here there blanks spelled rest =>
    have hgaps : ∀ c ∈ gap ++ gap', isBlank c := List.forall_mem_append.2 ⟨hgap, blanks⟩
    simpa using cons hgaps spelled rest

/-- The canonical text of turns is one of their spellings. -/
theorem Turn.listSpelling_listChars {ts : List Turn} (hne : ts ≠ []) {gap : List Char}
    (hgap : ∀ c ∈ gap, isBlank c) : ListSpelling ts (gap ++ listChars ts) := by
  induction ts generalizing gap with
  | nil => exact absurd rfl hne
  | cons t ts ih =>
    cases ts with
    | nil => simpa [listChars] using ListSpelling.cons hgap t.chars_mem_spellings .nil
    | cons u ts =>
      have hspace : ∀ c ∈ [' '], isBlank c := List.all_eq_true.1 (by decide)
      have hrest := ih (List.cons_ne_nil u ts) hspace
      simpa [listChars] using ListSpelling.cons hgap t.chars_mem_spellings hrest

theorem Node.listChars_cons (n : Node) (ns : List Node) :
    listChars (n :: ns) = n.chars ++ if ns = [] then [] else ' ' :: listChars ns := by
  cases ns with
  | nil => simp [listChars]
  | cons m ns => simp [listChars]

/-- **The canonical text of a tree is one of its spellings.** -/
theorem Tree.spelling_listChars (t : Tree) : t.Spelling (Node.listChars t) := by
  have hnone : ∀ c ∈ [], isBlank c := by simp
  have hspace : ∀ c ∈ [' '], isBlank c := List.all_eq_true.1 (by decide)
  have hcons {n : Node} {t : Tree} (hn : n.Spelling n.chars)
      (ht : t.Spelling (Node.listChars t)) : Tree.Spelling (n :: t) (Node.listChars (n :: t)) := by
    rw [Node.listChars_cons]
    split
    · rename_i hnil
      subst hnil
      simpa [Tree.Spelling] using Node.ListSpelling.cons hnone hn (.nil hnone)
    · simpa [Tree.Spelling] using Node.ListSpelling.cons hnone hn (ht.blanks hspace)
  induction t using Tree.induction with
  | nil => exact .nil hnone
  | seq ts t ih =>
    refine hcons (.seq ?_) ih
    by_cases hempty : ts = []
    · subst hempty
      exact .nil
    · exact Turn.listSpelling_listChars hempty hnone
  | bracket kind a b t iha ihb ih =>
    refine hcons ?_ ih
    simpa [Node.chars] using Node.Spelling.bracket iha (ihb.blanks hspace)
  | repeated body n t ihbody ih =>
    refine hcons ?_ ih
    simpa [Node.chars] using Node.Spelling.repeated ihbody (by decide : [] ∈ stars)

/-! ## Reading -/

namespace Tree

variable {t : Tree} {s : String}

/-- **Every spelling of a tree is read as the fused tree.** -/
theorem ofText_of_spelling (hfilled : t.Filled) (h : t.Spelling s.toList) :
    ofText s = .ok t.fuse := by
  have hrespells : Respells t.tokens s.toList := by simpa using h.respells .nil
  have hnormal : Notation.respell s.toList
      = Notation.dropStars (Notation.respellTurns s.toList) := by
    have hparens := Notation.stripPlainParens_eq_self hrespells.counted.behindPairs
    exact congrArg Notation.dropStars hparens
  refine ofText_eq_ok_iff.2 ⟨t.tokens, ?_, written_tokens hfilled, joined_fuse t⟩
  rw [hnormal]
  exact hrespells.renders

/-- **All spellings mean the same.** A tree whose groups show something in each of their lists, without
    empty sequences and without neighbouring sequences, is what each of its spellings is read as. -/
theorem ofText_any_spelling (hfilled : t.Filled) (hjoined : t.Joined)
    (hfull : ∀ ts, (Node.seq ts).Anywhere t → ts ≠ []) (h : t.Spelling s.toList) :
    ofText s = .ok t := by
  rw [ofText_of_spelling hfilled h, fuse_eq_self hjoined hfull]

/-- All kinds of primes, on both sides of a `2`, both spellings of wide turns, counts with and without a
    star, and blanks or none. -/
theorem ofText_any_spelling_mixed :
    let s := "Rw2\u2019U\u2032 [U'2:( x\u2019fM\u20322 )*2\n]\t([D ,Lw']\u3000)12 "
    let run : List Turn := [⟨.wide .R, .double⟩, ⟨.face .U, .ccw⟩]
    let inner : List Turn := [⟨.rotation .x, .ccw⟩, ⟨.wide .F, .cw⟩, ⟨.slice .M, .double⟩]
    let t : Tree :=
      [.seq run,
        .bracket .conjugate [.seq [⟨.face .U, .double⟩]] [.repeated [.seq inner] 2],
        .repeated [.bracket .commutator [.seq [⟨.face .D, .cw⟩]] [.seq [⟨.wide .L, .ccw⟩]]] 12]
    (t.Filled ∧ t.Joined ∧ (∀ ts, (Node.seq ts).Anywhere t → ts ≠ []) ∧ t.Spelling s.toList)
      ∧ ofText s = .ok t := by
  intro s run inner t
  have hnone : ∀ c ∈ [], isBlank c := by simp
  have hspace : ∀ c ∈ [' '], isBlank c := List.all_eq_true.1 (by decide)
  have hline : ∀ c ∈ ['\n'], isBlank c := List.all_eq_true.1 (by decide)
  have htab : ∀ c ∈ ['\t'], isBlank c := List.all_eq_true.1 (by decide)
  have hwide : ∀ c ∈ ['\u3000'], isBlank c := List.all_eq_true.1 (by decide)
  have hrun : Turn.ListSpelling run _ :=
    .cons hnone (by decide : "Rw2\u2019".toList ∈ _)
      (.cons hnone (by decide : "U\u2032".toList ∈ _) .nil)
  have hsetup : Turn.ListSpelling [⟨.face .U, .double⟩] _ :=
    .cons hnone (by decide : "U'2".toList ∈ _) .nil
  have hinner : Turn.ListSpelling inner _ :=
    .cons hspace (by decide : "x\u2019".toList ∈ _)
      (.cons hnone (by decide : "f".toList ∈ _)
        (.cons hnone (by decide : "M\u20322".toList ∈ _) .nil))
  have hleft : Turn.ListSpelling [⟨.face .D, .cw⟩] _ :=
    .cons hnone (by decide : "D".toList ∈ _) .nil
  have hright : Turn.ListSpelling [⟨.wide .L, .ccw⟩] _ :=
    .cons hnone (by decide : "Lw'".toList ∈ _) .nil
  have hcontents : Node.ListSpelling [.seq inner] _ := .cons hnone (.seq hinner) (.nil hspace)
  have hconjugate : Node.Spelling (.bracket .conjugate _ [.repeated _ 2]) _ :=
    .bracket (.cons hnone (.seq hsetup) (.nil hnone))
      (.cons hnone (.repeated hcontents (by decide : ['*'] ∈ stars)) (.nil hline))
  have hcommutator : Node.Spelling (.bracket .commutator _ _) _ :=
    .bracket (.cons hnone (.seq hleft) (.nil hspace)) (.cons hnone (.seq hright) (.nil hnone))
  have hgroup : Node.Spelling (.repeated _ 12) _ :=
    .repeated (.cons hnone hcommutator (.nil hwide)) (by decide : [] ∈ stars)
  have hspelled : t.Spelling _ :=
    .cons hnone (.seq hrun) (.cons hspace hconjugate (.cons htab hgroup (.nil hspace)))
  have hs : t.Spelling s.toList := by
    convert hspelled using 1
    decide +kernel
  have hfull : ∀ ts, (Node.seq ts).Anywhere t → ts ≠ [] := by
    simp [Node.Anywhere, t, run, inner]
  have hfilled : t.Filled := by decide
  have hjoined : t.Joined := by decide
  exact ⟨⟨hfilled, hjoined, hfull, hs⟩, ofText_any_spelling hfilled hjoined hfull hs⟩

end Tree

end Cubing
