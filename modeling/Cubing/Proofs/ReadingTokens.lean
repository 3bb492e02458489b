import Cubing.Proofs.ReadingSteps
import Mathlib.Data.Nat.Digits.Defs

set_option autoImplicit false

/-! # Reading accepts exactly the grammar

What the machine returns is derived by the grammar, since what it holds accounts for its tokens.
Conversely, tokens that write a joined tree lead the machine from any list under construction to that
list with the tree's elements added (`Reading.reads_of_written`), by induction on the tree: a group
is opened on the stack, its lists are read in it, and its last token adds it to the list before.

A tree that is written but not joined is written by the same tokens as the fused tree, so tokens are
accepted whenever the grammar derives them at all (`Tree.ofTokens_reads_grammar`). -/

namespace Cubing

/-! ## What is written is read -/

namespace Reading

/-- Tokens of turns add to the open sequence. -/
theorem reads_turns {e : Elements} {ts : List Turn} {tokens : List Token}
    (h : tokens.map Token.turn? = ts.map some) (around : List OpenGroup) :
    Reads (elements e around) tokens (elements ⟨e.nodes, ts.reverse ++ e.turns⟩ around) := by
  induction ts generalizing e tokens with
  | nil =>
    obtain rfl : tokens = [] := by simpa using h
    exact .nil _
  | cons t ts ih =>
    obtain ⟨token, tokens, rfl⟩ : ∃ token rest, tokens = token :: rest := by
      cases tokens with
      | nil => cases h
      | cons token rest => exact ⟨token, rest, rfl⟩
    obtain ⟨hturn, hturns⟩ := List.cons.inj h
    simpa [Elements.addTurn] using Reads.cons (.turn hturn) (ih (e := e.addTurn t) hturns)

/-- A group is read by reading what is in it between its own tokens. -/
theorem reads_bracket {e left right : Elements} {kind : Bracket} {as bs : List Token}
    {opening mid closing : Token} (hopening : opening.kind = .leftBracket)
    (hmid : mid.kind = kind.separatorKind) (hclosing : closing.kind = .rightBracket)
    (hleft : left.toTree ≠ []) (hright : right.toTree ≠ [])
    (has : ∀ around, Reads (elements .empty around) as (elements left around))
    (hbs : ∀ around, Reads (elements .empty around) bs (elements right around))
    (around : List OpenGroup) :
    Reads (elements e around) (opening :: as ++ mid :: bs ++ [closing])
      (elements (e.addGroup (.bracket kind left.toTree right.toTree)) around) := by
  have hfirst := Reads.cons (.openBracket hopening) (has (.firstSide e :: around))
  have hsecond := Reads.cons (.separator kind hmid hleft)
    (hbs (.secondSide e kind left.toTree :: around))
  exact (hfirst.append hsecond).append (.single (.closeBracket hclosing hright))

theorem reads_repeated {e body : Elements} {tokens : List Token} {opening closing count : Token}
    (hopening : opening.kind = .leftParen) (hclosing : closing.kind = .rightParen)
    (hcount : count.kind = .multiplier) (hbody : body.toTree ≠ [])
    (htokens : ∀ around, Reads (elements .empty around) tokens (elements body around))
    (around : List OpenGroup) :
    Reads (elements e around) (opening :: tokens ++ [closing, count])
      (elements (e.addGroup (.repeated body.toTree (repeatCount count.chars))) around) := by
  have hcontents := Reads.cons (.openParens hopening) (htokens (.parens e :: around))
  exact hcontents.append (.cons (.closeParens hclosing hbody) (.single (.count hcount)))

/-- **Tokens that write joined elements add them to the list under construction.** -/
theorem reads_of_written {t : Tree} {tokens : List Token} {e : Elements} (h : t.Written tokens)
    (hapart : (e.toTree ++ t).IsChain Node.Separate) (hjoined : ∀ n ∈ t, n.joined) :
    ∃ e', e'.toTree = e.toTree ++ t ∧
      ∀ around, Reads (elements e around) tokens (elements e' around) := by
  induction h using Tree.Written.induction generalizing e with
  | nil => exact ⟨e, by simp, fun around => .nil _⟩
  | @seq ts t here there nonempty turns rest ih =>
    have hturns := Elements.turns_eq_nil_of_isChain hapart
    let next : Elements := ⟨e.nodes, ts.reverse ++ e.turns⟩
    have hnext : next.toTree = e.toTree ++ [.seq ts] := by
      rw [Elements.toTree_of_turns_ne_nil (by simp [next, nonempty]),
        Elements.toTree_of_turns_eq_nil hturns]
      simp [next, hturns]
    obtain ⟨e', he', hreads⟩ := ih (e := next) (by simpa [hnext] using hapart)
      (List.forall_mem_cons.1 hjoined).2
    exact ⟨e', by simp [he', hnext], fun around => (reads_turns turns around).append (hreads _)⟩
  | bracket left between right first second writesFirst writesSecond rest iha ihb ih =>
    obtain ⟨hbracket, htjoined⟩ := List.forall_mem_cons.1 hjoined
    obtain ⟨ha, hb⟩ := Tree.joined_bracket_iff.1 hbracket
    rw [Tree.joined_iff] at ha hb
    obtain ⟨ea, rfl, hreada⟩ := iha (e := .empty) (by simpa using ha.1) ha.2
    obtain ⟨eb, rfl, hreadb⟩ := ihb (e := .empty) (by simpa using hb.1) hb.2
    have hhere := reads_bracket (e := e) left between right first second hreada hreadb
    obtain ⟨e', he', hreads⟩ := ih (e := e.addGroup _) (by simpa using hapart) htjoined
    exact ⟨e', by simp [he'], fun around => (hhere around).append (hreads around)⟩
  | @repeated body _ _ _ _ _ _ left right counts contents writes rest ihbody ih =>
    obtain ⟨hrepeated, htjoined⟩ := List.forall_mem_cons.1 hjoined
    have hbody := (Tree.joined_iff body).1 (Tree.joined_repeated_iff.1 hrepeated)
    obtain ⟨eb, rfl, hreadb⟩ := ihbody (e := .empty) (by simpa using hbody.1) hbody.2
    have hhere := reads_repeated (e := e) left right counts contents hreadb
    obtain ⟨e', he', hreads⟩ := ih (e := e.addGroup _) (by simpa using hapart) htjoined
    exact ⟨e', by simp [he'], fun around => (hhere around).append (hreads around)⟩

end Reading

namespace Tree

/-- **What is written by tokens is read from them**, if it is joined. -/
theorem ofTokens_of_written {t : Tree} {tokens : List Token} (h : t.Written tokens)
    (hjoined : t.Joined) : ofTokens tokens = .ok t := by
  obtain ⟨hapart, hnodes⟩ := (joined_iff t).1 hjoined
  obtain ⟨e, he, hreads⟩ := Reading.reads_of_written (e := .empty) h (by simpa using hapart) hnodes
  exact ofTokens_eq_ok_iff.2 ⟨e, hreads [], by simpa using he⟩

/-- Tokens are read as the one joined tree that they write. -/
theorem ofTokens_eq_ok_iff_written {t : Tree} {tokens : List Token} :
    ofTokens tokens = .ok t ↔ t.Written tokens ∧ t.Joined := by
  constructor
  · intro h
    have hwritten := written_of_ofTokens h
    -- The fused tree is written by the same tokens, so it is what they are read as.
    have hfused := ofTokens_of_written hwritten.fuse (joined_fuse t)
    have heq : t = t.fuse := Except.ok.inj (h.symm.trans hfused)
    exact ⟨hwritten, heq ▸ joined_fuse t⟩
  · rintro ⟨hwritten, hjoined⟩
    exact ofTokens_of_written hwritten hjoined

end Tree

/-! ## The grammar -/

/-- Digits read one by one, each new one after ten times those before, are the decimal number. -/
theorem ofDigitChars_eq_ofDigits (cs : List Char) :
    Nat.ofDigitChars 10 cs 0
      = Nat.ofDigits 10 (cs.reverse.map fun c => c.toNat - '0'.toNat) := by
  rw [Nat.ofDigitChars_eq_foldl, Nat.ofDigits_eq_foldr, List.foldr_map, List.foldr_reverse]
  congr 1
  funext value c
  exact Nat.add_comm _ _

/-- A repeat count in digits is their decimal value, up to the largest count. -/
theorem toNat_repeatCount_eq_min {cs : List Char} (hne : cs ≠ []) (hdigits : ∀ c ∈ cs, c.isDigit) :
    (repeatCount cs).toNat
      = min (Nat.ofDigits 10 (cs.reverse.map fun c => c.toNat - '0'.toNat)) 4294967295 := by
  rw [toNat_repeatCount hne hdigits, ofDigitChars_eq_ofDigits]
  rfl

namespace Tree

/-- Tokens are accepted if they write a tree, whether or not it is joined. -/
theorem exists_ofTokens_eq_ok_iff {tokens : List Token} :
    (∃ t, ofTokens tokens = .ok t) ↔ ∃ t, Written t tokens := by
  constructor
  · rintro ⟨t, ht⟩
    exact ⟨t, written_of_ofTokens ht⟩
  · rintro ⟨t, ht⟩
    exact ⟨t.fuse, ofTokens_of_written ht.fuse (joined_fuse t)⟩

/-- **Reading accepts exactly the grammar.** Tokens are accepted if the grammar derives them in any
    way, and they are read as the one derivation whose longest runs of turns are one sequence each.
    A repeat count in digits is its decimal value, up to the largest count. -/
theorem ofTokens_reads_grammar (tokens : List Token) :
    ((∃ t, ofTokens tokens = .ok t) ↔ ∃ t, Written t tokens)
      ∧ (∀ t, ofTokens tokens = .ok t ↔ t.Written tokens ∧ t.Joined)
      ∧ ∀ token ∈ tokens, token.kind = .multiplier → token.chars ≠ []
        → (∀ c ∈ token.chars, c.isDigit)
        → (repeatCount token.chars).toNat
          = min (Nat.ofDigits 10 (token.chars.reverse.map fun c => c.toNat - '0'.toNat))
              4294967295 :=
  ⟨exists_ofTokens_eq_ok_iff, fun _ => ofTokens_eq_ok_iff_written,
    fun _ _ _ hne hdigits => toNat_repeatCount_eq_min hne hdigits⟩

/-- A commutator of a run of turns and a repetition whose count is beyond the largest one. -/
theorem ofTokens_reads_grammar_overflowing :
    let tokens : List Token :=
      [⟨.leftBracket, ['[']⟩, ⟨.turn, ['R']⟩, ⟨.turn, ['U', '\'']⟩, ⟨.comma, [',']⟩,
        ⟨.leftParen, ['(']⟩, ⟨.turn, ['M', '2']⟩, ⟨.rightParen, [')']⟩,
        ⟨.multiplier, "4294967296".toList⟩, ⟨.rightBracket, [']']⟩, ⟨.turn, ['x']⟩]
    let t : Tree :=
      [.bracket .commutator [.seq [⟨.face .R, .cw⟩, ⟨.face .U, .ccw⟩]]
          [.repeated [.seq [⟨.slice .M, .double⟩]] 4294967295],
        .seq [⟨.rotation .x, .cw⟩]]
    ofTokens tokens = .ok t ∧ t.Written tokens
      ∧ (repeatCount "4294967296".toList).toNat
        = min (Nat.ofDigits 10 [6, 9, 2, 7, 6, 9, 4, 9, 2, 4]) 4294967295 := by
  intro tokens t
  obtain ⟨-, hread, hcount⟩ := ofTokens_reads_grammar tokens
  have ht : ofTokens tokens = .ok t := by decide +kernel
  have hdigits : ∀ c ∈ "4294967296".toList, c.isDigit := List.all_eq_true.1 (by decide)
  have hlast := hcount ⟨.multiplier, "4294967296".toList⟩ (by decide) rfl (by decide) hdigits
  exact ⟨ht, ((hread t).1 ht).1, hlast⟩

end Tree

end Cubing
