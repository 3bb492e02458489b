import Cubing.Notation.Reading
import Cubing.Proofs.NormalizingJoined
import Cubing.Proofs.ReadingTokens
import Cubing.Proofs.Sizes
import Cubing.Puzzle.Cube

set_option autoImplicit false

/-! # One algorithm after another

Writing two algorithms with a space between them writes the algorithm that does one after the other
(`Tree.ofText_append`): its elements are those of both, except that a sequence at the end of the
first and one at the start of the second become one sequence (`Tree.concat`).

What is written closes all its parentheses (`Tree.Written.unclosed`), so a text that is read does so
as well once it is normalized. Then normalization does not reach across the space, the tokens of both
texts follow each other, and the grammar takes them one after the other. -/

namespace Cubing

/-! ## Tokens that close their parentheses -/

namespace Token

/-- The number of open parentheses after one more token. -/
def depth (n : Nat) (t : Token) : Nat :=
  match t.kind with
  | .leftParen => n + 1
  | .rightParen => n - 1
  | _ => n

/-- The number of open parentheses after some tokens. -/
def unclosed (n : Nat) (tokens : List Token) : Nat := tokens.foldl depth n

variable {n : Nat} {t : Token} {ts us : List Token}

@[simp] theorem unclosed_nil : unclosed n [] = n := rfl

@[simp] theorem unclosed_cons : unclosed n (t :: ts) = unclosed (t.depth n) ts := rfl

@[simp] theorem unclosed_append : unclosed n (ts ++ us) = unclosed (unclosed n ts) us :=
  List.foldl_append

theorem depth_of_kind {kind : Kind} (h : t.kind = kind) (hopen : kind ≠ .leftParen)
    (hclose : kind ≠ .rightParen) : t.depth n = n := by
  unfold depth
  split
  · rename_i hkind
    exact absurd (h.symm.trans hkind) hopen
  · rename_i hkind
    exact absurd (h.symm.trans hkind) hclose
  · rfl

theorem depth_of_leftParen (h : t.kind = .leftParen) : t.depth n = n + 1 := by
  simp [depth, h]

theorem depth_of_rightParen (h : t.kind = .rightParen) : t.depth n = n - 1 := by
  simp [depth, h]

theorem kind_of_turn?_ne_none (h : t.turn? ≠ none) : t.kind = .turn := by
  unfold turn? at h
  split at h
  · assumption
  · exact absurd rfl h

theorem unclosed_of_forall_turn? (h : ∀ t ∈ ts, t.turn? ≠ none) : unclosed n ts = n := by
  induction ts with
  | nil => rfl
  | cons t ts ih =>
    obtain ⟨ht, hts⟩ := List.forall_mem_cons.1 h
    have hkind : t.kind = .turn := kind_of_turn?_ne_none ht
    rw [unclosed_cons, depth_of_kind hkind (by decide) (by decide), ih hts]

/-- The characters of a token open and close what the token does. -/
theorem Spelled.unclosed_chars (h : t.Spelled) : Notation.unclosed n t.chars = t.depth n := by
  cases h with
  | turn t =>
    refine Notation.Flat.unclosed_eq fun c hc => ?_
    exact ⟨ne_of_mem_turn_chars hc (by decide) (by decide) (by decide),
      ne_of_mem_turn_chars hc (by decide) (by decide) (by decide)⟩
  | count nonempty digits => exact (Notation.Flat.of_isDigit digits).unclosed_eq
  | mark hmark =>
    obtain ⟨hstart, hturn, hcount⟩ := hmark
    rcases of_startKind?_eq_some hstart with hc | ⟨m, rfl⟩ | hdigit
    · simp only [List.mem_cons, List.not_mem_nil, or_false] at hc
      rcases hc with rfl | rfl | rfl | rfl | rfl | rfl <;> cases hstart <;> rfl
    · exact absurd (Option.some.inj (hstart.symm.trans (startKind?_letter m))) hturn
    · exact absurd (Option.some.inj (hstart.symm.trans (startKind?_of_isDigit hdigit))) hcount

theorem Renders.unclosed_eq {cs : List Char} (h : Renders ts cs) :
    Notation.unclosed n cs = unclosed n ts := by
  induction h generalizing n with
  | nil => rfl
  | blank hc rest ih =>
    have hopen := Notation.ne_of_isBlank hc (d := '(') (by decide)
    have hclose := Notation.ne_of_isBlank hc (d := ')') (by decide)
    rw [Notation.unclosed_cons, Notation.depth_of_ne hopen hclose, ih]
  | token spelled ends rest ih =>
    rw [Notation.unclosed_append, spelled.unclosed_chars, ih, unclosed_cons]

end Token

/-- What is written closes all parentheses that it opens. -/
theorem Tree.Written.unclosed {t : Tree} {tokens : List Token} (h : t.Written tokens) (n : Nat) :
    Token.unclosed n tokens = n := by
  induction h using Tree.Written.induction generalizing n with
  | nil => rfl
  | @seq ts t here there nonempty turns rest ih =>
    have hturns : ∀ u ∈ here, u.turn? ≠ none := by
      intro u hu hnone
      have hmem : u.turn? ∈ ts.map some := turns ▸ List.mem_map_of_mem hu
      simp [hnone] at hmem
    rw [Token.unclosed_append, Token.unclosed_of_forall_turn? hturns, ih]
  | @bracket kind _ _ _ _ _ _ _ _ _ left between right _ _ _ _ _ iha ihb ih =>
    have hopening (n) := Token.depth_of_kind (n := n) left (by decide) (by decide)
    have hmid (n) := Token.depth_of_kind (n := n) between (by cases kind <;> decide)
      (by cases kind <;> decide)
    have hclosing (n) := Token.depth_of_kind (n := n) right (by decide) (by decide)
    simp [hopening, hmid, hclosing, iha, ihb, ih]
  | repeated left right counts contents writes rest ihbody ih =>
    have hcount (n) := Token.depth_of_kind (n := n) counts (by decide) (by decide)
    simp [Token.depth_of_leftParen left, Token.depth_of_rightParen right, hcount, ihbody, ih]

/-! ## Joining two algorithms -/

namespace Tree

/-- One algorithm after another. A sequence that ends the first and one that starts the second become
    one. -/
def concat (s t : Tree) : Tree :=
  match s.getLast?, t with
  | some (.seq ts), .seq us :: rest => s.dropLast ++ .seq (ts ++ us) :: rest
  | _, _ => s ++ t

variable {s t : Tree}

/-- Two sequences meet, or the elements stay as they are. -/
theorem concat_cases (s t : Tree) :
    (∃ front ts us rest, s = front ++ [.seq ts] ∧ t = .seq us :: rest ∧
      s.concat t = front ++ .seq (ts ++ us) :: rest) ∨
    (s.concat t = s ++ t ∧ ∀ m ∈ s.getLast?, ∀ n ∈ t.head?, Node.Separate m n) := by
  unfold concat
  split
  · rename_i ts us rest hlast
    obtain ⟨front, rfl⟩ := List.getLast?_eq_some_iff.1 hlast
    exact .inl ⟨front, ts, us, rest, rfl, rfl, by simp⟩
  · rename_i hmeet
    refine .inr ⟨rfl, ?_⟩
    intro m hm n hn hfirst
    obtain ⟨rest, rfl⟩ := List.head?_eq_some_iff.1 hn
    cases n with
    | seq us =>
      obtain ⟨ts, hts⟩ := Option.isSome_iff_exists.1 hfirst
      cases m with
      | seq vs => exact absurd rfl (hmeet vs us rest hm)
      | bracket kind a b => cases hts
      | repeated body count => cases hts
    | bracket kind a b => rfl
    | repeated body count => rfl

/-- Two sequences are written one after the other by what writes each. -/
theorem written_seq_append {ts us : List Turn} {here there : List Token}
    (hts : Node.Written (.seq ts) here) (hus : Node.Written (.seq us) there) :
    Node.Written (.seq (ts ++ us)) (here ++ there) := by
  cases hts with
  | seq nonempty turns =>
    cases hus with
    | seq nonempty' turns' => exact .seq (by simp [nonempty]) (by simp [turns, turns'])

theorem Written.concat {ts us : List Token} (hs : s.Written ts) (ht : t.Written us) :
    (s.concat t).Written (ts ++ us) := by
  rcases concat_cases s t with ⟨front, xs, ys, rest, rfl, rfl, hconcat⟩ | ⟨hconcat, -⟩
  · obtain ⟨here, last, hfront, hlast, rfl⟩ := Node.listWritten_append_iff.1 hs
    obtain ⟨first, there, hfirst, hrest, rfl⟩ := Node.listWritten_cons_iff.1 ht
    have hseq := written_seq_append (Node.listWritten_singleton_iff.1 hlast) hfirst
    have hjoined := hfront.append (Node.ListWritten.cons hseq hrest)
    rw [hconcat]
    simpa [Tree.Written] using hjoined
  · rw [hconcat]
    exact Node.ListWritten.append hs ht

theorem Joined.concat (hs : s.Joined) (ht : t.Joined) : (s.concat t).Joined := by
  rw [joined_iff] at hs ht ⊢
  obtain ⟨hsapart, hsnodes⟩ := hs
  obtain ⟨htapart, htnodes⟩ := ht
  rcases concat_cases s t with ⟨front, xs, ys, rest, rfl, rfl, hconcat⟩ | ⟨hconcat, hmeet⟩
  · rw [hconcat]
    obtain ⟨hfront, -, hlast⟩ := List.isChain_append.1 hsapart
    obtain ⟨hfirst, hrest⟩ := List.isChain_cons.1 htapart
    -- Whether a sequence is apart from its neighbours does not depend on its turns.
    refine ⟨List.isChain_append.2 ⟨hfront, List.isChain_cons.2 ⟨hfirst, hrest⟩, ?_⟩, ?_⟩
    · intro m hm n hn
      obtain rfl : Node.seq (xs ++ ys) = n := by simpa using hn
      exact hlast m hm (.seq xs) rfl
    · simp only [List.mem_append, List.mem_cons] at hsnodes htnodes ⊢
      rintro n (hn | rfl | hn)
      · exact hsnodes n (.inl hn)
      · rfl
      · exact htnodes n (.inr hn)
  · rw [hconcat]
    refine ⟨List.isChain_append.2 ⟨hsapart, htapart, hmeet⟩, ?_⟩
    intro n hn
    rcases List.mem_append.1 hn with hn | hn
    · exact hsnodes n hn
    · exact htnodes n hn

theorem expand_concat (s t : Tree) : (s.concat t).expand = s.expand ++ t.expand := by
  rcases concat_cases s t with ⟨front, xs, ys, rest, rfl, rfl, hconcat⟩ | ⟨hconcat, -⟩
  · simp [hconcat]
  · rw [hconcat, expand_append]

/-! ## Joining two texts -/

/-- A text is read as it stands if it spells tokens, and they write a joined tree. -/
theorem ofCanonical_eq_ok_iff {cs : List Char} :
    ofCanonical cs = .ok t ↔ ∃ tokens, Token.Renders tokens cs ∧ t.Written tokens ∧ t.Joined := by
  simp only [ofCanonical, bind_eq_ok_iff, mapError_eq_ok_iff, Token.lex_eq_ok_iff,
    ofTokens_eq_ok_iff_written]

/-- A text is read if it spells tokens once it is normalized, and they write a joined tree. -/
theorem ofText_eq_ok_iff {a : String} :
    ofText a = .ok t ↔
      ∃ tokens, Token.Renders tokens (Notation.respell a.toList) ∧ t.Written tokens ∧ t.Joined := by
  simp only [ofText, ofChars, ofCanonical_eq_ok_iff, Token.renders_normalize_iff]

/-- **Texts with a space between them do one algorithm after the other.** The text is read as the
    elements of both. It is sequenced to the expansion of the first and then that of the second, with
    repetitions carried out element by element, too, if it expands to no more turns than can be
    counted; and its expansion makes of every cube what the second makes of what the first makes
    of it. -/
theorem ofText_append {a b : String} (hs : ofText a = .ok s) (ht : ofText b = .ok t) :
    ofText (a ++ " " ++ b) = .ok (s.concat t)
      ∧ s.sequence.turns? = some s.expand ∧ t.sequence.turns? = some t.expand
      ∧ (s.concat t).sequence.turns? = some (s.expand ++ t.expand)
      ∧ (∀ c : Cube, c.applyTurns (s.concat t).expand = (c.applyTurns s.expand).applyTurns t.expand)
      ∧ ((s.concat t).expand.length < UInt64.size → s.sequenceByCycling = s.sequence
        ∧ t.sequenceByCycling = t.sequence
        ∧ (s.concat t).sequenceByCycling = (s.concat t).sequence) := by
  obtain ⟨ts, hrenders, hwritten, hjoined⟩ := ofText_eq_ok_iff.1 hs
  obtain ⟨us, hrenders', hwritten', hjoined'⟩ := ofText_eq_ok_iff.1 ht
  have hclosed : Notation.unclosed 0 (Notation.respell a.toList) = 0 :=
    hrenders.unclosed_eq.trans (hwritten.unclosed 0)
  have hcut : Notation.respell (a ++ " " ++ b).toList
      = Notation.respell a.toList ++ ' ' :: Notation.respell b.toList := by
    rw [← Notation.respell_append_blank (by decide) (.inl hclosed)]
    simp
  have hboth := hwritten.concat hwritten'
  refine ⟨ofText_eq_ok_iff.2 ⟨ts ++ us, ?_, hboth, hjoined.concat hjoined'⟩, s.turns?_sequence,
    t.turns?_sequence, ?_, fun c => ?_, fun hlength => ?_⟩
  · rw [hcut]
    exact hrenders.append_blank (by decide) hrenders'
  · rw [turns?_sequence, expand_concat]
  · rw [expand_concat]
    exact c.applyTurns_append _ _
  · have hparts := hlength
    rw [expand_concat, List.length_append] at hparts
    exact ⟨hwritten.sequenceByCycling_eq (by omega), hwritten'.sequenceByCycling_eq (by omega),
      hboth.sequenceByCycling_eq hlength⟩

/-- Parentheses without a count go on both sides, a star before a count goes, and the turns that meet
    at the space are one sequence. -/
theorem ofText_append_meeting :
    let a := " ((R) Uw\u2019)*2 (F2')"
    let b := "(x) [M: U\u2032]  "
    let s : Tree :=
      [.repeated [.seq [⟨.face .R, .cw⟩, ⟨.wide .U, .ccw⟩]] 2, .seq [⟨.face .F, .double⟩]]
    let t : Tree :=
      [.seq [⟨.rotation .x, .cw⟩], .bracket .conjugate [.seq [⟨.slice .M, .cw⟩]]
        [.seq [⟨.face .U, .ccw⟩]]]
    let ts : List Turn := [⟨.face .R, .cw⟩, ⟨.wide .U, .ccw⟩, ⟨.face .R, .cw⟩, ⟨.wide .U, .ccw⟩,
      ⟨.face .F, .double⟩]
    let us : List Turn := [⟨.rotation .x, .cw⟩, ⟨.slice .M, .cw⟩, ⟨.face .U, .ccw⟩, ⟨.slice .M, .ccw⟩]
    (ofText a = .ok s ∧ ofText b = .ok t ∧ s.expand = ts ∧ t.expand = us ∧ s.concat t =
        [.repeated [.seq [⟨.face .R, .cw⟩, ⟨.wide .U, .ccw⟩]] 2,
          .seq [⟨.face .F, .double⟩, ⟨.rotation .x, .cw⟩],
          .bracket .conjugate [.seq [⟨.slice .M, .cw⟩]] [.seq [⟨.face .U, .ccw⟩]]])
      ∧ ofText (a ++ " " ++ b) = .ok (s.concat t)
      ∧ s.sequence.turns? = some ts ∧ t.sequence.turns? = some us
      ∧ (s.concat t).sequence.turns? = some (ts ++ us)
      ∧ (∀ c : Cube, c.applyTurns (s.concat t).expand = (c.applyTurns ts).applyTurns us)
      ∧ s.sequenceByCycling = s.sequence ∧ t.sequenceByCycling = t.sequence
      ∧ (s.concat t).sequenceByCycling = (s.concat t).sequence := by
  intro a b s t ts us
  have hs : ofText a = .ok s := by decide +kernel
  have ht : ofText b = .ok t := by decide +kernel
  have hlength : (s.concat t).expand.length < UInt64.size := by decide +kernel
  obtain ⟨happend, hfirst, hsecond, hboth, heffect, hcycling⟩ := ofText_append hs ht
  exact ⟨⟨hs, ht, by decide +kernel, by decide +kernel, by decide +kernel⟩, happend, hfirst, hsecond,
    hboth, heffect, hcycling hlength⟩

end Tree

end Cubing
