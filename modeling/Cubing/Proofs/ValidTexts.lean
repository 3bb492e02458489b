import Cubing.Proofs.Concatenation
import Cubing.Proofs.CountedPairs
import Cubing.Proofs.Scanning
import Cubing.Proofs.ViablePrefixes

set_option autoImplicit false

/-! # Normalizing what is notation already

A text that is notation as it stands has nothing that could be spelled in another way, except that
blanks may stand between a closing parenthesis and its count. Normalization looks for the count
directly behind the parenthesis. If a pair with no other pair in it has its count further on, the pair
is dropped, and its count is left behind something that is no parenthesis (`Notation.StrayCount`).
Nothing that normalization does later mends that, and no notation has such a count
(`Token.Renders.not_strayCount`).

So notation is read as the same tree if the count is directly behind each of these pairs, and else
it is not read at all (`Tree.ofText_valid_iff`). -/

namespace Cubing

open Text (isBlank)

namespace Notation

variable {cs mid xs ys inner rest : List Char} {opened : Option (List Char)}

/-! ## Stretches without parentheses -/

theorem stripPairs_none_append (hflat : Flat xs) (ys : List Char) :
    stripPairs none (xs ++ ys) = xs ++ stripPairs none ys := by
  induction xs with
  | nil => rfl
  | cons c xs ih =>
    obtain ⟨⟨hopen, hclose⟩, hflat⟩ := List.forall_mem_cons.1 hflat
    rw [List.cons_append, stripPairs_none_cons hopen hclose, ih hflat, List.cons_append]

/-- A stretch without a character is on one side of it. -/
theorem infix_append_cons {c : Char} (h : mid <:+: xs ++ c :: ys) (hc : c ∉ mid) :
    mid <:+: xs ∨ mid <:+: ys := by
  have hprefix {zs : List Char} (hzs : zs <+: c :: ys) (hmem : c ∉ zs) : zs = [] := by
    rcases List.prefix_cons_iff.1 hzs with rfl | ⟨zs, rfl, -⟩
    · rfl
    · exact absurd List.mem_cons_self hmem
  rcases List.infix_append_iff.1 h with h | h | ⟨front, back, rfl, hfront, hback⟩
  · exact .inl h
  · rcases List.infix_cons_iff.1 h with h | h
    · obtain rfl := hprefix h hc
      exact .inl List.nil_infix
    · exact .inr h
  · obtain rfl := hprefix hback fun hmem => hc (List.mem_append_right _ hmem)
    exact .inl (by simpa using hfront.isInfix)

/-- **Dropping pairs leaves every stretch without parentheses as it is.** -/
theorem infix_stripPairs (hflat : Flat mid) (h : mid <:+: reopened opened ++ cs) :
    mid <:+: stripPairs opened cs := by
  have hopen : '(' ∉ mid := fun hmem => (hflat _ hmem).1 rfl
  have hclose : ')' ∉ mid := fun hmem => (hflat _ hmem).2 rfl
  fun_induction stripPairs opened cs with
  | case1 opened => simpa using h
  | case2 opened cs ih =>
    rcases infix_append_cons h hopen with h | h
    · exact List.infix_append_of_infix_left h
    · exact List.infix_append_of_infix_right (ih (List.infix_cons h))
  | case3 cs ih =>
    rcases infix_append_cons h hclose with h | h
    · exact h.trans List.nil_infix
    · exact List.infix_cons (ih h)
  | case4 cs inner hcount ih =>
    rcases infix_append_cons h hclose with h | h
    · exact List.infix_append_of_infix_left h
    · exact List.infix_append_of_infix_right (List.infix_cons (ih h))
  | case5 cs inner hcount ih =>
    rcases infix_append_cons h hclose with h | h
    · have hinner : mid <:+: [] ∨ mid <:+: inner.reverse := infix_append_cons h hopen
      rcases hinner with h | h
      · exact h.trans List.nil_infix
      · exact List.infix_append_of_infix_left h
    · exact List.infix_append_of_infix_right (ih h)
  | case6 c cs hleft hright ih =>
    rcases List.infix_cons_iff.1 h with ⟨ys, hhere⟩ | h
    · -- The stretch is at the start, where all characters stay.
      rw [← stripPairs_none_cons hleft hright, ← hhere, stripPairs_none_append hflat]
      exact (List.prefix_append _ _).isInfix
    · exact List.infix_cons (ih h)
  | case7 c cs _ _ inner ih => exact ih (by simpa [reopened] using h)

theorem infix_stripPlainParens (hflat : Flat mid) (h : mid <:+: cs) :
    mid <:+: stripPlainParens cs := by
  fun_induction stripPlainParens cs with
  | case1 cs next hshorter ih => exact ih (infix_stripPairs hflat h)
  | case2 cs next hdone => exact h

/-! ## Counts that are left behind -/

/-- A digit after a blank, and no parenthesis between it and what is before the blank. -/
def StrayCount (cs : List Char) : Prop :=
  ∃ (front : List Char) (b d : Char), front ++ [b, d] <:+: cs ∧ Flat front ∧
    (∃ c ∈ front, isBlank c = false) ∧ isBlank b ∧ d.isDigit

theorem Flat.of_isBlank (h : ∀ c ∈ xs, isBlank c) : Flat xs :=
  fun c hc => ⟨ne_of_isBlank (h c hc) (by decide), ne_of_isBlank (h c hc) (by decide)⟩

theorem StrayCount.stripPlainParens (h : StrayCount cs) : StrayCount (stripPlainParens cs) := by
  obtain ⟨front, b, d, hinfix, hflat, hfilled, hb, hd⟩ := h
  have hblank : Flat [b] := .of_isBlank (by simp [hb])
  have hdigit : Flat [d] := .of_isDigit (by simp [hd])
  have hstretch : Flat (front ++ ([b] ++ [d])) := hflat.append (hblank.append hdigit)
  exact ⟨front, b, d, infix_stripPlainParens hstretch hinfix, hflat, hfilled, hb, hd⟩

/-- A pair whose count is behind blanks is dropped, and leaves its count. -/
theorem strayCount_stripPairs {blanks : List Char} {d : Char} (hflat : Flat inner)
    (hfilled : ∃ c ∈ inner, isBlank c = false) (hblanks : ∀ c ∈ blanks, isBlank c)
    (hne : blanks ≠ []) (hd : d.isDigit) (before after : List Char) :
    StrayCount (stripPairs none (before ++ '(' :: (inner ++ ')' :: (blanks ++ d :: after)))) := by
  have hcount : countFollows (blanks ++ d :: after) = false := by
    obtain ⟨c, cs, rfl⟩ := List.exists_cons_of_ne_nil hne
    have hnone : countFollows ([] ++ c :: (cs ++ d :: after)) = countFollows [] :=
      countFollows_append_blank (hblanks c List.mem_cons_self)
    exact hnone
  obtain ⟨bs, b, rfl⟩ := (List.eq_nil_or_concat' blanks).resolve_left hne
  have hdropped : stripPairs none (before ++ '(' :: (inner ++ ')' :: (bs ++ [b] ++ d :: after)))
      = stripPairs none before ++ (inner ++ bs ++ [b, d] ++ stripPairs none after) := by
    have hdigit : Flat [d] := .of_isDigit (by simp [hd])
    have hrest : Flat (bs ++ [b] ++ [d]) := (Flat.of_isBlank hblanks).append hdigit
    rw [stripPairs_pair hflat hcount, List.append_cons _ d, stripPairs_none_append hrest]
    simp
  obtain ⟨hbs, hb⟩ := List.forall_mem_append.1 hblanks
  obtain ⟨c, hc, hfull⟩ := hfilled
  refine ⟨inner ++ bs, b, d, ?_, hflat.append (.of_isBlank hbs),
    ⟨c, List.mem_append_left _ hc, hfull⟩, hb b List.mem_cons_self, hd⟩
  rw [hdropped]
  exact ⟨stripPairs none before, stripPairs none after, by simp⟩

end Notation

/-! ## Places of counts -/

namespace Token

/-- Tokens that do not start with a count and have counts after closing parentheses only. -/
structure CountsPlaced (tokens : List Token) : Prop where
  head : ∀ t ∈ tokens.head?, t.kind ≠ .multiplier
  isChain : tokens.IsChain CountAfter

theorem CountsPlaced.of_forall {tokens : List Token} (h : ∀ t ∈ tokens, t.kind ≠ .multiplier) :
    CountsPlaced tokens where
  head t ht := h t (List.mem_of_head? ht)
  isChain := by
    refine (List.pairwise_of_forall_mem_list fun a _ b hb => ?_).isChain
    intro hcount
    exact absurd hcount (h b hb)

theorem CountsPlaced.append {ts us : List Token} (hts : CountsPlaced ts) (hus : CountsPlaced us) :
    CountsPlaced (ts ++ us) where
  head := by
    cases ts with
    | nil => exact hus.head
    | cons t ts => exact hts.head
  isChain := by
    refine List.isChain_append.2 ⟨hts.isChain, hus.isChain, ?_⟩
    intro a _ b hb hcount
    exact absurd hcount (hus.head b hb)

end Token

/-- What writes elements has its counts after closing parentheses only. -/
theorem Tree.Written.countsPlaced {t : Tree} {tokens : List Token} (h : t.Written tokens) :
    Token.CountsPlaced tokens := by
  have hsingle {u : Token} {kind : Token.Kind} (hkind : u.kind = kind)
      (hne : kind ≠ .multiplier) : Token.CountsPlaced [u] :=
    .of_forall fun v hv => by
      obtain rfl := List.mem_singleton.1 hv
      rwa [hkind]
  induction h using Tree.Written.induction with
  | nil => exact .of_forall (by simp)
  | @seq ts t here there nonempty turns rest ih =>
    refine .append (.of_forall ?_) ih
    intro u hu hcount
    have hmem : u.turn? ∈ ts.map some := turns ▸ List.mem_map_of_mem hu
    simp [Token.turn?, hcount] at hmem
  | @bracket kind _ _ _ _ _ _ _ _ _ left between right _ _ _ _ _ iha ihb ih =>
    have hmid := hsingle between (by cases kind <;> decide)
    have hfirst := (hsingle left (by decide)).append iha
    have hsecond := (hmid.append ihb).append (hsingle right (by decide))
    refine .append ?_ ih
    simpa using hfirst.append hsecond
  | @repeated _ _ _ _ opening closing count left right counts _ _ _ ihbody ih =>
    have hpair : Token.CountsPlaced [closing, count] := by
      refine ⟨?_, List.isChain_pair.2 fun _ => right⟩
      intro u hu
      obtain rfl : closing = u := by simpa using hu
      rw [right]
      decide
    exact (((hsingle left (by decide)).append ihbody).append hpair).append ih

namespace Token

open Notation (Flat StrayCount BehindPairs DigitFollows)

variable {t : Token} {tokens : List Token} {cs : List Char}

/-- A text starts with blanks and its first token. -/
theorem Renders.exists_of_cons (h : Renders (t :: tokens) cs) :
    ∃ blanks rest, cs = blanks ++ (t.chars ++ rest) ∧ (∀ c ∈ blanks, isBlank c) ∧ t.Spelled := by
  generalize hall : t :: tokens = all at h
  induction h with
  | nil => cases hall
  | @blank us c cs hc _ ih =>
    obtain ⟨blanks, rest, rfl, hblanks, hspelled⟩ := ih hall
    exact ⟨c :: blanks, rest, rfl, List.forall_mem_cons.2 ⟨hc, hblanks⟩, hspelled⟩
  | @token u us cs spelled ends rest ih =>
    obtain ⟨rfl, rfl⟩ := List.cons.inj hall
    exact ⟨[], cs, rfl, by simp, spelled⟩

theorem Spelled.digits_of_multiplier (h : t.Spelled) (hkind : t.kind = .multiplier) :
    ∃ d ds, t.chars = d :: ds ∧ d.isDigit := by
  cases h with
  | turn t => cases hkind
  | count nonempty digits =>
    obtain ⟨d, ds, rfl⟩ := List.exists_cons_of_ne_nil nonempty
    exact ⟨d, ds, rfl, digits d List.mem_cons_self⟩
  | mark hmark => exact absurd hkind hmark.2.2

theorem Spelled.chars_of_rightParen (h : t.Spelled) (hkind : t.kind = .rightParen) :
    t.chars = [')'] := by
  have hmatches : t.kind.matches t.chars := spelled_iff_matches.1 h
  rw [hkind] at hmatches
  exact of_decide_eq_true hmatches

/-- A text that starts with a digit starts with a count. -/
theorem Renders.exists_count_of_cons {d : Char} (h : Renders tokens (d :: cs)) (hd : d.isDigit) :
    ∃ u us, tokens = u :: us ∧ u.kind = .multiplier := by
  rcases h.head_cases with ⟨hblank, -⟩ | ⟨u, us, rfl, hstart⟩
  · rw [isDigit_eq_false_of_isBlank hblank] at hd
    cases hd
  · exact ⟨u, us, rfl, (Option.some.inj ((startKind?_of_isDigit hd).symm.trans hstart)).symm⟩

/-- In notation, no count stands directly behind a prime. -/
theorem Renders.behind_prime {xs ys : List Char} (h : Renders tokens (xs ++ '\'' :: ys))
    (hcounts : CountsPlaced tokens) : ∀ d ∈ ys.head?, d.isDigit = false := by
  intro d hd
  refine Bool.eq_false_iff.2 fun hdigit => ?_
  cases h.charAt with
  | blank hc => cases hc
  | @token t ts us _ _ _ _ spelled chars left right =>
    obtain ⟨m, hturn, -, rfl⟩ := spelled.of_prime chars
    obtain ⟨ys, rfl⟩ := List.head?_eq_some_iff.1 hd
    obtain ⟨u, us, rfl, hcount⟩ := right.exists_count_of_cons hdigit
    have hchain := (List.isChain_append.1 hcounts.isChain).2.1
    have hparen : t.kind = .rightParen := (List.isChain_cons_cons.1 hchain).1 hcount
    cases hturn.symm.trans hparen

/-- In notation, what is before a count is its parenthesis, and blanks. -/
theorem Renders.not_strayCount (h : Renders tokens cs) (hcounts : CountsPlaced tokens) :
    ¬ StrayCount cs := by
  rintro ⟨front, b, d, ⟨before, after, rfl⟩, hflat, ⟨c, hc, hfull⟩, hb, hd⟩
  have hsplit : before ++ (front ++ [b, d]) ++ after = (before ++ front) ++ b :: d :: after := by
    simp
  rw [hsplit] at h
  obtain ⟨ts, us, rfl, hleft, hright⟩ := h.split_blank hb
  -- The digit starts a count, so the token before it is a closing parenthesis.
  obtain ⟨u, us, rfl, hcount⟩ := hright.exists_count_of_cons hd
  obtain ⟨ts, a, rfl⟩ : ∃ front a, ts = front ++ [a] := by
    refine (List.eq_nil_or_concat' ts).resolve_left ?_
    rintro rfl
    exact hcounts.head u rfl hcount
  have hparen : a.kind = .rightParen := by
    have hchain := (List.isChain_append.1 hcounts.isChain).2.2
    exact hchain a (by simp) u rfl hcount
  have hlast : ((before ++ front).filter (!isBlank ·)).getLast? = some ')' := by
    have hchars := (hleft.spelled (by simp)).chars_of_rightParen hparen
    rw [hleft.filter_isBlank]
    simp [hchars]
  -- But the last character that is no blank is none.
  have hfront : ')' ∈ front := by
    have hne : front.filter (!isBlank ·) ≠ [] :=
      List.ne_nil_of_mem (List.mem_filter.2 ⟨hc, by simp [hfull]⟩)
    rw [List.filter_append, List.getLast?_append_of_ne_nil _ hne] at hlast
    exact List.mem_of_mem_filter (List.mem_of_getLast? hlast)
  exact (hflat _ hfront).2 rfl

end Token

/-- In what is written, there is something in each pair of parentheses, and a count behind it. -/
theorem Tree.Written.in_parens {t : Tree} {ts us vs : List Token} {opening closing : Token}
    (h : t.Written (ts ++ opening :: (us ++ closing :: vs))) (hopening : opening.kind = .leftParen)
    (hclosing : closing.kind = .rightParen) :
    us ≠ [] ∧ ∃ count rest, vs = count :: rest ∧ count.kind = .multiplier := by
  -- The reading of the tokens is cut before the opening and before the closing parenthesis.
  have hread := Tree.ofTokens_of_written h.fuse (Tree.joined_fuse t)
  obtain ⟨e, hreads, -⟩ := Tree.ofTokens_eq_ok_iff.1 hread
  obtain ⟨r, -, hopened⟩ := Reading.reads_append_iff.1 hreads
  cases hopened with
  | cons hstep hrest =>
    obtain ⟨before, outer, rfl⟩ := hstep.of_leftParen hopening
    obtain ⟨r', hus, hclosed⟩ := Reading.reads_append_iff.1 hrest
    cases hclosed with
    | cons hstep hrest =>
      obtain ⟨current, before', outer', rfl, hfull, rfl⟩ := hstep.of_rightParen hclosing
      constructor
      · rintro rfl
        cases hus
        exact hfull rfl
      · cases hrest with
        | cons hstep _ =>
          cases hstep with
          | count kind => exact ⟨_, _, rfl, kind⟩

/-- **A pair whose count is not directly behind it leaves the count where no notation has one.** -/
theorem Token.Renders.strayCount {t : Tree} {tokens : List Token} {cs : List Char}
    (h : Renders tokens cs) (hwritten : t.Written tokens)
    (hnot : ¬ Notation.BehindPairs Notation.DigitFollows cs) :
    Notation.StrayCount (Notation.stripPairs none cs) := by
  simp only [Notation.BehindPairs, not_forall] at hnot
  obtain ⟨inner, rest, ⟨before, rfl⟩, hflat, hdigit⟩ := hnot
  obtain ⟨ts, us, rfl, -, hopened⟩ := h.split_mark (by decide : IsMark .leftParen '(')
  obtain ⟨us, vs, rfl, hinner, hrest⟩ := hopened.split_mark (by decide : IsMark .rightParen ')')
  obtain ⟨hfull, count, vs, rfl, hcount⟩ := hwritten.in_parens rfl rfl
  have hfilled : ∃ c ∈ inner, isBlank c = false := by
    obtain ⟨u, us, rfl⟩ := List.exists_cons_of_ne_nil hfull
    obtain ⟨blanks, rest, rfl, -, hspelled⟩ := hinner.exists_of_cons
    obtain ⟨c, hc⟩ := List.exists_mem_of_ne_nil _ hspelled.chars_ne_nil
    exact ⟨c, by simp [hc], hspelled.isBlank_eq_false hc⟩
  obtain ⟨blanks, after, rfl, hblanks, hspelled⟩ := hrest.exists_of_cons
  obtain ⟨d, ds, hchars, hd⟩ := hspelled.digits_of_multiplier hcount
  have hne : blanks ≠ [] := by
    rintro rfl
    exact hdigit ⟨d, by simp [hchars], hd⟩
  rw [hchars]
  exact Notation.strayCount_stripPairs hflat hfilled hblanks hne hd before (ds ++ after)

/-! ## Reading notation -/

namespace Tree

/-- **Normalizing notation.** A text that is notation as it stands is read as the same tree if there
    is a digit directly behind each pair of parentheses with no other pair in it. Else it is not
    read. -/
theorem ofText_valid_iff {s : String} {t : Tree} (h : ofCanonical s.toList = .ok t) :
    (ofText s = .ok t ↔ Notation.BehindPairs Notation.DigitFollows s.toList)
      ∧ ∀ u, ofText s = .ok u → u = t := by
  obtain ⟨tokens, hrenders, hwritten, hjoined⟩ := ofCanonical_eq_ok_iff.1 h
  have hrespell := hrenders.respell_eq hwritten.countsPlaced.isChain
  have hbehind (u) (hu : ofText s = .ok u) :
      Notation.BehindPairs Notation.DigitFollows s.toList := by
    by_contra hnot
    obtain ⟨tokens', hrenders', hwritten', -⟩ := ofText_eq_ok_iff.1 hu
    have hstray := (hrenders.strayCount hwritten hnot).stripPlainParens
    rw [Notation.stripPlainParens_stripPairs, ← hrespell] at hstray
    exact hrenders'.not_strayCount hwritten'.countsPlaced hstray
  have hread (hpairs : Notation.BehindPairs Notation.DigitFollows s.toList) :
      ofText s = .ok t := by
    have hcounts : Notation.BehindPairs (fun rest => Notation.countFollows rest) s.toList :=
      fun inner rest hpair hflat => Notation.countFollows_of_isDigit (hpairs inner rest hpair hflat)
    rw [Notation.stripPlainParens_eq_self hcounts] at hrespell
    exact ofText_eq_ok_iff.2 ⟨tokens, hrespell.symm ▸ hrenders, hwritten, hjoined⟩
  refine ⟨⟨hbehind t, hread⟩, fun u hu => ?_⟩
  exact Except.ok.inj (hu.symm.trans (hread (hbehind u hu)))

/-- Blanks before the count of a pair that has another pair in it do no harm. -/
theorem ofText_valid_iff_nested :
    let s := "[M,\t((R)2\u2003U' ) 3]\n"
    let t : Tree :=
      [.bracket .commutator [.seq [⟨.slice .M, .cw⟩]]
        [.repeated [.repeated [.seq [⟨.face .R, .cw⟩]] 2, .seq [⟨.face .U, .ccw⟩]] 3]]
    ofCanonical s.toList = .ok t ∧ ofText s = .ok t
      ∧ Notation.BehindPairs Notation.DigitFollows s.toList := by
  intro s t
  have hcanonical : ofCanonical s.toList = .ok t := by decide +kernel
  have hread : ofText s = .ok t := by decide +kernel
  exact ⟨hcanonical, hread, (ofText_valid_iff hcanonical).1.1 hread⟩

/-- The count of `(R) 2` is left behind the turn. -/
theorem ofText_rejects_notation :
    ofCanonical "(R) 2".toList = .ok [.repeated [.seq [⟨.face .R, .cw⟩]] 2]
      ∧ ofText "(R) 2" = .error (.grammar ⟨1, .unexpectedToken ['2'] 2⟩) := by
  decide +kernel

end Tree

end Cubing
