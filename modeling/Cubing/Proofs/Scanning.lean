import Cubing.Notation.Scanning
import Cubing.Proofs.Lexing

set_option autoImplicit false

/-! # Scanning finds what reading finds

Scanning looks for the longest match at the cursor, and reading decides at each character whether the
token before it may take it. Both find the same, since a rule matches just what is spelled out as a
token (`Token.match?_eq_some_iff`): if of two tokens at one place one is longer, the shorter one takes
the character behind it (`Token.Spelled.takes_of_append`). So the longest match is the one token there
that does not take the character behind it (`Token.longest?_append`), and it starts wherever a
character starts a token. The cursor is between two characters all the time, so the text is never cut
inside one (`Token.scan_eq_lex`).

Reading goes on from character to character, and what it finds in one does not depend on the rest of
the text (`Token.lexFrom_cons_cases`). An error is the same, then, whatever follows it
(`Token.error_of_lexFrom`), so no text that has one is the beginning of a text that is read. -/

namespace Cubing

namespace Text

@[simp] theorem byteCount_nil : byteCount [] = 0 := rfl

@[simp] theorem byteCount_cons (c : Char) (cs : List Char) :
    byteCount (c :: cs) = c.utf8Size + byteCount cs := rfl

@[simp] theorem byteCount_append (cs ds : List Char) :
    byteCount (cs ++ ds) = byteCount cs + byteCount ds := by
  induction cs with
  | nil => simp
  | cons c cs ih => simp [ih, Nat.add_assoc]

/-- A text can be cut between any two of its characters. -/
theorem cutAt?_byteCount (before after : List Char) :
    cutAt? (byteCount before) (before ++ after) = some (before, after) := by
  induction before with
  | nil => cases after <;> rfl
  | cons c before ih =>
    have hpos := c.utf8Size_pos
    obtain ⟨n, hn⟩ : ∃ n, byteCount (c :: before) = n + 1 :=
      Nat.exists_eq_add_one.2 (by rw [byteCount_cons]; omega)
    have hrest : n + 1 - c.utf8Size = byteCount before := by rw [byteCount_cons] at hn; omega
    have hfits : c.utf8Size ≤ n + 1 := by rw [byteCount_cons] at hn; omega
    rw [hn, List.cons_append, cutAt?, if_pos hfits, hrest, ih]
    rfl

end Text

namespace Token

open Text (isBlank)

/-! ## What the rules match -/

/-- The tokens that the rules match are those that are spelled out. -/
theorem spelled_iff_matches {t : Token} : t.Spelled ↔ t.kind.matches t.chars := by
  constructor
  · intro h
    cases h with
    | turn t => simp [Kind.matches]
    | count nonempty digits => simpa [Kind.matches, nonempty] using digits
    | @mark kind c hmark =>
      obtain ⟨hstart, hturn, hcount⟩ := hmark
      rcases of_startKind?_eq_some hstart with hmem | ⟨m, rfl⟩ | hdigit
      · simp only [List.mem_cons, List.not_mem_nil, or_false] at hmem
        rcases hmem with rfl | rfl | rfl | rfl | rfl | rfl <;> cases hstart <;> rfl
      · exact absurd (Option.some.inj (hstart.symm.trans (startKind?_letter m))) hturn
      · exact absurd (Option.some.inj (hstart.symm.trans (startKind?_of_isDigit hdigit))) hcount
  · obtain ⟨kind, cs⟩ := t
    intro h
    cases kind with
    | turn =>
      obtain ⟨t, ht⟩ := Option.isSome_iff_exists.1 h
      obtain rfl : t.chars = cs := Turn.chars_of_ofChars? ht
      exact .turn t
    | multiplier =>
      simp only [Kind.matches, Bool.and_eq_true, Bool.not_eq_true', List.isEmpty_eq_false_iff,
        List.all_eq_true] at h
      exact .count h.1 h.2
    | leftBracket | rightBracket | colon | comma | leftParen | rightParen =>
      obtain rfl := of_decide_eq_true h
      exact .mark (by decide)

/-- A text is one token at most: its first character tells the kind. -/
theorem Spelled.eq_of_chars_eq {t u : Token} (ht : t.Spelled) (hu : u.Spelled)
    (h : t.chars = u.chars) : t = u := by
  obtain ⟨c, cs, hchars⟩ := List.exists_cons_of_ne_nil ht.chars_ne_nil
  have hstart := ht.startKind?_of_chars hchars
  have hstart' := hu.startKind?_of_chars (h ▸ hchars)
  have hkind : t.kind = u.kind := Option.some.inj (hstart.symm.trans hstart')
  cases t
  cases u
  rw [mk.injEq]
  exact ⟨hkind, h⟩

theorem match?_eq_some_iff {cs : List Char} {t : Token} :
    match? cs = some t ↔ t.Spelled ∧ t.chars = cs := by
  have hspelled {kind : Kind} (h : Kind.all.find? (·.matches cs) = some kind) :
      Spelled ⟨kind, cs⟩ := by
    have hmatches : kind.matches cs := by simpa using List.find?_some h
    exact spelled_iff_matches.2 hmatches
  constructor
  · intro h
    obtain ⟨kind, hkind, rfl⟩ := Option.map_eq_some_iff.1 h
    exact ⟨hspelled hkind, rfl⟩
  · rintro ⟨ht, rfl⟩
    obtain ⟨kind, hkind⟩ : ∃ kind, Kind.all.find? (·.matches t.chars) = some kind := by
      refine Option.isSome_iff_exists.1 (List.find?_isSome.2 ⟨t.kind, ?_, spelled_iff_matches.1 ht⟩)
      cases t.kind <;> decide
    rw [match?, hkind, Option.map_some, (hspelled hkind).eq_of_chars_eq ht rfl]

/-- No rule matches a text whose first character starts no token. -/
theorem match?_cons_eq_none {c : Char} (h : startKind? c = none) (cs : List Char) :
    match? (c :: cs) = none := by
  refine Option.eq_none_iff_forall_ne_some.2 fun t ht => ?_
  obtain ⟨hspelled, hchars⟩ := match?_eq_some_iff.1 ht
  cases h.symm.trans (hspelled.startKind?_of_chars hchars)

/-! ## The longest match -/

section

variable {t u : Token} {c : Char} {cs rest : List Char}

/-- **Of two tokens at one place the shorter one takes the next character.** -/
theorem Spelled.takes_of_append {more : List Char} (ht : t.Spelled) (hu : u.Spelled)
    (h : u.chars = t.chars ++ c :: more) : t.takes c := by
  obtain ⟨d, ds, hchars⟩ := List.exists_cons_of_ne_nil ht.chars_ne_nil
  have hlong : u.chars = d :: (ds ++ c :: more) := by rw [h, hchars, List.cons_append]
  have hkind : u.kind = t.kind :=
    Option.some.inj ((hu.startKind?_of_chars hlong).symm.trans (ht.startKind?_of_chars hchars))
  cases hu with
  | turn u =>
    have hsuffix : u.direction.suffix = ds ++ c :: more := (List.cons.inj hlong).2
    have hlength := u.direction.suffix_length_le
    rw [hsuffix, List.length_append, List.length_cons] at hlength
    obtain rfl : ds = [] := List.length_eq_zero_iff.1 (by omega)
    have hmem : c ∈ u.direction.suffix := by simp [hsuffix]
    have hc : c = '\'' ∨ c = '2' := Direction.eq_of_mem_suffix hmem
    simpa [takes, ← hkind, hchars] using hc
  | @count digits _ hdigits =>
    have hall : digits = t.chars ++ c :: more := h
    have hc : c.isDigit := hdigits c (by simp [hall])
    simpa [takes, ← hkind] using hc
  | mark hmark => cases ds <;> cases hlong

/-- The longest match is the token that does not take the character behind it. -/
theorem longestWithin?_append (ht : t.Spelled) (hends : ∀ c ∈ rest.head?, t.takes c = false)
    (n : Nat) : longestWithin? (t.chars ++ rest) (t.chars.length + n) = some t := by
  induction n with
  | zero =>
    obtain ⟨k, hk⟩ : ∃ k, t.chars.length = k + 1 :=
      Nat.exists_eq_add_one.2 (List.length_pos_iff.2 ht.chars_ne_nil)
    have hmatch : match? ((t.chars ++ rest).take t.chars.length) = some t := by
      rw [List.take_left, match?_eq_some_iff]
      exact ⟨ht, rfl⟩
    rw [Nat.add_zero, hk, longestWithin?, ← hk, hmatch]
    rfl
  | succ n ih =>
    have hmatch (u) (hu : match? ((t.chars ++ rest).take (t.chars.length + n + 1)) = some u) :
        u = t := by
      rw [Nat.add_assoc, List.take_length_add_append] at hu
      obtain ⟨hspelled, hchars⟩ := match?_eq_some_iff.1 hu
      cases rest with
      | nil => exact hspelled.eq_of_chars_eq ht (by simpa using hchars)
      | cons c cs =>
        have htakes := ht.takes_of_append hspelled hchars
        rw [hends c rfl] at htakes
        cases htakes
    rw [← Nat.add_assoc, longestWithin?, ih]
    cases hlonger : match? ((t.chars ++ rest).take (t.chars.length + n + 1)) with
    | none => rfl
    | some u => rw [hmatch u hlonger]; rfl

theorem longest?_append (ht : t.Spelled) (hends : ∀ c ∈ rest.head?, t.takes c = false) :
    longest? (t.chars ++ rest) = some t := by
  rw [longest?, List.length_append, longestWithin?_append ht hends]

/-- Reading a token to its end. -/
theorem Spelled.exists_ends (ht : t.Spelled) (cs : List Char) :
    ∃ (u : Token) (rest : List Char), u.Spelled ∧ t.chars ++ cs = u.chars ++ rest ∧
      ∀ c ∈ rest.head?, u.takes c = false := by
  induction cs generalizing t with
  | nil => exact ⟨t, [], ht, rfl, by simp⟩
  | cons c cs ih =>
    cases hgrow : t.grow? c with
    | none => exact ⟨t, c :: cs, ht, rfl, by simpa [Token.grow?] using hgrow⟩
    | some u =>
      obtain ⟨hu, hchars⟩ := ht.grow? hgrow
      obtain ⟨v, rest, hv, hsplit, hends⟩ := ih hu
      exact ⟨v, rest, hv, by simpa [hchars] using hsplit, hends⟩

/-- Where a character starts a token, there is a longest match. -/
theorem longest?_cons_of_startKind? {kind : Kind} (h : startKind? c = some kind)
    (cs : List Char) :
    ∃ t rest, longest? (c :: cs) = some t ∧ t.Spelled ∧ c :: cs = t.chars ++ rest ∧
      ∀ d ∈ rest.head?, t.takes d = false := by
  have hstart : start? c = some ⟨kind, [c]⟩ := by simp [start?, h]
  obtain ⟨t, rest, ht, hsplit, hends⟩ := (spelled_of_start? hstart).1.exists_ends cs
  have hsplit : c :: cs = t.chars ++ rest := hsplit
  exact ⟨t, rest, hsplit ▸ longest?_append ht hends, ht, hsplit, hends⟩

theorem longest?_cons_eq_none_iff : longest? (c :: cs) = none ↔ startKind? c = none := by
  constructor
  · intro h
    refine Option.eq_none_iff_forall_ne_some.2 fun kind hkind => ?_
    obtain ⟨t, rest, ht, -⟩ := longest?_cons_of_startKind? hkind cs
    cases h.symm.trans ht
  · intro h
    have hall (n : Nat) : longestWithin? (c :: cs) n = none := by
      induction n with
      | zero => rfl
      | succ n ih => rw [longestWithin?, List.take_succ_cons, match?_cons_eq_none h, ih]; rfl
    exact hall _

theorem exists_of_longest?_cons (h : longest? (c :: cs) = some t) :
    ∃ rest, t.Spelled ∧ c :: cs = t.chars ++ rest ∧ ∀ d ∈ rest.head?, t.takes d = false := by
  cases hkind : startKind? c with
  | none => cases (longest?_cons_eq_none_iff.2 hkind).symm.trans h
  | some kind =>
    obtain ⟨u, rest, hu, hrest⟩ := longest?_cons_of_startKind? hkind cs
    obtain rfl : t = u := Option.some.inj (h.symm.trans hu)
    exact ⟨rest, hrest⟩

end

/-! ## Scanning -/

theorem invalidAt?_byteCount (before : List Char) (c : Char) (after : List Char) :
    invalidAt? (before ++ c :: after) (Text.byteCount before)
      = some ⟨c, before.length + 1⟩ := by
  rw [invalidAt?, Text.cutAt?_byteCount]
  rfl

theorem lexFrom_of_startKind?_eq_none {c : Char} (hblank : isBlank c = false)
    (hstart : startKind? c = none) (position : Nat) (cs : List Char) :
    lexFrom position none (c :: cs) = .error ⟨c, position⟩ := by
  simp [lexFrom, start?, hblank, hstart]

/-- Behind a cut, scanning finds what reading finds. -/
theorem scanFrom_eq_lexFrom (before rest : List Char) :
    scanFrom (before ++ rest) (Text.byteCount before) rest
      = some (lexFrom (before.length + 1) none rest) := by
  generalize htext : before ++ rest = text
  generalize hcursor : Text.byteCount before = cursor
  fun_induction scanFrom text cursor rest generalizing before with
  | case1 cursor => rfl
  | case2 cursor c cs hblank ih =>
    have hrest := ih (before ++ [c]) (by simpa using htext) (by simp [← hcursor])
    rw [hrest, lexFrom_of_isBlank hblank, List.length_append, List.length_singleton]
  | case3 cursor c cs hblank t ht ih =>
    obtain ⟨rest, hspelled, hsplit, hends⟩ := exists_of_longest?_cons ht
    obtain ⟨d, ds, hchars⟩ := List.exists_cons_of_ne_nil hspelled.chars_ne_nil
    have hdrop : cs.drop (t.chars.length - 1) = rest := by
      rw [hchars, List.cons_append] at hsplit
      rw [(List.cons.inj hsplit).2, hchars, List.length_cons, Nat.add_sub_cancel, List.drop_left]
    have hrest := ih (before ++ t.chars) (by rw [hdrop, ← htext, hsplit, List.append_assoc])
      (by simp [← hcursor])
    rw [hrest, hdrop, hsplit, hspelled.lexFrom_append, lexFrom_of_takes_eq_false hends,
      List.length_append, Nat.add_right_comm]
    rfl
  | case4 cursor c cs hblank hnone =>
    have hstart : startKind? c = none := longest?_cons_eq_none_iff.1 hnone
    rw [← htext, ← hcursor, invalidAt?_byteCount,
      lexFrom_of_startKind?_eq_none (by simpa using hblank) hstart]
    rfl

/-- **Scanning by longest match finds what reading finds**, and always cuts between characters. -/
theorem scan_eq_lex (cs : List Char) : scan cs = some (lex cs) :=
  scanFrom_eq_lexFrom [] cs

-- The blank takes three bytes: the cursor is at byte 4, and the position counts characters.
example : scan "R\u2003é".toList = some (.error ⟨'é', 3⟩) := by cbv

/-! ## Errors -/

section

variable {position : Nat} {current : Option Token} {c : Char} {cs : List Char} {e : InvalidCharacter}

/-- One character is read, and reading goes on behind it, or it is an error. Neither depends on what
    follows. -/
theorem lexFrom_cons_cases (current : Option Token) (c : Char) :
    (∃ done next, ∀ position cs,
      lexFrom position current (c :: cs) = (done ++ ·) <$> lexFrom (position + 1) next cs) ∨
    ∀ position cs, lexFrom position current (c :: cs) = .error ⟨c, position⟩ := by
  cases hgrow : current.bind (·.grow? c) with
  | some u =>
    refine .inl ⟨[], some u, fun position cs => ?_⟩
    simp only [lexFrom, hgrow, List.nil_append]
    exact (id_map _).symm
  | none =>
    by_cases hblank : isBlank c
    · exact .inl ⟨current.toList, none, fun position cs => by simp [lexFrom, hgrow, hblank]⟩
    · cases hstart : start? c with
      | some t =>
        refine .inl ⟨current.toList, some t, fun position cs => ?_⟩
        simp [lexFrom, hgrow, hblank, hstart]
      | none => exact .inr fun position cs => by simp [lexFrom, hgrow, hblank, hstart]

private theorem map_eq_error_iff {ε α β : Type} {f : α → β} {x : Except ε α} {e : ε} :
    f <$> x = .error e ↔ x = .error e := by
  cases x <;> simp [Functor.map, Except.map]

/-- **An error is found at its character**, and what follows it is not looked at. -/
theorem error_of_lexFrom (h : lexFrom position current cs = .error e) :
    ∃ before after, cs = before ++ e.character :: after ∧ e.position = position + before.length ∧
      ∀ after, lexFrom position current (before ++ e.character :: after) = .error e := by
  induction cs generalizing position current with
  | nil => cases h
  | cons c cs ih =>
    rcases lexFrom_cons_cases current c with ⟨done, next, hnext⟩ | herror
    · have hrest : lexFrom (position + 1) next cs = .error e := map_eq_error_iff.1 (hnext _ _ ▸ h)
      obtain ⟨before, after, rfl, hposition, hstops⟩ := ih hrest
      refine ⟨c :: before, after, rfl, ?_, fun after => ?_⟩
      · rw [hposition, List.length_cons]
        omega
      · rw [List.cons_append, hnext]
        exact map_eq_error_iff.2 (hstops after)
    · obtain rfl : ⟨c, position⟩ = e := Except.error.inj ((herror position cs).symm.trans h)
      exact ⟨[], cs, rfl, rfl, herror position⟩

/-- A text with an error has the same error in front of any other text. -/
theorem lex_append_of_error (h : lex cs = .error e) (ds : List Char) :
    lex (cs ++ ds) = .error e := by
  obtain ⟨before, after, rfl, -, hstops⟩ := error_of_lexFrom h
  rw [List.append_assoc, List.cons_append]
  exact hstops (after ++ ds)

theorem position_of_lex_eq_error (h : lex cs = .error e) :
    0 < e.position ∧ cs[e.position - 1]? = some e.character := by
  obtain ⟨before, after, rfl, hposition, -⟩ := error_of_lexFrom h
  have hposition : e.position = before.length + 1 := by omega
  exact ⟨by omega, by simp [hposition]⟩

/-- What ends before the character of an error is read. -/
theorem lex_take_of_lt (h : lex cs = .error e) {n : Nat} (hn : n < e.position) :
    ∃ tokens, lex (cs.take n) = .ok tokens := by
  cases hread : lex (cs.take n) with
  | ok tokens => exact ⟨tokens, rfl⟩
  | error e' =>
    -- It would be the error of the whole text, whose character is further on.
    have hwhole := lex_append_of_error hread (cs.drop n)
    rw [List.take_append_drop, h] at hwhole
    obtain rfl : e = e' := Except.error.inj hwhole
    obtain ⟨hlt, -⟩ := List.getElem?_eq_some_iff.1 (position_of_lex_eq_error hread).2
    rw [List.length_take] at hlt
    omega

/-- What ends behind the character of an error has that error. -/
theorem lex_take_of_le (h : lex cs = .error e) {n : Nat} (hn : e.position ≤ n) :
    lex (cs.take n) = .error e := by
  obtain ⟨before, after, rfl, hposition, hstops⟩ := error_of_lexFrom h
  obtain ⟨k, rfl⟩ : ∃ k, n = before.length + (k + 1) := ⟨n - e.position, by omega⟩
  rw [List.take_length_add_append, List.take_succ_cons]
  exact hstops _

end

/-! ## Tokens with blanks between them -/

/-- Tokens are read again from their texts with a blank between any two. -/
theorem renders_intercalate {tokens : List Token} (h : ∀ t ∈ tokens, t.Spelled) :
    Renders tokens ([' '].intercalate (tokens.map chars)) := by
  induction tokens with
  | nil => exact .nil
  | cons t tokens ih =>
    obtain ⟨ht, htokens⟩ := List.forall_mem_cons.1 h
    cases tokens with
    | nil => simpa [List.intercalate] using Renders.token ht (by simp) .nil
    | cons u tokens =>
      have hfirst : Renders [t] (t.chars ++ []) := .token ht (by simp) .nil
      have hrest := hfirst.append_blank (by decide : isBlank ' ') (ih htokens)
      simpa [List.intercalate] using hrest

/-- **Where reading stops, and what it keeps.** The longest match at each place gives the same tokens
    or the same error. All of a text that is read is in its tokens, but for the blanks, and they are
    read again from their texts with blanks between. Else the position of the error is that of its
    character, each beginning of the text that ends before it is read, and all others have that
    error. -/
theorem lex_reads_longest_prefix (cs : List Char) :
    scan cs = some (lex cs) ∧
    match lex cs with
    | .ok tokens =>
      tokens.flatMap chars = cs.filter (!isBlank ·) ∧
        lex ([' '].intercalate (tokens.map chars)) = .ok tokens
    | .error e =>
      0 < e.position ∧ cs[e.position - 1]? = some e.character ∧
        (∀ n < e.position, ∃ tokens, lex (cs.take n) = .ok tokens) ∧
        ∀ n, e.position ≤ n → lex (cs.take n) = .error e := by
  refine ⟨scan_eq_lex cs, ?_⟩
  cases hlex : lex cs with
  | ok tokens =>
    have hrenders : Renders tokens cs := lex_eq_ok_iff.1 hlex
    have hjoined := renders_intercalate fun _ ht => hrenders.spelled ht
    exact ⟨hrenders.filter_isBlank.symm, lex_of_renders hjoined⟩
  | error e =>
    obtain ⟨hpositive, hcharacter⟩ := position_of_lex_eq_error hlex
    exact ⟨hpositive, hcharacter, fun n => lex_take_of_lt hlex, fun n => lex_take_of_le hlex⟩

end Token

end Cubing
