import Cubing.Notation.Token
import Cubing.Text.DecimalDigit

set_option autoImplicit false

/-! # Texts that spell tokens

`Token.Renders tokens cs` says that a text spells tokens: their characters one after the other, blanks
wherever they fit, and no token directly before a character that it would take. The last condition
is what makes greedy reading find the tokens again, and what it finds is spelled
(`Token.lex_eq_ok_iff`).

Each character of such a text is a blank or belongs to one of the tokens (`Token.CharAt`), and the
texts before and after that place spell the tokens before and after it. -/

namespace Cubing.Token

open Text (isBlank)

/-! ## The characters of a token -/

/-- A mark of punctuation: a character that is a token by itself. -/
def IsMark (kind : Kind) (c : Char) : Prop :=
  startKind? c = some kind ∧ kind ≠ .turn ∧ kind ≠ .multiplier

instance (kind : Kind) (c : Char) : Decidable (IsMark kind c) :=
  inferInstanceAs (Decidable (_ ∧ _))

/-- Tokens as they are written: a turn's own text, decimal digits, or one mark of punctuation. -/
inductive Spelled : Token → Prop where
  | turn (t : Turn) : Spelled ⟨.turn, t.chars⟩
  | count {ds : List Char} (nonempty : ds ≠ []) (digits : ∀ c ∈ ds, c.isDigit) :
    Spelled ⟨.multiplier, ds⟩
  | mark {kind : Kind} {c : Char} (h : IsMark kind c) : Spelled ⟨kind, [c]⟩

theorem startKind?_letter (m : Move) : startKind? m.letter = some .turn := by
  have hall : ∀ m ∈ Move.all, startKind? m.letter = some .turn := by decide
  exact hall m (Move.mem_all m)

theorem letter_ne {c : Char} (h : startKind? c ≠ some .turn) (m : Move) : m.letter ≠ c := by
  rintro rfl
  exact h (startKind?_letter m)

theorem isDigit_letter (m : Move) : m.letter.isDigit = false := by
  have hall : ∀ m ∈ Move.all, m.letter.isDigit = false := by decide
  exact hall m (Move.mem_all m)

/-- A turn is written with letters, prime and two. -/
theorem ne_of_mem_turn_chars {t : Turn} {c d : Char} (hc : c ∈ t.chars)
    (hstart : startKind? d ≠ some .turn) (hprime : d ≠ '\'') (htwo : d ≠ '2') : c ≠ d := by
  rcases List.mem_cons.1 hc with rfl | hsuffix
  · exact letter_ne hstart _
  · rintro rfl
    exact (Direction.eq_of_mem_suffix hsuffix).elim hprime htwo

theorem startKind?_of_isDigit {c : Char} (h : c.isDigit) : startKind? c = some .multiplier := by
  have hletter : Move.ofLetter? c = none := by
    refine Option.eq_none_iff_forall_ne_some.2 fun m hm => ?_
    rw [← Move.letter_of_ofLetter? hm, isDigit_letter] at h
    cases h
  unfold startKind?
  split
  all_goals first | cases h | simp [hletter, h]

/-- What starts a token is punctuation, the letter of a move or a digit. -/
theorem of_startKind?_eq_some {c : Char} {kind : Kind} (h : startKind? c = some kind) :
    c ∈ ['[', ']', ':', ',', '(', ')'] ∨ (∃ m : Move, m.letter = c) ∨ c.isDigit := by
  by_cases hletter : (Move.ofLetter? c).isSome
  · obtain ⟨m, hm⟩ := Option.isSome_iff_exists.1 hletter
    exact .inr (.inl ⟨m, Move.letter_of_ofLetter? hm⟩)
  · by_cases hdigit : c.isDigit
    · exact .inr (.inr hdigit)
    · left
      unfold startKind? at h
      split at h
      case h_7 => simp [hletter, hdigit] at h
      all_goals simp

theorem isBlank_eq_false_of_startKind? {c : Char} {kind : Kind} (h : startKind? c = some kind) :
    isBlank c = false := by
  rcases of_startKind?_eq_some h with hmark | ⟨m, rfl⟩ | hdigit
  · simp only [List.mem_cons, List.not_mem_nil, or_false] at hmark
    rcases hmark with rfl | rfl | rfl | rfl | rfl | rfl <;> decide
  · have hall : ∀ m ∈ Move.all, isBlank m.letter = false := by decide
    exact hall m (Move.mem_all m)
  · have hbounds := Text.toNat_of_isDigit hdigit
    simp [isBlank, Text.blankRanges]
    omega

theorem Spelled.chars_ne_nil {t : Token} (h : t.Spelled) : t.chars ≠ [] := by
  cases h with
  | turn t => exact List.cons_ne_nil _ _
  | count nonempty digits => exact nonempty
  | mark hmark => exact List.cons_ne_nil _ _

/-- The first character of a token tells its kind. -/
theorem Spelled.startKind?_of_chars {t : Token} (h : t.Spelled) {c : Char} {cs : List Char}
    (hchars : t.chars = c :: cs) : startKind? c = some t.kind := by
  cases h with
  | turn t =>
    obtain ⟨rfl, -⟩ := List.cons.inj hchars
    exact startKind?_letter _
  | @count ds nonempty digits =>
    obtain rfl : ds = c :: cs := hchars
    exact startKind?_of_isDigit (digits c List.mem_cons_self)
  | mark hmark =>
    obtain ⟨rfl, -⟩ := List.cons.inj hchars
    exact hmark.1

/-- Every character of a token starts one, but for the prime. -/
theorem Spelled.starts_of_mem {t : Token} (h : t.Spelled) {c : Char} (hc : c ∈ t.chars) :
    c = '\'' ∨ ∃ kind, startKind? c = some kind := by
  cases h with
  | turn t =>
    rcases List.mem_cons.1 hc with rfl | hsuffix
    · exact .inr ⟨_, startKind?_letter t.move⟩
    · rcases Direction.eq_of_mem_suffix hsuffix with hprime | rfl
      · exact .inl hprime
      · exact .inr ⟨.multiplier, by decide⟩
  | count nonempty digits => exact .inr ⟨_, startKind?_of_isDigit (digits c hc)⟩
  | mark hmark =>
    obtain rfl := List.mem_singleton.1 hc
    exact .inr ⟨_, hmark.1⟩

theorem Spelled.isBlank_eq_false {t : Token} (h : t.Spelled) {c : Char} (hc : c ∈ t.chars) :
    isBlank c = false := by
  rcases h.starts_of_mem hc with rfl | ⟨kind, hkind⟩
  · decide
  · exact isBlank_eq_false_of_startKind? hkind

theorem isDigit_eq_false_of_isBlank {c : Char} (hc : isBlank c) : c.isDigit = false := by
  refine Bool.eq_false_iff.2 fun hdigit => ?_
  rw [isBlank_eq_false_of_startKind? (startKind?_of_isDigit hdigit)] at hc
  cases hc

/-- A token takes prime, two or digits, and no blank. -/
theorem takes_eq_false_of_isBlank (t : Token) {c : Char} (hc : isBlank c) : t.takes c = false := by
  have hprime : c ≠ '\'' := by
    rintro rfl
    cases hc
  have hdigit : c.isDigit = false := isDigit_eq_false_of_isBlank hc
  have htwo : c ≠ '2' := by
    rintro rfl
    cases hdigit
  unfold takes
  split <;> simp [hprime, htwo, hdigit]

/-! ## Reading a token -/

section

variable {t u : Token} {c : Char} {cs : List Char} {position : Nat}

theorem lexFrom_of_start? (h : start? c = some t) :
    lexFrom position none (c :: cs) = lexFrom (position + 1) (some t) cs := by
  obtain ⟨kind, hkind, rfl⟩ := Option.map_eq_some_iff.1 h
  simp only [lexFrom, Option.bind_none, isBlank_eq_false_of_startKind? hkind, h]
  exact id_map _

theorem lexFrom_of_grow? (h : t.grow? c = some u) :
    lexFrom position (some t) (c :: cs) = lexFrom (position + 1) (some u) cs := by
  simp [lexFrom, h]

theorem lexFrom_of_isBlank (h : isBlank c) :
    lexFrom position none (c :: cs) = lexFrom (position + 1) none cs := by
  simp only [lexFrom, Option.bind_none, h]
  exact id_map _

/-- A token ends before a character that it does not take. -/
theorem lexFrom_of_takes_eq_false (h : ∀ c ∈ cs.head?, t.takes c = false) :
    lexFrom position (some t) cs = (t :: ·) <$> lexFrom position none cs := by
  cases cs with
  | nil => rfl
  | cons c cs =>
    have hgrow : t.grow? c = none := by simp [grow?, h c rfl]
    by_cases hblank : isBlank c
    · simp [lexFrom, hgrow, hblank]
    · cases hstart : start? c with
      | none =>
        simp only [lexFrom, Option.bind_some, Option.bind_none, hgrow, hblank, hstart]
        rfl
      | some u => simp [lexFrom, hgrow, hblank, hstart]

/-- Digits after digits belong to one count. -/
theorem lexFrom_digits {ds : List Char} (h : ∀ c ∈ ds, c.isDigit) (read : List Char) :
    lexFrom position (some ⟨.multiplier, read⟩) (ds ++ cs)
      = lexFrom (position + ds.length) (some ⟨.multiplier, read ++ ds⟩) cs := by
  induction ds generalizing position read with
  | nil => simp
  | cons d ds ih =>
    obtain ⟨hd, hds⟩ := List.forall_mem_cons.1 h
    have hgrow : grow? ⟨.multiplier, read⟩ d = some ⟨.multiplier, read ++ [d]⟩ := by
      simp [grow?, takes, hd]
    rw [List.cons_append, lexFrom_of_grow? hgrow, ih hds, List.append_assoc, List.length_cons,
      Nat.add_right_comm]
    rfl

/-- The characters of a token are read as that token, which may still grow. -/
theorem Spelled.lexFrom_append (h : t.Spelled) :
    lexFrom position none (t.chars ++ cs) = lexFrom (position + t.chars.length) (some t) cs := by
  cases h with
  | turn t =>
    obtain ⟨m, d⟩ := t
    have hstart : start? m.letter = some ⟨.turn, [m.letter]⟩ := by
      simp [start?, startKind?_letter]
    have hgrow (c) (hc : c = '\'' ∨ c = '2') :
        grow? ⟨.turn, [m.letter]⟩ c = some ⟨.turn, [m.letter, c]⟩ := by
      rcases hc with rfl | rfl <;> simp [grow?, takes]
    cases d with
    | cw => exact lexFrom_of_start? hstart
    | double =>
      exact (lexFrom_of_start? hstart).trans (lexFrom_of_grow? (hgrow _ (.inr rfl)))
    | ccw =>
      exact (lexFrom_of_start? hstart).trans (lexFrom_of_grow? (hgrow _ (.inl rfl)))
  | @count ds nonempty digits =>
    obtain ⟨d, ds, rfl⟩ := List.exists_cons_of_ne_nil nonempty
    obtain ⟨hd, hds⟩ := List.forall_mem_cons.1 digits
    have hstart : start? d = some ⟨.multiplier, [d]⟩ := by
      simp [start?, startKind?_of_isDigit hd]
    rw [List.cons_append, lexFrom_of_start? hstart, lexFrom_digits hds, List.length_cons,
      Nat.add_right_comm]
    rfl
  | mark hmark =>
    exact lexFrom_of_start? (by simp [start?, hmark.1])

end

/-! ## Reading a text -/

/-- A text that spells tokens, with blanks around them, and no token before a character that it
    would take. -/
inductive Renders : List Token → List Char → Prop where
  | nil : Renders [] []
  | blank {tokens : List Token} {c : Char} {cs : List Char} (hc : isBlank c)
      (rest : Renders tokens cs) : Renders tokens (c :: cs)
  | token {t : Token} {tokens : List Token} {cs : List Char} (spelled : t.Spelled)
      (ends : ∀ c ∈ cs.head?, t.takes c = false) (rest : Renders tokens cs) :
      Renders (t :: tokens) (t.chars ++ cs)

variable {tokens : List Token} {cs : List Char}

/-- **A text is read as the tokens it spells.** -/
theorem lex_of_renders (h : Renders tokens cs) : lex cs = .ok tokens := by
  suffices hall : ∀ position, lexFrom position none cs = .ok tokens from hall 1
  induction h with
  | nil => exact fun position => rfl
  | blank hc rest ih =>
    intro position
    rw [lexFrom_of_isBlank hc, ih]
  | token spelled ends rest ih =>
    intro position
    rw [spelled.lexFrom_append, lexFrom_of_takes_eq_false ends, ih]
    rfl

private theorem map_eq_ok_iff {ε α β : Type} {f : α → β} {x : Except ε α} {b : β} :
    f <$> x = .ok b ↔ ∃ a, x = .ok a ∧ f a = b := by
  cases x <;> simp [Functor.map, Except.map]

theorem spelled_of_start? {t : Token} {c : Char} (h : start? c = some t) :
    t.Spelled ∧ t.chars = [c] := by
  obtain ⟨kind, hkind, rfl⟩ := Option.map_eq_some_iff.1 h
  refine ⟨?_, rfl⟩
  rcases of_startKind?_eq_some hkind with hmark | ⟨m, rfl⟩ | hdigit
  · simp only [List.mem_cons, List.not_mem_nil, or_false] at hmark
    rcases hmark with rfl | rfl | rfl | rfl | rfl | rfl <;> cases hkind <;> exact .mark (by decide)
  · cases (startKind?_letter m).symm.trans hkind
    exact .turn ⟨m, .cw⟩
  · cases (startKind?_of_isDigit hdigit).symm.trans hkind
    exact .count (List.cons_ne_nil c []) (by simpa using hdigit)

theorem Spelled.grow? {t u : Token} {c : Char} (ht : t.Spelled) (h : t.grow? c = some u) :
    u.Spelled ∧ u.chars = t.chars ++ [c] := by
  obtain ⟨htakes, rfl⟩ : t.takes c = true ∧ ⟨t.kind, t.chars ++ [c]⟩ = u := by
    simpa [Token.grow?] using h
  refine ⟨?_, rfl⟩
  rcases ht with ⟨m, d⟩ | ⟨nonempty, digits⟩ | hmark
  · obtain ⟨hlength, hc⟩ : d.suffix = [] ∧ (c = '\'' ∨ c = '2') := by
      simpa [takes, Turn.chars] using htakes
    obtain rfl : d = .cw := by
      revert hlength
      cases d <;> simp [Direction.suffix]
    rcases hc with rfl | rfl
    · exact .turn ⟨m, .ccw⟩
    · exact .turn ⟨m, .double⟩
  · refine .count (by simp) ?_
    intro d hd
    rcases List.mem_append.1 hd with hd | hd
    · exact digits d hd
    · obtain rfl := List.mem_singleton.1 hd
      simpa [takes] using htakes
  · obtain ⟨-, hturn, hcount⟩ := hmark
    simp [takes] at htakes

/-- What is read from a text is spelled by it, after the characters of the token that may still
    grow. -/
theorem renders_of_lexFrom {position : Nat} {current : Option Token}
    (h : lexFrom position current cs = .ok tokens) (hcurrent : ∀ t ∈ current, t.Spelled) :
    Renders tokens (current.toList.flatMap chars ++ cs) := by
  have hclose {current : Option Token} {rest : List Token} {cs : List Char}
      (hcurrent : ∀ t ∈ current, t.Spelled)
      (hends : ∀ t ∈ current, ∀ c ∈ cs.head?, t.takes c = false)
      (hrest : Renders rest cs) :
      Renders (current.toList ++ rest) (current.toList.flatMap chars ++ cs) := by
    cases current with
    | none => exact hrest
    | some t => simpa using Renders.token (hcurrent t rfl) (hends t rfl) hrest
  induction cs generalizing position current tokens with
  | nil =>
    obtain rfl : current.toList = tokens := Except.ok.inj h
    simpa using hclose hcurrent (by simp) Renders.nil
  | cons c cs ih =>
    rw [lexFrom] at h
    split at h
    · rename_i u hgrow
      obtain ⟨t, rfl, hu⟩ := Option.bind_eq_some_iff.1 hgrow
      obtain ⟨hspelled, hchars⟩ := (hcurrent t rfl).grow? hu
      have hrest := ih h (by simpa using hspelled)
      simpa [hchars] using hrest
    · rename_i hgrow
      have hends (t) (ht : t ∈ current) : ∀ d ∈ (c :: cs).head?, t.takes d = false := by
        obtain rfl := ht
        simpa [grow?] using hgrow
      split at h
      · rename_i hblank
        obtain ⟨rest, hrest, rfl⟩ := map_eq_ok_iff.1 h
        exact hclose hcurrent hends (.blank hblank (ih hrest (by simp)))
      · split at h
        · rename_i t ht
          obtain ⟨rest, hrest, rfl⟩ := map_eq_ok_iff.1 h
          obtain ⟨hspelled, hchars⟩ := spelled_of_start? ht
          have hstarted := ih hrest (by simpa using hspelled)
          exact hclose hcurrent hends (by simpa [hchars] using hstarted)
        · cases h

/-- **Reading finds the tokens that a text spells**, and there is a reading just for texts that spell
    tokens. -/
theorem lex_eq_ok_iff : lex cs = .ok tokens ↔ Renders tokens cs :=
  ⟨fun h => renders_of_lexFrom h (by simp), lex_of_renders⟩

namespace Renders

/-- A text starts with a blank or with what starts its first token. -/
theorem head_cases {c : Char} (h : Renders tokens (c :: cs)) :
    (isBlank c ∧ Renders tokens cs) ∨ ∃ t rest, tokens = t :: rest ∧ startKind? c = some t.kind := by
  generalize htext : c :: cs = text at h
  cases h with
  | nil => cases htext
  | blank hc rest =>
    obtain ⟨rfl, rfl⟩ := List.cons.inj htext
    exact .inl ⟨hc, rest⟩
  | @token t tokens _ spelled ends rest =>
    obtain ⟨d, ds, hchars⟩ := List.exists_cons_of_ne_nil spelled.chars_ne_nil
    obtain ⟨rfl, -⟩ : c = d ∧ cs = ds ++ _ := by simpa [hchars] using htext
    exact .inr ⟨t, tokens, rfl, spelled.startKind?_of_chars hchars⟩

/-- Punctuation takes no further character, whatever follows. -/
theorem mark {kind : Kind} {c : Char} (hmark : IsMark kind c) (h : Renders tokens cs) :
    Renders (⟨kind, [c]⟩ :: tokens) (c :: cs) := by
  refine .token (.mark hmark) ?_ h
  obtain ⟨-, hturn, hcount⟩ := hmark
  intro d hd
  unfold takes
  split
  · contradiction
  · contradiction
  · rfl

theorem spelled {t : Token} (h : Renders tokens cs) (ht : t ∈ tokens) : t.Spelled := by
  induction h with
  | nil => cases ht
  | blank hc rest ih => exact ih ht
  | token spelled ends rest ih =>
    rcases List.mem_cons.1 ht with rfl | ht
    · exact spelled
    · exact ih ht

/-- A text has no characters but blanks and those of tokens. -/
theorem starts_of_mem {c : Char} (h : Renders tokens cs) (hc : c ∈ cs) :
    isBlank c ∨ c = '\'' ∨ ∃ kind, startKind? c = some kind := by
  induction h with
  | nil => cases hc
  | blank hb rest ih =>
    rcases List.mem_cons.1 hc with rfl | hc
    · exact .inl hb
    · exact ih hc
  | token spelled ends rest ih =>
    rcases List.mem_append.1 hc with hc | hc
    · exact .inr (spelled.starts_of_mem hc)
    · exact ih hc

theorem of_blank {c : Char} (h : Renders tokens (c :: cs)) (hc : isBlank c) : Renders tokens cs := by
  rcases h.head_cases with ⟨-, rest⟩ | ⟨t, rest, rfl, hstart⟩
  · exact rest
  · rw [isBlank_eq_false_of_startKind? hstart] at hc
    cases hc

end Renders

/-! ## Places in a text -/

/-- A character between two parts of a text that spells tokens: it is a blank, or it belongs to a
    token together with what the parts have of that token. -/
inductive CharAt (c : Char) : List Token → List Char → List Char → Prop where
  | blank {ts us : List Token} {xs ys : List Char} (hc : isBlank c) (left : Renders ts xs)
      (right : Renders us ys) : CharAt c (ts ++ us) xs ys
  | token {t : Token} {ts us : List Token} {xs ys before after : List Char} (spelled : t.Spelled)
      (chars : t.chars = before ++ c :: after) (left : Renders ts xs) (right : Renders us ys) :
      CharAt c (ts ++ t :: us) (xs ++ before) (after ++ ys)

theorem CharAt.of_blank {c b : Char} {xs ys : List Char} (hb : isBlank b)
    (h : CharAt c tokens xs ys) : CharAt c tokens (b :: xs) ys := by
  cases h with
  | blank hc left right => exact .blank hc (.blank hb left) right
  | token spelled chars left right => exact .token spelled chars (.blank hb left) right

theorem CharAt.of_token {c : Char} {t : Token} {xs ys : List Char} (ht : t.Spelled)
    (hends : ∀ d ∈ (xs ++ c :: ys).head?, t.takes d = false) (h : CharAt c tokens xs ys) :
    CharAt c (t :: tokens) (t.chars ++ xs) ys := by
  cases h with
  | blank hc left right =>
    refine .blank hc (.token ht ?_ left) right
    exact fun d hd => hends d (by simp [Option.mem_def.1 hd])
  | @token _ _ _ _ _ before _ spelled chars left right =>
    rw [← List.append_assoc]
    refine .token spelled chars (.token ht ?_ left) right
    exact fun d hd => hends d (by simp [Option.mem_def.1 hd])

namespace Renders

variable {c : Char} {xs ys : List Char}

/-- **Each character of a text is between its tokens or in one of them.** -/
theorem charAt (h : Renders tokens (xs ++ c :: ys)) : CharAt c tokens xs ys := by
  generalize htext : xs ++ c :: ys = text at h
  induction h generalizing xs with
  | nil => exact absurd htext (List.append_ne_nil_of_right_ne_nil _ (List.cons_ne_nil _ _))
  | @blank tokens b text hb rest ih =>
    rcases List.append_eq_cons_iff.1 htext with ⟨rfl, hend⟩ | ⟨xs, rfl, rfl⟩
    · obtain ⟨rfl, rfl⟩ := List.cons.inj hend
      exact .blank hb .nil rest
    · exact (ih rfl).of_blank hb
  | @token t tokens text spelled ends rest ih =>
    rcases List.append_eq_append_iff.1 htext with ⟨mid, hchars, hend⟩ | ⟨mid, rfl, rfl⟩
    · cases mid with
      | nil =>
        -- The token ends right before the character.
        obtain rfl : c :: ys = text := hend
        obtain rfl : t.chars = xs := by simpa using hchars
        have hrest : CharAt c tokens [] ys := ih rfl
        simpa using hrest.of_token spelled ends
      | cons d mid =>
        obtain ⟨rfl, rfl⟩ := List.cons.inj hend
        exact .token spelled hchars .nil rest
    · exact (ih rfl).of_token spelled ends

/-- A blank divides a text into texts. -/
theorem split_blank (h : Renders tokens (xs ++ c :: ys)) (hc : isBlank c) :
    ∃ ts us, tokens = ts ++ us ∧ Renders ts xs ∧ Renders us ys := by
  cases h.charAt with
  | blank _ left right => exact ⟨_, _, rfl, left, right⟩
  | token spelled chars left right =>
    rw [spelled.isBlank_eq_false (by simp [chars])] at hc
    cases hc

/-- A blank at the end takes part in no token. -/
theorem of_append_blank (h : Renders tokens (cs ++ [c])) (hc : isBlank c) : Renders tokens cs := by
  obtain ⟨ts, us, rfl, left, right⟩ := h.split_blank hc
  cases lex_of_renders right
  simpa using left

end Renders

/-- A mark of punctuation is a token by itself. -/
theorem Spelled.eq_of_mark {t : Token} {kind : Kind} {c : Char} {before after : List Char}
    (h : t.Spelled) (hmark : IsMark kind c) (hchars : t.chars = before ++ c :: after) :
    t = ⟨kind, [c]⟩ ∧ before = [] ∧ after = [] := by
  obtain ⟨hstart, hturn, hcount⟩ := hmark
  have hmem : c ∈ t.chars := by simp [hchars]
  cases h with
  | turn t =>
    rcases List.mem_cons.1 hmem with rfl | hsuffix
    · exact absurd (Option.some.inj (hstart.symm.trans (startKind?_letter _))) hturn
    · rcases Direction.eq_of_mem_suffix hsuffix with rfl | rfl
      · cases hstart
      · exact absurd (Option.some.inj hstart).symm hcount
  | count nonempty digits =>
    have hdigit := startKind?_of_isDigit (digits c hmem)
    exact absurd (Option.some.inj (hstart.symm.trans hdigit)) hcount
  | @mark kind' d hmark' =>
    obtain rfl : before = [] := by
      cases before with
      | nil => rfl
      | cons b before => simp at hchars
    obtain ⟨rfl, rfl⟩ := List.cons.inj hchars
    obtain rfl : kind' = kind := Option.some.inj (hmark'.1.symm.trans hstart)
    exact ⟨rfl, rfl, rfl⟩

/-- A prime is the last of two characters, the first of which is a letter. -/
theorem Spelled.of_prime {t : Token} {before after : List Char} (h : t.Spelled)
    (hchars : t.chars = before ++ '\'' :: after) :
    ∃ m : Move, t.kind = .turn ∧ before = [m.letter] ∧ after = [] := by
  have hmem : '\'' ∈ t.chars := by simp [hchars]
  cases h with
  | turn t =>
    obtain ⟨m, d⟩ := t
    cases before with
    | nil => exact absurd (List.cons.inj hchars).1 (letter_ne (by decide) m)
    | cons x before =>
      obtain ⟨rfl, hsuffix⟩ := List.cons.inj hchars
      have hlength : (before ++ '\'' :: after).length ≤ 1 :=
        Nat.le_trans (Nat.le_of_eq (congrArg List.length hsuffix.symm)) d.suffix_length_le
      rw [List.length_append, List.length_cons] at hlength
      obtain rfl : before = [] := List.eq_nil_of_length_eq_zero (by omega)
      obtain rfl : after = [] := List.eq_nil_of_length_eq_zero (by omega)
      exact ⟨m, rfl, rfl, rfl⟩
  | count nonempty digits => cases digits _ hmem
  | mark hmark =>
    obtain rfl := List.mem_singleton.1 hmem
    cases hmark.1

namespace Renders

variable {c : Char} {xs ys : List Char}

/-- A mark of punctuation divides a text into texts. -/
theorem split_mark {kind : Kind} (h : Renders tokens (xs ++ c :: ys)) (hmark : IsMark kind c) :
    ∃ ts us, tokens = ts ++ ⟨kind, [c]⟩ :: us ∧ Renders ts xs ∧ Renders us ys := by
  cases h.charAt with
  | blank hc left right =>
    rw [isBlank_eq_false_of_startKind? hmark.1] at hc
    cases hc
  | token spelled chars left right =>
    obtain ⟨rfl, rfl, rfl⟩ := spelled.eq_of_mark hmark chars
    exact ⟨_, _, rfl, by simpa using left, right⟩

/-- A prime stands directly behind the letter of a turn. -/
theorem before_prime (h : Renders tokens (xs ++ '\'' :: ys)) :
    ∃ m : Move, xs.getLast? = some m.letter := by
  cases h.charAt with
  | blank hc => cases hc
  | token spelled chars left right =>
    obtain ⟨m, -, rfl, -⟩ := spelled.of_prime chars
    exact ⟨m, by simp⟩

/-- A text without its blanks is the characters of its tokens. -/
theorem filter_isBlank (h : Renders tokens cs) :
    cs.filter (!isBlank ·) = tokens.flatMap chars := by
  induction h with
  | nil => rfl
  | blank hc rest ih => simp [hc, ih]
  | @token t tokens cs spelled ends rest ih =>
    have hchars : t.chars.filter (!isBlank ·) = t.chars :=
      List.filter_eq_self.2 fun c hc => by simp [spelled.isBlank_eq_false hc]
    rw [List.filter_append, hchars, ih, List.flatMap_cons]

/-- Texts with a blank between them spell their tokens one after the other. -/
theorem append_blank {us : List Token} {c : Char} {ds : List Char} (h : Renders tokens cs)
    (hc : isBlank c) (h' : Renders us ds) : Renders (tokens ++ us) (cs ++ c :: ds) := by
  induction h with
  | nil => exact .blank hc h'
  | blank hb rest ih => exact .blank hb ih
  | @token t tokens cs spelled ends rest ih =>
    rw [List.cons_append, List.append_assoc]
    refine .token spelled ?_ ih
    cases cs with
    | nil =>
      intro d hd
      obtain rfl : c = d := by simpa using hd
      exact t.takes_eq_false_of_isBlank hc
    | cons d cs => exact ends

end Renders

end Cubing.Token
