import Cubing.Notation.Backtracking

set_option autoImplicit false

/-! # What the rules do when read by trial

Whatever has failed before, a rule of the grammar does one of three things at an index: it finds an
element and goes on (`Backtracking.Finds`), it is given up and takes the cursor back
(`Backtracking.Misses`), or it ends the reading with an error (`Backtracking.Breaks`). All that
counts of the failures that it writes down on the way is how far into the tokens they are: those of
an element that is found are before its end, and those of a group that is given up are before the
place where it was given up. An error inside a group is the furthest failure if everything before
the group is less far.

Each rule is described by what the lists of elements in it do. The furthest failure is then one of at
most four, one for each rule that did not fit (`Backtracking.breaks_readNode`). -/

namespace Cubing.Backtracking

/-! ## Furthest failures -/

/-- What is less far than a failure does not count beside it. -/
theorem deeper_foldl {f : Failure} {failures : List Failure} (deepest : Option Failure)
    (h : ∀ g ∈ failures, g.index < f.index) :
    deeper (failures.foldl deeper deepest) f = deeper deepest f := by
  induction failures generalizing deepest with
  | nil => rfl
  | cons g failures ih =>
    obtain ⟨hg, hrest⟩ := List.forall_mem_cons.1 h
    rw [List.foldl_cons, ih _ hrest]
    cases deepest with
    | none => simp [deeper, hg]
    | some d =>
      by_cases hd : d.index < g.index
      · have hdf : d.index < f.index := by omega
        simp [deeper, hd, hg, hdf]
      · simp [deeper, hd]

/-! ## What a reader does -/

section

variable {α β : Type} {read read' read'' : Reader α} {next : α → Reader β} {s s' : State} {x : α}
variable {e : SyntaxError} {f : Failure} {k k' k'' last bound start : Nat}

theorem bind_ok (h : read s = some (.ok (x, s'))) : (read >>= next) s = next x s' := by
  show (read s).bind _ = _
  rw [h]
  rfl

theorem bind_error (h : read s = some (.error e)) : (read >>= next) s = some (.error e) := by
  show (read s).bind _ = _
  rw [h]
  rfl

/-- The reader goes on with a result, whatever has failed before. It leaves the cursor behind
    everything that it writes down. -/
def Finds (read : Reader α) (k : Nat) (x : α) (next : Nat) : Prop :=
  ∀ log, ∃ new, read ⟨k, log⟩ = some (.ok (x, ⟨next, log ++ new⟩)) ∧ ∀ f ∈ new, f.index < next

/-- The reader is given up and goes back to the start, whatever has failed before. Its own failure is
    behind everything else that it writes down. -/
def Misses (read : Reader (Option Node)) (k start : Nat) (f : Failure) : Prop :=
  ∀ log, ∃ new, read ⟨k, log⟩ = some (.ok (none, ⟨start, log ++ (new ++ [f])⟩)) ∧
    ∀ g ∈ new, g.index < f.index

/-- The reading ends with an error, if everything that has failed before is within a bound. -/
def Breaks (read : Reader α) (k bound : Nat) (e : SyntaxError) : Prop :=
  ∀ log, (∀ f ∈ log, f.index < bound) → read ⟨k, log⟩ = some (.error e)

/-- The first steps of the reader leave another one to do, and write down nothing beyond a bound. -/
def Leads (read : Reader α) (k : Nat) (read' : Reader α) (k' bound : Nat) : Prop :=
  ∀ log, ∃ new, read ⟨k, log⟩ = read' ⟨k', log ++ new⟩ ∧ ∀ f ∈ new, f.index < bound

theorem Leads.refl (read : Reader α) (k bound : Nat) : Leads read k read k bound :=
  fun log => ⟨[], by rw [List.append_nil], by simp⟩

theorem Finds.leads (h : Finds read k x k') (hle : k' ≤ bound) :
    Leads (read >>= next) k (next x) k' bound := by
  intro log
  obtain ⟨new, hread, hnew⟩ := h log
  exact ⟨new, bind_ok hread, fun f hf => Nat.lt_of_lt_of_le (hnew f hf) hle⟩

theorem Leads.trans (h : Leads read k read' k' bound) (h' : Leads read' k' read'' k'' bound) :
    Leads read k read'' k'' bound := by
  intro log
  obtain ⟨new, hread, hnew⟩ := h log
  obtain ⟨new', hread', hnew'⟩ := h' (log ++ new)
  refine ⟨new ++ new', by rw [hread, hread', List.append_assoc], ?_⟩
  intro f hf
  exact (List.mem_append.1 hf).elim (hnew f) (hnew' f)

theorem Leads.finds (h : Leads read k read' k' last) (h' : Finds read' k' x last) :
    Finds read k x last := by
  intro log
  obtain ⟨new, hread, hnew⟩ := h log
  obtain ⟨new', hread', hnew'⟩ := h' (log ++ new)
  refine ⟨new ++ new', by rw [hread, hread', List.append_assoc], ?_⟩
  intro f hf
  exact (List.mem_append.1 hf).elim (hnew f) (hnew' f)

theorem Leads.misses {read read' : Reader (Option Node)} (h : Leads read k read' k' f.index)
    (h' : Misses read' k' start f) : Misses read k start f := by
  intro log
  obtain ⟨new, hread, hnew⟩ := h log
  obtain ⟨new', hread', hnew'⟩ := h' (log ++ new)
  refine ⟨new ++ new', by simp [hread, hread'], ?_⟩
  intro g hg
  exact (List.mem_append.1 hg).elim (hnew g) (hnew' g)

theorem Leads.breaks (h : Leads read k read' k' bound) (h' : Breaks read' k' bound e) :
    Breaks read k bound e := by
  intro log hlog
  obtain ⟨new, hread, hnew⟩ := h log
  rw [hread]
  refine h' _ fun f hf => ?_
  exact (List.mem_append.1 hf).elim (hlog f) (hnew f)

theorem Breaks.bind (h : Breaks read k bound e) : Breaks (read >>= next) k bound e :=
  fun log hlog => bind_error (h log hlog)

theorem Breaks.mono (h : Breaks read k bound e) (hle : last ≤ bound) : Breaks read k last e :=
  fun log hlog => h log fun f hf => Nat.lt_of_lt_of_le (hlog f hf) hle

theorem finds_pure (x : α) (k : Nat) : Finds (pure x) k x k :=
  fun log => ⟨[], by rw [List.append_nil]; rfl, by simp⟩

theorem finds_position (k : Nat) : Finds position k k k :=
  fun log => ⟨[], by rw [List.append_nil]; rfl, by simp⟩

theorem finds_advance (k : Nat) : Finds advance k () (k + 1) :=
  fun log => ⟨[], by rw [List.append_nil]; rfl, by simp⟩

theorem finds_current? (tokens : List Token) (k : Nat) :
    Finds (current? tokens) k ((tokens[k]?).map (·.kind)) k :=
  fun log => ⟨[], by rw [List.append_nil]; rfl, by simp⟩

theorem misses_giveUp (k start : Nat) (cause? : Option SyntaxError.Cause) :
    Misses (giveUp start cause?) k start ⟨k, cause?⟩ :=
  fun log => ⟨[], rfl, by simp⟩

end

/-! ## Rules one after the other -/

section

variable {tokens : List Token} {lists : ListReader} {first : Reader (Option Node)}
variable {rest : Reader Node} {n : Node} {e : SyntaxError} {f : Failure} {k next bound : Nat}

/-- Tries a rule before others. -/
def orElse (first : Reader (Option Node)) (rest : Reader Node) : Reader Node := do
  match ← first with
  | some n => return n
  | none => rest

theorem readNode_eq :
    readNode tokens lists
      = orElse (readSequence tokens) (orElse (readBracket tokens lists .conjugate)
          (orElse (readBracket tokens lists .commutator) (orElse (readRepeated tokens lists)
            (deepestError tokens >>= throw)))) := by
  rw [readNode]
  rfl

theorem Finds.orElse (h : Finds first k (some n) next) : Finds (orElse first rest) k n next :=
  (h.leads (Nat.le_refl next)).finds (finds_pure n next)

theorem Breaks.orElse (h : Breaks first k bound e) : Breaks (orElse first rest) k bound e := h.bind

/-- A rule that does not fit leaves the others to try. -/
theorem Misses.leads (h : Misses first k k f) (hlt : f.index < bound) :
    Leads (orElse first rest) k rest k bound := by
  intro log
  obtain ⟨new, hread, hnew⟩ := h log
  refine ⟨new ++ [f], bind_ok hread, ?_⟩
  intro g hg
  rcases List.mem_append.1 hg with hg | hg
  · exact Nat.lt_trans (hnew g hg) hlt
  · obtain rfl := List.mem_singleton.1 hg
    exact hlt

/-- If no rule fits, the error is the furthest of the failures of the four rules. What they write
    down besides does not count. -/
theorem breaks_readNode {f₁ f₂ f₃ : Failure} (hseq : Misses (readSequence tokens) k k ⟨k, none⟩)
    (hconjugate : Misses (readBracket tokens lists .conjugate) k k f₁)
    (hcommutator : Misses (readBracket tokens lists .commutator) k k f₂)
    (hrepeated : Misses (readRepeated tokens lists) k k f₃)
    (hdeepest : deepest? [⟨k, none⟩, f₁, f₂, f₃] = some f) :
    Breaks (readNode tokens lists) k k (f.error tokens) := by
  intro log hlog
  obtain ⟨new, hread, hnew⟩ := hseq log
  obtain ⟨new₁, hread₁, hnew₁⟩ := hconjugate (log ++ (new ++ [⟨k, none⟩]))
  obtain ⟨new₂, hread₂, hnew₂⟩ := hcommutator (log ++ (new ++ [⟨k, none⟩]) ++ (new₁ ++ [f₁]))
  obtain ⟨new₃, hread₃, hnew₃⟩ :=
    hrepeated (log ++ (new ++ [⟨k, none⟩]) ++ (new₁ ++ [f₁]) ++ (new₂ ++ [f₂]))
  have hfailures : deepest? (log ++ (new ++ [⟨k, none⟩]) ++ (new₁ ++ [f₁]) ++ (new₂ ++ [f₂])
      ++ (new₃ ++ [f₃])) = some f := by
    rw [← hdeepest]
    simp only [deepest?, List.foldl_append, List.foldl_cons, List.foldl_nil]
    rw [deeper_foldl _ hnew₃, deeper_foldl _ hnew₂, deeper_foldl _ hnew₁, deeper_foldl _ hnew,
      deeper_foldl (f := ⟨k, none⟩) _ hlog]
  simp only [readNode_eq, orElse, bind_ok hread, bind_ok hread₁, bind_ok hread₂, bind_ok hread₃]
  show some (Except.error (((deepest? _).getD _).error tokens)) = _
  rw [hfailures]
  rfl

end

/-! ## Sequences -/

section

variable {tokens : List Token} {token : Token} {k : Nat}

theorem drop_of_getElem? (h : tokens[k]? = some token) :
    tokens.drop k = token :: tokens.drop (k + 1) := by
  obtain ⟨hlt, rfl⟩ := List.getElem?_eq_some_iff.1 h
  exact List.drop_eq_getElem_cons hlt

/-- The leading turns are written by the first tokens, and the next one is no turn. -/
theorem leadingTurns_spec (tokens : List Token) :
    ∃ us rest, us ++ rest = tokens ∧ us.map Token.turn? = (leadingTurns tokens).map some ∧
      ∀ token ∈ rest.head?, token.turn? = none := by
  induction tokens with
  | nil => exact ⟨[], [], rfl, rfl, by simp⟩
  | cons token tokens ih =>
    rw [leadingTurns]
    split
    · rename_i t ht
      obtain ⟨us, rest, rfl, hturns, hend⟩ := ih
      exact ⟨token :: us, rest, rfl, by simp [ht, hturns], hend⟩
    · rename_i ht
      exact ⟨[], token :: tokens, rfl, rfl, by simpa using ht⟩

theorem leadingTurns_eq_nil_iff (h : tokens[k]? = some token) :
    leadingTurns (tokens.drop k) = [] ↔ token.turn? = none := by
  rw [drop_of_getElem? h, leadingTurns]
  cases hturn : token.turn? <;> simp

theorem finds_readSequence (h : leadingTurns (tokens.drop k) ≠ []) :
    Finds (readSequence tokens) k (some (.seq (leadingTurns (tokens.drop k))))
      (k + (leadingTurns (tokens.drop k)).length) := by
  intro log
  refine ⟨[], ?_, by simp⟩
  have hposition : position ⟨k, log⟩ = some (.ok (k, ⟨k, log⟩)) := rfl
  rw [readSequence, bind_ok hposition, List.append_nil]
  simp only [List.isEmpty_iff, h, if_false]
  rfl

theorem misses_readSequence (h : leadingTurns (tokens.drop k) = []) :
    Misses (readSequence tokens) k k ⟨k, none⟩ := by
  refine ((finds_position k).leads (Nat.le_refl k)).misses ?_
  simp only [h]
  exact misses_giveUp k k none

/-- An opening token is no turn. -/
theorem misses_readSequence_of_kind {kind : Token.Kind}
    (h : (tokens[k]?).map (·.kind) = some kind) (hkind : kind ≠ .turn) :
    Misses (readSequence tokens) k k ⟨k, none⟩ := by
  obtain ⟨token, htoken, rfl⟩ := Option.map_eq_some_iff.1 h
  refine misses_readSequence ((leadingTurns_eq_nil_iff htoken).2 ?_)
  unfold Token.turn?
  split
  · contradiction
  · rfl

end

/-! ## Groups -/

section

variable {tokens : List Token} {lists : ListReader} {kind : Bracket} {a b body : Tree}
variable {e : SyntaxError} {k mid last bound start : Nat}

/-- A rule of groups does not fit where its opening token is missing. -/
theorem misses_readBracket (h : (tokens[k]?).map (·.kind) ≠ some .leftBracket) :
    Misses (readBracket tokens lists kind) k k ⟨k, none⟩ := by
  rw [readBracket]
  refine ((finds_position k).leads (Nat.le_refl k)).misses ?_
  refine ((finds_current? tokens k).leads (Nat.le_refl k)).misses ?_
  rw [if_pos h]
  exact misses_giveUp k k none

theorem misses_readRepeated (h : (tokens[k]?).map (·.kind) ≠ some .leftParen) :
    Misses (readRepeated tokens lists) k k ⟨k, none⟩ := by
  rw [readRepeated]
  refine ((finds_position k).leads (Nat.le_refl k)).misses ?_
  refine ((finds_current? tokens k).leads (Nat.le_refl k)).misses ?_
  rw [if_pos h]
  exact misses_giveUp k k none

theorem breaks_readBracket (hopen : (tokens[k]?).map (·.kind) = some .leftBracket)
    (ha : Breaks (lists endsFirstSide) (k + 1) bound e) (hbound : k < bound) :
    Breaks (readBracket tokens lists kind) k bound e := by
  rw [readBracket]
  refine ((finds_position k).leads (by omega)).breaks ?_
  refine ((finds_current? tokens k).leads (by omega)).breaks ?_
  rw [if_neg (by simp [hopen])]
  exact ((finds_advance k).leads hbound).breaks ha.bind

/-- What to say of a first side without its separator. -/
def firstSideCause? (kind : Bracket) (a : Tree) (here? : Option Token.Kind) :
    Option SyntaxError.Cause :=
  if here? = some .rightBracket then some .missingSeparator
  else if a.isEmpty then some (.emptyLeftSide kind) else none

theorem misses_readBracket_of_firstSide (kind : Bracket)
    (hopen : (tokens[k]?).map (·.kind) = some .leftBracket)
    (ha : Finds (lists endsFirstSide) (k + 1) a mid) (hlt : k < mid)
    (hseparator : (tokens[mid]?).map (·.kind) ≠ some kind.separatorKind ∨ a = []) :
    Misses (readBracket tokens lists kind) k k
      ⟨mid, firstSideCause? kind a ((tokens[mid]?).map (·.kind))⟩ := by
  rw [readBracket]
  refine ((finds_position k).leads (Nat.le_of_lt hlt)).misses ?_
  refine ((finds_current? tokens k).leads (Nat.le_of_lt hlt)).misses ?_
  rw [if_neg (by simp [hopen])]
  refine ((finds_advance k).leads hlt).misses ?_
  refine (ha.leads (Nat.le_refl mid)).misses ?_
  refine ((finds_current? tokens mid).leads (Nat.le_refl mid)).misses ?_
  rw [if_pos (by simpa using hseparator)]
  exact misses_giveUp mid k _

/-- A bracket of which the first side has been read, up to the separator of its kind. -/
structure FirstSide (tokens : List Token) (lists : ListReader) (k : Nat) (kind : Bracket) (a : Tree)
    (mid : Nat) : Prop where
  opens : (tokens[k]?).map (·.kind) = some .leftBracket
  finds : Finds (lists endsFirstSide) (k + 1) a mid
  later : k < mid
  separates : (tokens[mid]?).map (·.kind) = some kind.separatorKind
  full : a ≠ []

/-- A bracket goes on from its first side to its second. -/
theorem FirstSide.leads (h : FirstSide tokens lists k kind a mid) (hbound : mid < bound) :
    Leads (readBracket tokens lists kind) k (readSecondSide tokens lists kind k a) (mid + 1)
      bound := by
  have hlt : k < bound := Nat.lt_trans h.later hbound
  rw [readBracket]
  refine ((finds_position k).leads (Nat.le_of_lt hlt)).trans ?_
  refine ((finds_current? tokens k).leads (Nat.le_of_lt hlt)).trans ?_
  rw [if_neg (by simp [h.opens])]
  refine ((finds_advance k).leads hlt).trans ?_
  refine (h.finds.leads (Nat.le_of_lt hbound)).trans ?_
  refine ((finds_current? tokens mid).leads (Nat.le_of_lt hbound)).trans ?_
  rw [if_neg (by simp [h.separates, h.full])]
  exact (finds_advance mid).leads hbound

/-- A bracket is given up as the other kind at its separator. -/
theorem FirstSide.misses_of_other (h : FirstSide tokens lists k kind a mid) {other : Bracket}
    (hother : other ≠ kind) : Misses (readBracket tokens lists other) k k ⟨mid, none⟩ := by
  have hkinds : kind.separatorKind ≠ other.separatorKind ∧ kind.separatorKind ≠ .rightBracket := by
    cases kind <;> cases other <;> first | exact absurd rfl hother | decide
  have hmissing : (tokens[mid]?).map (·.kind) ≠ some other.separatorKind := by
    rw [h.separates]
    exact fun heq => hkinds.1 (Option.some.inj heq)
  have hmisses := misses_readBracket_of_firstSide other h.opens h.finds h.later (.inl hmissing)
  simpa [h.separates, firstSideCause?, hkinds.2, h.full] using hmisses

/-- The rules before the one for a bracket's own kind are given up at its separator at the latest. -/
theorem FirstSide.leads_readNode (h : FirstSide tokens lists k kind a mid) (hbound : mid < bound) :
    ∃ rest, Leads (readNode tokens lists) k (orElse (readBracket tokens lists kind) rest) k
      bound := by
  have hseq := misses_readSequence_of_kind h.opens (by decide)
  rw [readNode_eq]
  cases kind with
  | conjugate => exact ⟨_, hseq.leads (Nat.lt_trans h.later hbound)⟩
  | commutator =>
    have hconjugate : Misses (readBracket tokens lists .conjugate) k k ⟨mid, none⟩ :=
      h.misses_of_other (by decide)
    exact ⟨_, (hseq.leads (Nat.lt_trans h.later hbound)).trans (hconjugate.leads hbound)⟩

/-- If a bracket's own kind is given up behind its separator, that failure is the furthest. -/
theorem FirstSide.breaks_readNode (h : FirstSide tokens lists k kind a mid) {f : Failure}
    (hmisses : Misses (readBracket tokens lists kind) k k f) (hbehind : mid < f.index) :
    Breaks (readNode tokens lists) k k (f.error tokens) := by
  have hseq := misses_readSequence_of_kind h.opens (by decide)
  have hrepeated : Misses (readRepeated tokens lists) k k ⟨k, none⟩ :=
    misses_readRepeated (by simp [h.opens])
  have hstart : k < f.index := Nat.lt_trans h.later hbehind
  have hstart' : ¬ f.index < k := Nat.lt_asymm hstart
  cases kind with
  | conjugate =>
    have hother : Misses (readBracket tokens lists .commutator) k k ⟨mid, none⟩ :=
      h.misses_of_other (by decide)
    refine Backtracking.breaks_readNode hseq hmisses hother hrepeated ?_
    simp [deepest?, deeper, hstart, hstart', Nat.lt_asymm hbehind]
  | commutator =>
    have hother : Misses (readBracket tokens lists .conjugate) k k ⟨mid, none⟩ :=
      h.misses_of_other (by decide)
    refine Backtracking.breaks_readNode hseq hother hmisses hrepeated ?_
    simp [deepest?, deeper, h.later, hbehind, hstart']

theorem misses_readSecondSide (hb : Finds (lists (· = .rightBracket)) mid b last)
    (hend : tokens[last]? = none ∨ b = []) :
    Misses (readSecondSide tokens lists kind start a) mid start
      ⟨last, if b.isEmpty then some (.emptyRightSide kind) else none⟩ := by
  rw [readSecondSide]
  refine (hb.leads (Nat.le_refl last)).misses ?_
  refine ((finds_current? tokens last).leads (Nat.le_refl last)).misses ?_
  rw [if_pos (by simpa using hend)]
  exact misses_giveUp last start _

theorem finds_readSecondSide (hb : Finds (lists (· = .rightBracket)) mid b last)
    (hend : tokens[last]? ≠ none) (hfull : b ≠ []) :
    Finds (readSecondSide tokens lists kind start a) mid (some (.bracket kind a b)) (last + 1) := by
  rw [readSecondSide]
  refine (hb.leads (Nat.le_succ last)).finds ?_
  refine ((finds_current? tokens last).leads (Nat.le_succ last)).finds ?_
  rw [if_neg (by simpa [hfull] using hend)]
  exact ((finds_advance last).leads (Nat.le_refl _)).finds (finds_pure _ _)

theorem breaks_readSecondSide (hb : Breaks (lists (· = .rightBracket)) mid bound e) :
    Breaks (readSecondSide tokens lists kind start a) mid bound e := by
  rw [readSecondSide]
  exact hb.bind

theorem breaks_readRepeated (hopen : (tokens[k]?).map (·.kind) = some .leftParen)
    (hbody : Breaks (lists (· = .rightParen)) (k + 1) bound e) (hbound : k < bound) :
    Breaks (readRepeated tokens lists) k bound e := by
  rw [readRepeated]
  refine ((finds_position k).leads (by omega)).breaks ?_
  refine ((finds_current? tokens k).leads (by omega)).breaks ?_
  rw [if_neg (by simp [hopen])]
  exact ((finds_advance k).leads hbound).breaks hbody.bind

theorem misses_readRepeated_of_contents (hopen : (tokens[k]?).map (·.kind) = some .leftParen)
    (hbody : Finds (lists (· = .rightParen)) (k + 1) body mid) (hlt : k < mid)
    (hend : tokens[mid]? = none ∨ body = []) :
    Misses (readRepeated tokens lists) k k
      ⟨mid, if body.isEmpty then some .emptyRepetition else none⟩ := by
  rw [readRepeated]
  refine ((finds_position k).leads (Nat.le_of_lt hlt)).misses ?_
  refine ((finds_current? tokens k).leads (Nat.le_of_lt hlt)).misses ?_
  rw [if_neg (by simp [hopen])]
  refine ((finds_advance k).leads hlt).misses ?_
  refine (hbody.leads (Nat.le_refl mid)).misses ?_
  refine ((finds_current? tokens mid).leads (Nat.le_refl mid)).misses ?_
  rw [if_pos (by simpa using hend)]
  exact misses_giveUp mid k _

/-- With its contents read, a repetition goes on to its count. -/
theorem leads_readCount (hopen : (tokens[k]?).map (·.kind) = some .leftParen)
    (hbody : Finds (lists (· = .rightParen)) (k + 1) body mid) (hlt : k < mid)
    (hend : tokens[mid]? ≠ none) (hfull : body ≠ []) (hbound : mid < bound) :
    Leads (readRepeated tokens lists) k (readCount tokens k body) (mid + 1) bound := by
  rw [readRepeated]
  refine ((finds_position k).leads (by omega)).trans ?_
  refine ((finds_current? tokens k).leads (by omega)).trans ?_
  rw [if_neg (by simp [hopen])]
  refine ((finds_advance k).leads (by omega)).trans ?_
  refine (hbody.leads (Nat.le_of_lt hbound)).trans ?_
  refine ((finds_current? tokens mid).leads (Nat.le_of_lt hbound)).trans ?_
  rw [if_neg (by simpa [hfull] using hend)]
  exact (finds_advance mid).leads hbound

/-- The rules before the one for a repetition are given up at its parenthesis. -/
theorem leads_readRepeated (hopen : (tokens[k]?).map (·.kind) = some .leftParen)
    (hbound : k < bound) :
    ∃ rest, Leads (readNode tokens lists) k (orElse (readRepeated tokens lists) rest) k bound := by
  have hseq := misses_readSequence_of_kind hopen (by decide)
  have hbracket (kind : Bracket) : Misses (readBracket tokens lists kind) k k ⟨k, none⟩ :=
    misses_readBracket (by simp [hopen])
  rw [readNode_eq]
  exact ⟨_, ((hseq.leads hbound).trans ((hbracket .conjugate).leads hbound)).trans
    ((hbracket .commutator).leads hbound)⟩

/-- If a repetition is given up behind its parenthesis, that failure is the furthest. -/
theorem breaks_readNode_of_readRepeated (hopen : (tokens[k]?).map (·.kind) = some .leftParen)
    {f : Failure} (hmisses : Misses (readRepeated tokens lists) k k f) (hbehind : k < f.index) :
    Breaks (readNode tokens lists) k k (f.error tokens) := by
  have hseq := misses_readSequence_of_kind hopen (by decide)
  have hbracket (kind : Bracket) : Misses (readBracket tokens lists kind) k k ⟨k, none⟩ :=
    misses_readBracket (by simp [hopen])
  refine breaks_readNode hseq (hbracket .conjugate) (hbracket .commutator) hmisses ?_
  simp [deepest?, deeper, hbehind]

theorem misses_readCount (h : (tokens[mid]?).map (·.kind) ≠ some .multiplier) :
    Misses (readCount tokens start body) mid start ⟨mid, some .missingMultiplier⟩ := by
  rw [readCount]
  refine ((finds_position mid).leads (Nat.le_refl mid)).misses ?_
  split
  · rename_i digits hcount
    simp [hcount] at h
  · exact misses_giveUp mid start _

theorem finds_readCount {token : Token} (hcount : tokens[mid]? = some token)
    (hkind : token.kind = .multiplier) :
    Finds (readCount tokens start body) mid
      (some (.repeated body (repeatCount token.chars))) (mid + 1) := by
  obtain ⟨kind, chars⟩ := token
  subst hkind
  rw [readCount]
  refine ((finds_position mid).leads (Nat.le_succ mid)).finds ?_
  rw [hcount]
  exact ((finds_advance mid).leads (Nat.le_refl _)).finds (finds_pure _ _)

end

end Cubing.Backtracking
