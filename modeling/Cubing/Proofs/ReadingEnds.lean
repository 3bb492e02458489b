import Cubing.Proofs.ReadingByTrial

set_option autoImplicit false

/-! # Reading by trial comes to an end

No counter only goes down while elements are read by trial: the cursor moves on, is taken back to
the start of a group, and moves on again when the group is tried as another kind. But whatever is
read inside a group starts behind its opening token. So if lists that start behind a cursor come to
an end within the tokens, then so does every rule at the cursor: it goes on behind the cursor, or it
is given up and takes the cursor back, or it ends with an error (`Backtracking.Advances`). A list
that is bounded by more than the tokens that are left then ends too, by induction on the bound.

To come to an end is to have one result whatever the bound is, as long as it is beyond the tokens
that are left. So two readers are compared, of which the lists are read within different bounds
(`Backtracking.EndAlike`). -/

namespace Cubing.Backtracking

/-! ## Readers that come to an end -/

section

variable {α β : Type} {read read' : Reader α} {next next' : α → Reader β} {x : α} {k j start : Nat}
variable {post : α → Nat → Prop} {post' : β → Nat → Prop} {f : Failure}

/-- At a cursor, two readers come to one result, whatever has failed before. If they go on, `post`
    holds of what they have read and of the new cursor. -/
def EndAlike (read read' : Reader α) (k : Nat) (post : α → Nat → Prop) : Prop :=
  ∀ log, ∃ result, read ⟨k, log⟩ = some result ∧ read' ⟨k, log⟩ = some result ∧
    ∀ x s, result = .ok (x, s) → post x s.cursor

theorem EndAlike.bind (h : EndAlike read read' k post)
    (hnext : ∀ x j, post x j → EndAlike (next x) (next' x) j post') :
    EndAlike (read >>= next) (read' >>= next') k post' := by
  intro log
  obtain ⟨result, hread, hread', hpost⟩ := h log
  cases result with
  | error e => exact ⟨.error e, bind_error hread, bind_error hread', by simp⟩
  | ok result =>
    obtain ⟨x, s⟩ := result
    rw [bind_ok hread, bind_ok hread']
    exact hnext x s.cursor (hpost x s rfl) s.failures

/-- What is found comes first in both readers. -/
theorem Finds.bind (h : Finds read k x j) (hnext : EndAlike (next x) (next' x) j post') :
    EndAlike (read >>= next) (read >>= next') k post' := by
  intro log
  obtain ⟨new, hread, -⟩ := h log
  rw [bind_ok hread, bind_ok hread]
  exact hnext (log ++ new)

theorem endAlike_of_ok (h : ∀ log, ∃ log', read ⟨k, log⟩ = some (.ok (x, ⟨j, log'⟩)))
    (hpost : post x j) : EndAlike read read k post := by
  intro log
  obtain ⟨log', hread⟩ := h log
  refine ⟨_, hread, hread, ?_⟩
  rintro _ _ ⟨⟩
  exact hpost

theorem Finds.endAlike (h : Finds read k x j) (hpost : post x j) : EndAlike read read k post := by
  refine endAlike_of_ok ?_ hpost
  intro log
  obtain ⟨new, hread, -⟩ := h log
  exact ⟨_, hread⟩

theorem Misses.endAlike {read : Reader (Option Node)} {post : Option Node → Nat → Prop}
    (h : Misses read k start f) (hpost : post none start) : EndAlike read read k post := by
  refine endAlike_of_ok ?_ hpost
  intro log
  obtain ⟨new, hread, -⟩ := h log
  exact ⟨_, hread⟩

end

/-! ## Rules -/

section

variable {tokens : List Token} {lists lists' : ListReader} {kind : Bracket} {a body : Tree}
variable {k mid start : Nat}

/-- Where a rule leaves the cursor: at its start if it is given up, and else behind it within the
    tokens. -/
def Advances (tokens : List Token) (start : Nat) : Option Node → Nat → Prop
  | none, next => next = start
  | some _, next => start < next ∧ next ≤ tokens.length

/-- Lists that start behind a cursor come to an end within the tokens. -/
def ListsEndAlike (tokens : List Token) (lists lists' : ListReader) (k : Nat) : Prop :=
  ∀ ends j, k < j → j ≤ tokens.length →
    EndAlike (lists ends) (lists' ends) j fun _ next => j ≤ next ∧ next ≤ tokens.length

theorem lt_length_of_kind {kind : Token.Kind} (h : (tokens[k]?).map (·.kind) = some kind) :
    k < tokens.length := by
  obtain ⟨token, htoken, -⟩ := Option.map_eq_some_iff.1 h
  exact (List.getElem?_eq_some_iff.1 htoken).1

theorem length_leadingTurns_le (tokens : List Token) :
    (leadingTurns tokens).length ≤ tokens.length := by
  obtain ⟨us, rest, rfl, hturns, -⟩ := leadingTurns_spec tokens
  have hlength : us.length = (leadingTurns (us ++ rest)).length := by
    simpa using congrArg List.length hturns
  rw [← hlength, List.length_append]
  exact Nat.le_add_right _ _

theorem endAlike_readSequence (hk : k ≤ tokens.length) :
    EndAlike (readSequence tokens) (readSequence tokens) k (Advances tokens k) := by
  by_cases hnone : leadingTurns (tokens.drop k) = []
  · exact (misses_readSequence hnone).endAlike rfl
  · have hpos := List.length_pos_iff.2 hnone
    have hle := length_leadingTurns_le (tokens.drop k)
    rw [List.length_drop] at hle
    exact (finds_readSequence hnone).endAlike ⟨by omega, by omega⟩

/-- A rule is given up on a condition, and goes on otherwise. -/
theorem endAlike_giveUp_or {read read' : Reader (Option Node)} {c : Prop} [Decidable c]
    {cause? : Option SyntaxError.Cause} (h : ¬ c → EndAlike read read' k (Advances tokens start)) :
    EndAlike (if c then giveUp start cause? else read) (if c then giveUp start cause? else read') k
      (Advances tokens start) := by
  by_cases hc : c
  · rw [if_pos hc, if_pos hc]
    exact (misses_giveUp k start cause?).endAlike rfl
  · rw [if_neg hc, if_neg hc]
    exact h hc

theorem endAlike_readSecondSide (h : ListsEndAlike tokens lists lists' start) (hstart : start < mid)
    (hmid : mid ≤ tokens.length) :
    EndAlike (readSecondSide tokens lists kind start a) (readSecondSide tokens lists' kind start a)
      mid (Advances tokens start) := by
  rw [readSecondSide, readSecondSide]
  refine (h _ mid hstart hmid).bind ?_
  intro b last hlast
  refine (finds_current? tokens last).bind (endAlike_giveUp_or ?_)
  intro hclosed
  have hlt : last < tokens.length := by
    by_contra hge
    simp [hge] at hclosed
  refine (finds_advance last).bind ?_
  exact (finds_pure _ (last + 1)).endAlike ⟨by omega, hlt⟩

theorem endAlike_readBracket (h : ListsEndAlike tokens lists lists' k) (kind : Bracket) :
    EndAlike (readBracket tokens lists kind) (readBracket tokens lists' kind) k
      (Advances tokens k) := by
  rw [readBracket, readBracket]
  refine (finds_position k).bind ?_
  refine (finds_current? tokens k).bind (endAlike_giveUp_or ?_)
  intro hopen
  refine (finds_advance k).bind ?_
  refine (h _ (k + 1) (Nat.lt_succ_self k) (lt_length_of_kind (not_not.1 hopen))).bind ?_
  intro a mid hmid
  refine (finds_current? tokens mid).bind (endAlike_giveUp_or ?_)
  intro hseparator
  simp only [Bool.or_eq_true, decide_eq_true_eq, not_or, not_not] at hseparator
  refine (finds_advance mid).bind ?_
  exact endAlike_readSecondSide h (by omega) (lt_length_of_kind hseparator.1)

theorem endAlike_readCount {post : Option Node → Nat → Prop} (hmissing : post none start)
    (hcounted : ∀ n, mid < tokens.length → post (some n) (mid + 1)) :
    EndAlike (readCount tokens start body) (readCount tokens start body) mid post := by
  by_cases hcount : (tokens[mid]?).map (·.kind) = some .multiplier
  · obtain ⟨count, htoken, hkind⟩ := Option.map_eq_some_iff.1 hcount
    exact (finds_readCount htoken hkind).endAlike (hcounted _ (lt_length_of_kind hcount))
  · exact (misses_readCount hcount).endAlike hmissing

theorem endAlike_readRepeated (h : ListsEndAlike tokens lists lists' k) :
    EndAlike (readRepeated tokens lists) (readRepeated tokens lists') k (Advances tokens k) := by
  rw [readRepeated, readRepeated]
  refine (finds_position k).bind ?_
  refine (finds_current? tokens k).bind (endAlike_giveUp_or ?_)
  intro hopen
  refine (finds_advance k).bind ?_
  refine (h _ (k + 1) (Nat.lt_succ_self k) (lt_length_of_kind (not_not.1 hopen))).bind ?_
  intro body mid hmid
  refine (finds_current? tokens mid).bind (endAlike_giveUp_or ?_)
  intro hclosed
  refine (finds_advance mid).bind ?_
  exact endAlike_readCount rfl fun n hlt => ⟨by omega, hlt⟩

/-! ## Elements and lists -/

/-- A rule that is given up leaves the others to try where it started. -/
theorem EndAlike.orElse {first first' : Reader (Option Node)} {rest rest' : Reader Node}
    (h : EndAlike first first' k (Advances tokens k))
    (hrest : EndAlike rest rest' k fun _ next => k < next ∧ next ≤ tokens.length) :
    EndAlike (orElse first rest) (orElse first' rest') k
      fun _ next => k < next ∧ next ≤ tokens.length := by
  refine h.bind ?_
  intro n? next hnext
  cases n? with
  | none =>
    cases hnext
    exact hrest
  | some n => exact (finds_pure n next).endAlike hnext

theorem endAlike_deepestError {post : Node → Nat → Prop} :
    EndAlike (deepestError tokens >>= throw) (deepestError tokens >>= throw) k post := by
  intro log
  exact ⟨_, rfl, rfl, by simp⟩

theorem endAlike_readNode (hk : k ≤ tokens.length) (h : ListsEndAlike tokens lists lists' k) :
    EndAlike (readNode tokens lists) (readNode tokens lists') k
      fun _ next => k < next ∧ next ≤ tokens.length := by
  rw [readNode_eq, readNode_eq]
  refine (endAlike_readSequence hk).orElse ?_
  refine (endAlike_readBracket h .conjugate).orElse ?_
  refine (endAlike_readBracket h .commutator).orElse ?_
  exact (endAlike_readRepeated h).orElse endAlike_deepestError

/-- Lists end within any two bounds beyond the tokens that are left, and with the same result. -/
theorem endAlike_readUntil {bound bound' : Nat} (hk : k ≤ tokens.length)
    (hbound : tokens.length - k < bound) (hbound' : tokens.length - k < bound')
    (ends : Token.Kind → Bool) :
    EndAlike (readUntil tokens bound ends) (readUntil tokens bound' ends) k
      fun _ next => k ≤ next ∧ next ≤ tokens.length := by
  induction bound generalizing bound' k ends with
  | zero => omega
  | succ bound ih =>
    obtain ⟨bound', rfl⟩ : ∃ n, bound' = n + 1 := ⟨bound' - 1, by omega⟩
    rw [readUntil, readUntil]
    refine (finds_current? tokens k).bind ?_
    cases htoken : tokens[k]? with
    | none => exact (finds_pure [] k).endAlike ⟨Nat.le_refl k, hk⟩
    | some token =>
      simp only [Option.map_some]
      by_cases hends : ends token.kind
      · rw [if_pos hends, if_pos hends]
        exact (finds_pure [] k).endAlike ⟨Nat.le_refl k, hk⟩
      · rw [if_neg hends, if_neg hends]
        have hlists : ListsEndAlike tokens (readUntil tokens bound) (readUntil tokens bound') k :=
          fun ends j hj hle => ih hle (by omega) (by omega) ends
        refine (endAlike_readNode hk hlists).bind ?_
        intro n mid hmid
        refine (hlists ends mid hmid.1 hmid.2).bind ?_
        intro ns last hlast
        exact (finds_pure _ last).endAlike ⟨by omega, hlast.2⟩

end

/-! ## Token by token -/

section

variable {tokens : List Token} {body : Tree} {bound start : Nat} {s : State}

theorem position_eq (s : State) : position s = some (.ok (s.cursor, s)) := rfl

theorem advance_eq (s : State) : advance s = some (.ok ((), ⟨s.cursor + 1, s.failures⟩)) := rfl

theorem current?_eq (tokens : List Token) (s : State) :
    current? tokens s = some (.ok ((tokens[s.cursor]?).map (·.kind), s)) := rfl

theorem leadingTurns_drop (tokens : List Token) (k : Nat) :
    leadingTurns (tokens.drop k) = match (tokens[k]?).bind Token.turn? with
      | none => []
      | some t => t :: leadingTurns (tokens.drop (k + 1)) := by
  cases htoken : tokens[k]? with
  | none =>
    rw [List.drop_eq_nil_of_le (List.getElem?_eq_none_iff.1 htoken)]
    rfl
  | some token =>
    rw [drop_of_getElem? htoken, leadingTurns, Option.bind_some]
    cases token.turn? <;> rfl

theorem readTurns_eq {k : Nat} {log : List Failure} (h : tokens.length - k < bound) :
    readTurns tokens bound ⟨k, log⟩
      = some (.ok (leadingTurns (tokens.drop k),
          ⟨k + (leadingTurns (tokens.drop k)).length, log⟩)) := by
  induction bound generalizing k with
  | zero => omega
  | succ bound ih =>
    rw [readTurns, bind_ok (position_eq _), leadingTurns_drop]
    dsimp only
    cases hturn : (tokens[k]?).bind Token.turn? with
    | none => rfl
    | some t =>
      obtain ⟨token, htoken, -⟩ := Option.bind_eq_some_iff.1 hturn
      obtain ⟨hlt, -⟩ := List.getElem?_eq_some_iff.1 htoken
      have hrest := ih (k := k + 1) (by omega)
      dsimp only
      rw [bind_ok (advance_eq _), bind_ok hrest, List.length_cons, Nat.add_right_comm k 1]
      rfl

/-- Turn by turn, the rule of sequences ends at the first token that is no turn. -/
theorem readSequenceWithin_eq (h : tokens.length - s.cursor < bound) :
    readSequenceWithin tokens bound s = readSequence tokens s := by
  rw [readSequenceWithin, readSequence, bind_ok (readTurns_eq h), bind_ok (position_eq s)]
  by_cases hnone : leadingTurns (tokens.drop s.cursor) = []
  · rw [hnone]
    rfl
  · simp only [List.isEmpty_iff, hnone, if_false]
    rfl

/-- The index of a count is among the tokens. -/
theorem readCountHere_eq : readCountHere tokens start body = readCount tokens start body := by
  funext s
  rw [readCountHere, readCount, bind_ok (current?_eq tokens s), bind_ok (position_eq s)]
  cases htoken : tokens[s.cursor]? with
  | none => rfl
  | some token =>
    obtain ⟨kind, chars⟩ := token
    cases kind with
    | multiplier =>
      have hhere : tokenHere tokens s = some (.ok (⟨.multiplier, chars⟩, s)) := by
        rw [tokenHere, bind_ok (position_eq s), htoken]
        rfl
      simp only [Option.map_some, ne_eq, not_true_eq_false, if_false]
      rw [bind_ok hhere]
    | turn | leftBracket | rightBracket | colon | comma | leftParen | rightParen => rfl

end

/-! ## The end of a reading -/

section

variable {α : Type} {tokens : List Token} {s : State}

/-- From a state on, a reading comes to an end: within every bound beyond the tokens that are left
    it has one and the same result. If it goes on, `post` holds of what it has read and of the new
    cursor. -/
def Ends (tokens : List Token) (read : Nat → Reader α) (s : State) (post : α → Nat → Prop) : Prop :=
  ∃ result, (∀ bound, tokens.length - s.cursor < bound → read bound s = some result) ∧
    ∀ x s', result = .ok (x, s') → post x s'.cursor

theorem ends_of_endAlike {read : Nat → Reader α} {post : α → Nat → Prop}
    (h : ∀ bound bound', tokens.length - s.cursor < bound → tokens.length - s.cursor < bound' →
      EndAlike (read bound) (read bound') s.cursor post) : Ends tokens read s post := by
  have hleast : tokens.length - s.cursor < tokens.length - s.cursor + 1 := Nat.lt_succ_self _
  obtain ⟨result, hread, -, hpost⟩ := h _ _ hleast hleast s.failures
  refine ⟨result, ?_, hpost⟩
  intro bound hbound
  obtain ⟨result', hread', hresult, -⟩ := h _ bound hleast hbound s.failures
  rw [hresult, ← hread', hread]

/-- The lists inside an element may be read within any two bounds beyond the tokens that are left. -/
theorem listsEndAlike {bound bound' : Nat} (hbound : tokens.length - s.cursor < bound)
    (hbound' : tokens.length - s.cursor < bound') :
    ListsEndAlike tokens (readUntil tokens bound) (readUntil tokens bound') s.cursor :=
  fun ends _ hj hle => endAlike_readUntil hle (by omega) (by omega) ends

/-- What the rules do from a state on. -/
structure EndsWithin (tokens : List Token) (s : State) : Prop where
  /-- An element that is found takes a token at least, and none that is not there. -/
  element : Ends tokens (fun bound => readNode tokens (readUntil tokens bound)) s
    fun _ next => s.cursor < next ∧ next ≤ tokens.length
  /-- A bracket that is given up takes the cursor back. -/
  bracket : ∀ kind, Ends tokens (fun bound => readBracket tokens (readUntil tokens bound) kind) s
    (Advances tokens s.cursor)
  /-- A repetition that is given up takes the cursor back. -/
  repetition : Ends tokens (fun bound => readRepeated tokens (readUntil tokens bound)) s
    (Advances tokens s.cursor)
  /-- A list of elements ends, whichever tokens end it. -/
  list : ∀ ends, Ends tokens (fun bound => readUntil tokens bound ends) s
    fun _ next => s.cursor ≤ next ∧ next ≤ tokens.length
  /-- The loop over the turns of a sequence ends. With it, the rule does the same. -/
  turns : ∃ result, readSequence tokens s = some result ∧
    ∀ bound, tokens.length - s.cursor < bound → readSequenceWithin tokens bound s = some result
  /-- The index of a count is among the tokens. With it, the rule does the same. -/
  count : ∀ start body, ∃ result, readCount tokens start body s = some result ∧
    readCountHere tokens start body s = some result

/-- **Reading by trial comes to an end and stays within the tokens**, whatever the tokens are, from
    every cursor among them, and whatever has failed before. From the first token on it gives what
    reading in one pass does. -/
theorem reading_ends_within (tokens : List Token) {s : State} (h : s.cursor ≤ tokens.length) :
    EndsWithin tokens s
      ∧ ∀ bound, tokens.length < bound → readWithin tokens bound = some (Tree.ofTokens tokens) := by
  refine ⟨⟨?_, ?_, ?_, ?_, ?_, ?_⟩, fun bound => readWithin_eq⟩
  · exact ends_of_endAlike fun _ _ hbound hbound' =>
      endAlike_readNode h (listsEndAlike hbound hbound')
  · intro kind
    exact ends_of_endAlike fun _ _ hbound hbound' =>
      endAlike_readBracket (listsEndAlike hbound hbound') kind
  · exact ends_of_endAlike fun _ _ hbound hbound' =>
      endAlike_readRepeated (listsEndAlike hbound hbound')
  · intro ends
    exact ends_of_endAlike fun _ _ hbound hbound' => endAlike_readUntil h hbound hbound' ends
  · obtain ⟨result, hread, -⟩ := endAlike_readSequence h s.failures
    exact ⟨result, hread, fun bound hbound => (readSequenceWithin_eq hbound).trans hread⟩
  · intro start body
    have hcount : EndAlike (readCount tokens start body) (readCount tokens start body) s.cursor
        fun _ _ => True := endAlike_readCount trivial fun _ _ => trivial
    obtain ⟨result, hread, -⟩ := hcount s.failures
    exact ⟨result, hread, (congrFun readCountHere_eq s).trans hread⟩

/-- In a repetition, one turn has the characters of none and the count those of no number; and
    something has failed further on. -/
theorem reading_ends_within_misfits :
    let tokens : List Token :=
      [⟨.leftParen, ['(']⟩, ⟨.turn, ['R']⟩, ⟨.turn, ['Q']⟩, ⟨.rightParen, []⟩, ⟨.multiplier, ['x']⟩]
    let s : State := ⟨1, [⟨4, none⟩]⟩
    s.cursor ≤ tokens.length ∧ EndsWithin tokens s
      ∧ ∀ bound, tokens.length < bound → readWithin tokens bound = some (Tree.ofTokens tokens) := by
  intro tokens s
  have hcursor : s.cursor ≤ tokens.length := by decide
  exact ⟨hcursor, reading_ends_within tokens hcursor⟩

end

end Cubing.Backtracking
