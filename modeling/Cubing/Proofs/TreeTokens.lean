import Cubing.Proofs.Fusing

set_option autoImplicit false

/-! # The tokens of a tree

A tree is written by the tokens of its canonical text (`Tree.tokens`), one for each turn, mark and count
in it. Tokens show no empty sequences and no ends of sequences, so what they write is the fused tree
(`Tree.written_tokens`), provided that every group shows something in each of its lists: `[: R]` is no
notation. All that is written is of that kind (`Tree.Written.filled`). -/

namespace Cubing

/-! ## Tokens in order -/

def Token.ofTurn (t : Turn) : Token := ⟨.turn, t.chars⟩

def Token.ofCount (n : UInt32) : Token := ⟨.multiplier, Nat.toDigits 10 n.toNat⟩

namespace Node

mutual

/-- The tokens of a node's canonical text. -/
def tokens : Node → List Token
  | .seq ts => ts.map Token.ofTurn
  | .bracket kind a b =>
    ⟨.leftBracket, ['[']⟩ :: listTokens a ++ ⟨kind.separatorKind, [kind.separator]⟩ :: listTokens b
      ++ [⟨.rightBracket, [']']⟩]
  | .repeated body n =>
    ⟨.leftParen, ['(']⟩ :: listTokens body
      ++ [⟨.rightParen, [')']⟩, .ofCount n]

def listTokens : List Node → List Token
  | [] => []
  | n :: ns => n.tokens ++ listTokens ns

end

/-- Whether a list shows anything: it has an element that is no empty sequence. -/
def shows (ns : List Node) : Bool := ns.any (· ≠ .seq [])

mutual

/-- Whether each list of each group inside a node shows something. -/
def filled : Node → Bool
  | .seq _ => true
  | .bracket _ a b => shows a && listFilled a && (shows b && listFilled b)
  | .repeated body _ => shows body && listFilled body

def listFilled : List Node → Bool
  | [] => true
  | n :: ns => n.filled && listFilled ns

end

end Node

namespace Tree

def tokens (t : Tree) : List Token := Node.listTokens t

/-- Every side of a bracket and every repeated list shows something, at every depth. -/
def Filled (t : Tree) : Prop := Node.listFilled t

instance (t : Tree) : Decidable t.Filled := inferInstanceAs (Decidable (_ = true))

theorem filled_cons_iff {n : Node} {t : Tree} :
    Filled (n :: t) ↔ n.filled ∧ t.Filled := by
  simp [Filled, Node.listFilled]

theorem filled_iff {t : Tree} : t.Filled ↔ ∀ n ∈ t, n.filled := by
  induction t with
  | nil => simp [Filled, Node.listFilled]
  | cons n t ih => simp [filled_cons_iff, ih]

theorem filled_bracket_iff {kind : Bracket} {a b : List Node} :
    (Node.bracket kind a b).filled ↔
      (Node.shows a ∧ Filled a) ∧ Node.shows b ∧ Filled b := by
  simp [Node.filled, Filled]

theorem filled_repeated_iff {body : List Node} {n : UInt32} :
    (Node.repeated body n).filled ↔ Node.shows body ∧ Filled body := by
  simp [Node.filled, Filled]

end Tree

/-! ## Tokens that write the fused tree -/

theorem Node.shows_iff (ns : List Node) : shows ns ↔ ∃ n ∈ ns, n ≠ seq [] := by
  simp [shows]

theorem isDigit_toDigits (n : UInt32) : ∀ c ∈ Nat.toDigits 10 n.toNat, c.isDigit :=
  fun _ hc => Nat.isDigit_of_mem_toDigits (by decide) (by decide) hc

/-- A count is read from its decimal digits. -/
theorem repeatCount_ofCount (n : UInt32) : repeatCount (Token.ofCount n).chars = n := by
  have hmax : n.toNat ≤ maxCount := Nat.le_pred_of_lt n.toNat_lt
  rw [Token.ofCount, ← UInt32.toNat_inj, toNat_repeatCount Nat.toDigits_ne_nil (isDigit_toDigits n),
    Nat.ofDigitChars_toDigits (by decide) (by decide), Nat.min_eq_left hmax]

namespace Tree

/-- The elements of an algorithm that have tokens, each of them fused, with neighbouring sequences
    still side by side. -/
def shown (t : Tree) : List Node := (t.map Node.fuse).filter (· ≠ .seq [])

theorem fuse_eq_join_shown (t : Tree) : t.fuse = Node.join t.shown := t.fuse_eq

@[simp] theorem shown_nil : shown [] = [] := rfl

@[simp] theorem shown_cons_empty (t : Tree) : shown (.seq [] :: t) = t.shown := rfl

theorem shown_cons_seq {ts : List Turn} (h : ts ≠ []) (t : Tree) :
    shown (.seq ts :: t) = .seq ts :: t.shown := by
  simp [shown, h]

@[simp] theorem shown_cons_bracket (kind : Bracket) (a b : List Node) (t : Tree) :
    shown (.bracket kind a b :: t) = .bracket kind (fuse a) (fuse b) :: t.shown := by
  simp [shown]

@[simp] theorem shown_cons_repeated (body : List Node) (n : UInt32) (t : Tree) :
    shown (.repeated body n :: t) = .repeated (fuse body) n :: t.shown := by
  simp [shown]

theorem shown_ne_nil_iff {t : Tree} : t.shown ≠ [] ↔ Node.shows t := by
  simp [shown, Node.shows_iff, Node.fuse_eq_seq_iff]

/-- What writes the elements that have tokens writes the fused tree. -/
theorem written_fuse_of_shown {t : Tree} {tokens : List Token}
    (h : Node.ListWritten t.shown tokens) : t.fuse.Written tokens := by
  rw [fuse_eq_join_shown]
  exact h.join

/-- A list that shows something is not empty once it is fused: it has tokens. -/
theorem fuse_ne_nil_of_shown {t : Tree} {tokens : List Token} (hshows : Node.shows t)
    (h : Node.ListWritten t.shown tokens) : t.fuse ≠ [] := by
  intro hnil
  have htokens : tokens = [] := (written_fuse_of_shown h).eq_nil_iff.1 hnil
  exact shown_ne_nil_iff.2 hshows (h.eq_nil_iff.2 htokens)

theorem map_turn?_ofTurn (ts : List Turn) :
    (ts.map Token.ofTurn).map Token.turn? = ts.map some := by
  simp [Token.ofTurn, Token.turn?, Function.comp_def]

/-- The tokens of a tree write its elements, but for those that have none. -/
theorem listWritten_shown {t : Tree} (h : t.Filled) : Node.ListWritten t.shown t.tokens := by
  induction t using Tree.induction with
  | nil => exact .nil
  | seq ts t ih =>
    have hrest := ih (filled_cons_iff.1 h).2
    by_cases hempty : ts = []
    · subst hempty
      exact hrest
    · rw [shown_cons_seq hempty]
      exact .cons (.seq hempty (map_turn?_ofTurn ts)) hrest
  | bracket kind a b t iha ihb ih =>
    obtain ⟨hn, ht⟩ := filled_cons_iff.1 h
    obtain ⟨⟨hshowsA, ha⟩, hshowsB, hb⟩ := filled_bracket_iff.1 hn
    rw [shown_cons_bracket]
    exact .cons (.bracket rfl rfl rfl (fuse_ne_nil_of_shown hshowsA (iha ha))
      (fuse_ne_nil_of_shown hshowsB (ihb hb)) (written_fuse_of_shown (iha ha))
      (written_fuse_of_shown (ihb hb))) (ih ht)
  | repeated body n t ihbody ih =>
    obtain ⟨hn, ht⟩ := filled_cons_iff.1 h
    obtain ⟨hshows, hbody⟩ := filled_repeated_iff.1 hn
    have hcount := @Node.Written.repeated _ _ ⟨.leftParen, ['(']⟩ ⟨.rightParen, [')']⟩ (.ofCount n)
      rfl rfl rfl (fuse_ne_nil_of_shown hshows (ihbody hbody)) (written_fuse_of_shown (ihbody hbody))
    rw [repeatCount_ofCount] at hcount
    rw [shown_cons_repeated]
    exact .cons hcount (ih ht)

/-- **The tokens of a tree write the fused tree.** -/
theorem written_tokens {t : Tree} (h : t.Filled) : t.fuse.Written t.tokens :=
  written_fuse_of_shown (listWritten_shown h)

/-- Every list that is written is filled: its elements take tokens, and it has some. -/
theorem Written.filled {t : Tree} {tokens : List Token} (h : t.Written tokens) : t.Filled := by
  have hshows {a : Tree} {as : List Token} (ha : a ≠ []) (has : Node.ListWritten a as) :
      Node.shows a := by
    obtain ⟨n, ns, rfl⟩ := List.exists_cons_of_ne_nil ha
    exact (Node.shows_iff _).2 ⟨n, List.mem_cons_self, has.forall_ne_seq_nil n List.mem_cons_self⟩
  induction h using Tree.Written.induction with
  | nil => rfl
  | seq nonempty turns rest ih => exact filled_cons_iff.2 ⟨rfl, ih⟩
  | bracket left between right first second writesFirst writesSecond rest iha ihb ih =>
    have hsides := And.intro (And.intro (hshows first writesFirst) iha)
      (And.intro (hshows second writesSecond) ihb)
    exact filled_cons_iff.2 ⟨filled_bracket_iff.2 hsides, ih⟩
  | repeated left right counts contents writes rest ihbody ih =>
    exact filled_cons_iff.2 ⟨filled_repeated_iff.2 ⟨hshows contents writes, ihbody⟩, ih⟩

end Tree

end Cubing
