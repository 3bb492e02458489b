import Cubing.Tree

set_option autoImplicit false

/-! # Nodes at every depth

What it means for a node to be somewhere in an algorithm: among its elements, or somewhere within
one of its groups. Which repetitions count as entered is a parameter, since a repetition by zero
holds nodes that its expansion lacks. -/

namespace Cubing

namespace Node

/-- Whether a node is in an algorithm at some depth, where the contents of a repetition count only
    if its count is one to enter. -/
inductive Within (enter : UInt32 → Prop) (n : Node) : Tree → Prop where
  | here {t : Tree} (h : n ∈ t) : Within enter n t
  | left {t : Tree} {kind : Bracket} {a b : List Node} (h : .bracket kind a b ∈ t)
      (hn : Within enter n a) : Within enter n t
  | right {t : Tree} {kind : Bracket} {a b : List Node} (h : .bracket kind a b ∈ t)
      (hn : Within enter n b) : Within enter n t
  | body {t : Tree} {body : List Node} {c : UInt32} (h : .repeated body c ∈ t) (hc : enter c)
      (hn : Within enter n body) : Within enter n t

theorem Within.mono {enter : UInt32 → Prop} {n : Node} {s t : Tree} (h : n.Within enter s)
    (hst : s ⊆ t) : n.Within enter t := by
  cases h with
  | here h => exact .here (hst h)
  | left h hn => exact .left (hst h) hn
  | right h hn => exact .right (hst h) hn
  | body h hc hn => exact .body (hst h) hc hn

/-! ## Element by element -/

section

variable {enter : UInt32 → Prop} {n : Node} {t : Tree}

@[simp] theorem not_within_nil : ¬ n.Within enter [] := by
  rintro (h | ⟨h, -⟩ | ⟨h, -⟩ | ⟨h, -, -⟩) <;> cases h

@[simp] theorem within_seq_cons_iff {ts : List Turn} :
    n.Within enter (.seq ts :: t) ↔ n = .seq ts ∨ n.Within enter t := by
  constructor
  · rintro (h | ⟨h, hn⟩ | ⟨h, hn⟩ | ⟨h, hc, hn⟩)
    · exact (List.mem_cons.1 h).imp_right .here
    · exact .inr (.left (by simpa using h) hn)
    · exact .inr (.right (by simpa using h) hn)
    · exact .inr (.body (by simpa using h) hc hn)
  · rintro (rfl | h)
    · exact .here List.mem_cons_self
    · exact h.mono (List.subset_cons_self _ _)

@[simp] theorem within_bracket_cons_iff {kind : Bracket} {a b : List Node} :
    n.Within enter (.bracket kind a b :: t)
      ↔ n = .bracket kind a b ∨ n.Within enter a ∨ n.Within enter b ∨ n.Within enter t := by
  constructor
  · rintro (h | ⟨h, hn⟩ | ⟨h, hn⟩ | ⟨h, hc, hn⟩)
    · exact (List.mem_cons.1 h).imp_right fun h => .inr (.inr (.here h))
    · rcases List.mem_cons.1 h with heq | h
      · cases heq
        exact .inr (.inl hn)
      · exact .inr (.inr (.inr (.left h hn)))
    · rcases List.mem_cons.1 h with heq | h
      · cases heq
        exact .inr (.inr (.inl hn))
      · exact .inr (.inr (.inr (.right h hn)))
    · exact .inr (.inr (.inr (.body (by simpa using h) hc hn)))
  · rintro (rfl | h | h | h)
    · exact .here List.mem_cons_self
    · exact .left List.mem_cons_self h
    · exact .right List.mem_cons_self h
    · exact h.mono (List.subset_cons_self _ _)

@[simp] theorem within_repeated_cons_iff {body : List Node} {c : UInt32} :
    n.Within enter (.repeated body c :: t)
      ↔ n = .repeated body c ∨ (enter c ∧ n.Within enter body) ∨ n.Within enter t := by
  constructor
  · rintro (h | ⟨h, hn⟩ | ⟨h, hn⟩ | ⟨h, hc, hn⟩)
    · exact (List.mem_cons.1 h).imp_right fun h => .inr (.here h)
    · exact .inr (.inr (.left (by simpa using h) hn))
    · exact .inr (.inr (.right (by simpa using h) hn))
    · rcases List.mem_cons.1 h with heq | h
      · cases heq
        exact .inr (.inl ⟨hc, hn⟩)
      · exact .inr (.inr (.body h hc hn))
  · rintro (rfl | ⟨hc, h⟩ | h)
    · exact .here List.mem_cons_self
    · exact .body List.mem_cons_self hc h
    · exact h.mono (List.subset_cons_self _ _)

end

/-! ## Live and skipped nodes -/

/-- A node at any depth. -/
def Anywhere (n : Node) (t : Tree) : Prop := n.Within (fun _ => True) t

/-- A node that is within no repetition by zero. -/
def Live (n : Node) (t : Tree) : Prop := n.Within (· ≠ 0) t

/-- A node within a repetition by zero. -/
def Skipped (n : Node) (t : Tree) : Prop :=
  ∃ body, (repeated body 0).Anywhere t ∧ n.Anywhere body

variable {n : Node} {t : Tree}

theorem Anywhere.of_repeated {body : List Node} {c : UInt32} (h : (repeated body c).Anywhere t)
    (hn : n.Anywhere body) : n.Anywhere t := by
  induction h with
  | here h => exact .body h trivial hn
  | left h _ ih => exact .left h ih
  | right h _ ih => exact .right h ih
  | body h hc _ ih => exact .body h hc ih

theorem Skipped.anywhere (h : n.Skipped t) : n.Anywhere t := by
  obtain ⟨body, hbody, hn⟩ := h
  exact hbody.of_repeated hn

/-- Every node is live or skipped. -/
theorem Anywhere.live_or_skipped (h : n.Anywhere t) : n.Live t ∨ n.Skipped t := by
  induction h with
  | here h => exact .inl (.here h)
  | left h _ ih =>
    rcases ih with hlive | ⟨body, hbody, hn⟩
    · exact .inl (.left h hlive)
    · exact .inr ⟨body, .left h hbody, hn⟩
  | right h _ ih =>
    rcases ih with hlive | ⟨body, hbody, hn⟩
    · exact .inl (.right h hlive)
    · exact .inr ⟨body, .right h hbody, hn⟩
  | @body t body c h _ hn ih =>
    by_cases hc : c = 0
    · exact .inr ⟨body, hc ▸ .here h, hn⟩
    · rcases ih with hlive | ⟨body', hbody, hn⟩
      · exact .inl (.body h hc hlive)
      · exact .inr ⟨body', .body h trivial hbody, hn⟩

end Node

end Cubing
