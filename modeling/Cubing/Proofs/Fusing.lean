import Cubing.Notation.Grammar
import Cubing.Proofs.NodesWithin
import Cubing.Proofs.NormalForm

set_option autoImplicit false

/-! # The tree that notation keeps

Notation shows neither an empty sequence nor where one of two neighbouring sequences ends and the
other begins. *Fusing* a tree forgets just that, in every list at every depth: empty sequences go,
and neighbouring sequences are joined.

A fused tree has no two sequences side by side (`Tree.joined_fuse`) and is written by the same tokens
as the tree (`Tree.Written.fuse`); a tree that is already in this form stays as it is
(`Tree.fuse_eq_self`). -/

namespace Cubing

/-! ## Fusing -/

/-- A list without its empty sequences, neighbouring sequences joined. -/
def Node.gather (ns : List Node) : List Node := Node.join (ns.filter (· ≠ .seq []))

mutual

/-- A node with every list inside it gathered. -/
def Node.fuse : Node → Node
  | .seq ts => .seq ts
  | .bracket kind a b =>
    .bracket kind (Node.gather (Node.fuseEach a)) (Node.gather (Node.fuseEach b))
  | .repeated body n => .repeated (Node.gather (Node.fuseEach body)) n

def Node.fuseEach : List Node → List Node
  | [] => []
  | n :: ns => n.fuse :: Node.fuseEach ns

end

/-- An algorithm without empty sequences and with neighbouring sequences joined, at every depth. -/
def Tree.fuse (t : Tree) : Tree := Node.gather (Node.fuseEach t)

theorem Node.fuseEach_eq_map (ns : List Node) : Node.fuseEach ns = ns.map Node.fuse := by
  induction ns with
  | nil => rfl
  | cons n ns ih => simp [Node.fuseEach, ih]

theorem Tree.fuse_eq (t : Tree) : t.fuse = Node.gather (t.map Node.fuse) := by
  rw [Tree.fuse, Node.fuseEach_eq_map]

namespace Node

@[simp] theorem fuse_seq (ts : List Turn) : (seq ts).fuse = seq ts := rfl

@[simp] theorem fuse_bracket (kind : Bracket) (a b : List Node) :
    (bracket kind a b).fuse = bracket kind (Tree.fuse a) (Tree.fuse b) := by
  rw [fuse]
  rfl

@[simp] theorem fuse_repeated (body : List Node) (n : UInt32) :
    (repeated body n).fuse = repeated (Tree.fuse body) n := by
  rw [fuse]
  rfl

theorem fuse_eq_seq_iff {n : Node} {ts : List Turn} : n.fuse = seq ts ↔ n = seq ts := by
  cases n <;> simp

end Node

/-! ## Fused trees are joined -/

namespace Node

theorem apart_iff (ns : List Node) : apart ns ↔ ns.IsChain Separate := by
  induction ns with
  | nil => simp [apart]
  | cons m ns ih =>
    cases ns with
    | nil => simp [apart]
    | cons n ns =>
      have hpair : (!(m.isSeq && n.isSeq)) = true ↔ Separate m n := by
        unfold Separate
        cases m.isSeq <;> cases n.isSeq <;> decide
      rw [List.isChain_cons_cons, ← ih, apart, Bool.and_eq_true, hpair]

theorem listJoined_iff (ns : List Node) : listJoined ns ↔ ∀ n ∈ ns, n.joined := by
  induction ns with
  | nil => simp [listJoined]
  | cons n ns ih => simp [listJoined, ih]

end Node

namespace Tree

theorem joined_iff (t : Tree) : t.Joined ↔ t.IsChain Node.Separate ∧ ∀ n ∈ t, n.joined := by
  rw [Joined, Bool.and_eq_true, Node.apart_iff, Node.listJoined_iff]

theorem joined_bracket_iff {kind : Bracket} {a b : List Node} :
    (Node.bracket kind a b).joined ↔ Joined a ∧ Joined b := by
  simp [Node.joined, Joined]

theorem joined_repeated_iff {body : List Node} {n : UInt32} :
    (Node.repeated body n).joined ↔ Joined body := by
  simp [Node.joined, Joined]

/-- Gathering joined elements makes a joined tree: the sequences it makes hold nothing else. -/
theorem joined_gather {ns : List Node} (h : ∀ n ∈ ns, n.joined) : Joined (Node.gather ns) := by
  refine (joined_iff _).2 ⟨Node.isChain_join _, ?_⟩
  intro n hn
  by_cases hseq : n.isSeq
  · cases n with
    | seq ts => rfl
    | bracket kind a b => cases hseq
    | repeated body c => cases hseq
  · have hmem := Node.mem_of_mem_join hn (Bool.not_eq_true _ ▸ hseq)
    exact h n (List.mem_of_mem_filter hmem)

/-- **No two sequences stand side by side in a fused tree.** -/
theorem joined_fuse (t : Tree) : t.fuse.Joined := by
  have hfuse {t : Tree} (h : ∀ n ∈ t, n.fuse.joined) : t.fuse.Joined := by
    rw [fuse_eq]
    refine joined_gather ?_
    simpa using h
  refine hfuse ?_
  induction t using Tree.induction with
  | nil => simp
  | seq ts t ih => exact List.forall_mem_cons.2 ⟨rfl, ih⟩
  | bracket kind a b t iha ihb ih =>
    refine List.forall_mem_cons.2 ⟨?_, ih⟩
    rw [Node.fuse_bracket]
    exact joined_bracket_iff.2 ⟨hfuse iha, hfuse ihb⟩
  | repeated body n t ihbody ih =>
    refine List.forall_mem_cons.2 ⟨?_, ih⟩
    rw [Node.fuse_repeated]
    exact joined_repeated_iff.2 (hfuse ihbody)

end Tree

/-! ## Fused trees are written alike -/

namespace Node

variable {n : Node} {ns : List Node} {tokens : List Token}

theorem Written.ne_seq_nil (h : n.Written tokens) : n ≠ .seq [] := by
  rintro rfl
  cases h with
  | seq nonempty turns => exact nonempty rfl

theorem ListWritten.forall_ne_seq_nil (h : ListWritten ns tokens) : ∀ n ∈ ns, n ≠ seq [] := by
  induction ns generalizing tokens with
  | nil => simp
  | cons n ns ih =>
    obtain ⟨here, there, hn, hns, rfl⟩ := listWritten_cons_iff.1 h
    exact List.forall_mem_cons.2 ⟨hn.ne_seq_nil, ih hns⟩

/-- The tokens of a run do not show where it is cut into sequences. -/
theorem ListWritten.join (h : ListWritten ns tokens) : ListWritten (join ns) tokens := by
  induction ns generalizing tokens with
  | nil => exact h
  | cons n ns ih =>
    obtain ⟨here, there, hn, hns, rfl⟩ := listWritten_cons_iff.1 h
    cases n with
    | seq ts =>
      rw [Node.join]
      split
      · rename_i us rest hjoin
        have hjoined := ih hns
        rw [hjoin] at hjoined
        obtain ⟨here', there', hus, hrest, rfl⟩ := listWritten_cons_iff.1 hjoined
        cases hn with
        | seq nonempty turns =>
          cases hus with
          | seq nonempty' turns' =>
            rw [← List.append_assoc]
            exact .cons (.seq (by simp [nonempty]) (by simp [turns, turns'])) hrest
      · exact .cons hn (ih hns)
    | bracket kind a b => exact .cons hn (ih hns)
    | repeated body c => exact .cons hn (ih hns)

theorem ListWritten.gather (h : ListWritten ns tokens) : ListWritten (gather ns) tokens := by
  have hkeep : ns.filter (· ≠ seq []) = ns :=
    List.filter_eq_self.2 fun n hn => decide_eq_true (h.forall_ne_seq_nil n hn)
  rw [Node.gather, hkeep]
  exact h.join

end Node

/-- **Fusing keeps the tokens.** -/
theorem Tree.Written.fuse {t : Tree} {tokens : List Token} (h : t.Written tokens) :
    t.fuse.Written tokens := by
  suffices hmap : Node.ListWritten (t.map Node.fuse) tokens by
    rw [Tree.fuse_eq]
    exact hmap.gather
  -- A side that is not empty takes tokens, and what takes tokens is not empty.
  have hside {a : Tree} {as : List Token} (ha : a ≠ []) (has : Node.ListWritten a as)
      (hmap : Node.ListWritten (a.map Node.fuse) as) :
      a.fuse ≠ [] ∧ Node.ListWritten a.fuse as := by
    have hfused : Node.ListWritten a.fuse as := by
      rw [Tree.fuse_eq]
      exact hmap.gather
    exact ⟨fun hnil => ha (has.eq_nil_iff.2 (hfused.eq_nil_iff.1 hnil)), hfused⟩
  induction h using Tree.Written.induction with
  | nil => exact .nil
  | seq nonempty turns rest ih => exact .cons (.seq nonempty turns) ih
  | bracket left between right first second writesFirst writesSecond rest iha ihb ih =>
    obtain ⟨hne, hfirst⟩ := hside first writesFirst iha
    obtain ⟨hne', hsecond⟩ := hside second writesSecond ihb
    refine .cons ?_ ih
    rw [Node.fuse_bracket]
    exact .bracket left between right hne hne' hfirst hsecond
  | repeated left right counts contents writes rest ihbody ih =>
    obtain ⟨hne, hbody⟩ := hside contents writes ihbody
    refine .cons ?_ ih
    rw [Node.fuse_repeated]
    exact .repeated left right counts hne hbody

/-! ## Trees in this form stay -/

/-- **A joined tree without empty sequences is fused already.** -/
theorem Tree.fuse_eq_self {t : Tree} (h : t.Joined)
    (hfull : ∀ ts, (Node.seq ts).Anywhere t → ts ≠ []) : t.fuse = t := by
  -- Elements that stay as they are, apart and not empty, make a list that stays.
  have hlist {t : Tree} (h : t.Joined) (hfull : ∀ ts, (Node.seq ts).Anywhere t → ts ≠ [])
      (hmap : t.map Node.fuse = t) : t.fuse = t := by
    have hkeep : t.filter (· ≠ .seq []) = t := by
      refine List.filter_eq_self.2 fun n hn => decide_eq_true ?_
      rintro rfl
      exact hfull [] (.here hn) rfl
    rw [fuse_eq, hmap, Node.gather, hkeep]
    exact Node.join_eq_self ((joined_iff t).1 h).1
  refine hlist h hfull ?_
  replace h := ((joined_iff t).1 h).2
  induction t using Tree.induction with
  | nil => rfl
  | seq ts t ih =>
    obtain ⟨-, ht⟩ := List.forall_mem_cons.1 h
    have hrest := ih (fun us hus => hfull us (hus.mono (List.subset_cons_self _ _))) ht
    rw [List.map_cons, hrest, Node.fuse_seq]
  | bracket kind a b t iha ihb ih =>
    obtain ⟨hn, ht⟩ := List.forall_mem_cons.1 h
    obtain ⟨ha, hb⟩ := joined_bracket_iff.1 hn
    have hrest := ih (fun us hus => hfull us (hus.mono (List.subset_cons_self _ _))) ht
    have hleft (us) (hus : (Node.seq us).Anywhere a) : us ≠ [] :=
      hfull us (.left List.mem_cons_self hus)
    have hright (us) (hus : (Node.seq us).Anywhere b) : us ≠ [] :=
      hfull us (.right List.mem_cons_self hus)
    have hfirst := hlist ha hleft (iha hleft ((joined_iff a).1 ha).2)
    have hsecond := hlist hb hright (ihb hright ((joined_iff b).1 hb).2)
    rw [List.map_cons, hrest, Node.fuse_bracket, hfirst, hsecond]
  | repeated body n t ihbody ih =>
    obtain ⟨hn, ht⟩ := List.forall_mem_cons.1 h
    have hbody := joined_repeated_iff.1 hn
    have hrest := ih (fun us hus => hfull us (hus.mono (List.subset_cons_self _ _))) ht
    have hcontents (us) (hus : (Node.seq us).Anywhere body) : us ≠ [] :=
      hfull us (.body List.mem_cons_self trivial hus)
    have hsame := hlist hbody hcontents (ihbody hcontents ((joined_iff body).1 hbody).2)
    rw [List.map_cons, hrest, Node.fuse_repeated, hsame]

end Cubing
