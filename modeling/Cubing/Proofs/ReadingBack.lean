import Cubing.Proofs.AnySpelling

set_option autoImplicit false

/-! # Reading canonical text back

The canonical text of a tree is one of its spellings, so it is read as the fused tree, provided that
every group shows something in each of its lists.

Whatever is read is of that kind and fused already, so writing it and reading it again changes
nothing (`Tree.text_reads_back`). -/

namespace Cubing

namespace Tree

/-- **The canonical text of a tree is read as the fused tree.** -/
theorem ofText_text {t : Tree} (h : t.Filled) : ofText t.text = .ok t.fuse := by
  refine ofText_of_spelling h ?_
  rw [text, String.toList_ofList]
  exact t.spelling_listChars

/-- What is read from a text is filled and fused. -/
theorem of_ofText {s : String} {t : Tree} (h : ofText s = .ok t) : t.Filled ∧ t.fuse = t := by
  obtain ⟨tokens, -, hmapped⟩ := bind_eq_ok_iff.1 h
  have htokens := mapError_eq_ok_iff.1 hmapped
  have hwritten := (ofTokens_eq_ok_iff_written.1 htokens).1
  have hfused := ofTokens_of_written hwritten.fuse (joined_fuse t)
  exact ⟨hwritten.filled, Except.ok.inj (hfused.symm.trans htokens)⟩

/-- **Reading undoes writing.** The canonical text of a tree whose groups show something in each of
    their lists is read as the fused tree; trees without empty sequences or neighbouring sequences
    are fused; and whatever is read from any text is fused and read again from its canonical text. -/
theorem text_reads_back :
    (∀ t : Tree, t.Filled → ofText t.text = .ok t.fuse)
    ∧ (∀ t : Tree, t.Joined → (∀ ts, (Node.seq ts).Anywhere t → ts ≠ []) → t.fuse = t)
    ∧ ∀ (s : String) (t : Tree), ofText s = .ok t → t.fuse = t ∧ ofText t.text = .ok t := by
  refine ⟨fun t => ofText_text, fun t => fuse_eq_self, ?_⟩
  intro s t h
  obtain ⟨hfilled, hfused⟩ := of_ofText h
  have hback := ofText_text hfilled
  rw [hfused] at hback
  exact ⟨hfused, hback⟩

/-- Empty sequences and neighbouring sequences go, the largest count stays; what is read stays as it
    is, and so does a single sequence. -/
theorem text_reads_back_largest_count :
    let fused : Tree := [.seq [⟨.face .R, .cw⟩, ⟨.face .U, .ccw⟩],
      .repeated [.bracket .commutator [.seq [⟨.rotation .x, .double⟩]] [.seq [⟨.slice .M, .cw⟩]]]
        4294967295]
    ofText "R U'  ( [x2,  M] )4294967295" = .ok fused
      ∧ fuse [.seq [⟨.face .R, .cw⟩]] = [.seq [⟨.face .R, .cw⟩]]
      ∧ fused.fuse = fused ∧ ofText fused.text = .ok fused := by
  let t : Tree :=
    [.seq [⟨.face .R, .cw⟩], .seq [⟨.face .U, .ccw⟩], .seq [],
      .repeated [.seq [], .bracket .commutator [.seq [⟨.rotation .x, .double⟩]]
          [.seq [], .seq [⟨.slice .M, .cw⟩]], .seq []] 4294967295]
  have hfilled : t.Filled := by decide
  have htext : t.text = "R U'  ( [x2,  M] )4294967295" := by decide +kernel
  have hread := htext ▸ text_reads_back.1 t hfilled
  have hfull : ∀ ts, (Node.seq ts).Anywhere [.seq [⟨.face .R, .cw⟩]] → ts ≠ [] := by
    intro ts h
    rcases h with h | ⟨h, -⟩ | ⟨h, -⟩ | ⟨h, -, -⟩
    · cases List.mem_singleton.1 h
      exact List.cons_ne_nil _ _
    · simp at h
    · simp at h
    · simp at h
  exact ⟨hread, text_reads_back.2.1 _ (by decide) hfull, text_reads_back.2.2 _ _ hread⟩

end Tree

end Cubing
