import Cubing.Text.Quoted
import Cubing.Turn

set_option autoImplicit false

/-! # A single turn from its text

A turn by itself is read from its own spelling and from nothing else: no blanks, no other way to write
a half turn. What is read as no turn is shown in the message as it is, with everything in it visible. -/

namespace Cubing

/-- A text that is no turn. -/
structure InvalidTurn where
  text : String
  deriving DecidableEq

def InvalidTurn.message (e : InvalidTurn) : String := s!"invalid turn: {Text.quoted e.text}"

namespace Turn

def ofText (s : String) : Except InvalidTurn Turn :=
  match ofText? s with
  | some t => .ok t
  | none => .error ⟨s⟩

variable {s : String} {t : Turn} {e : InvalidTurn}

theorem ofText?_eq_some_iff : ofText? s = some t ↔ t.text = s := by
  rw [ofText?, ofChars?_eq_some_iff, text, ← String.toList_inj, String.toList_ofList]

/-- **A text is read as the turn that it spells.** -/
theorem ofText_eq_ok_iff : ofText s = .ok t ↔ t.text = s := by
  rw [← ofText?_eq_some_iff, ofText]
  cases ofText? s <;> simp

/-- **A text that spells no turn is refused**, and the error holds the text. -/
theorem ofText_eq_error_iff : ofText s = .error e ↔ e.text = s ∧ ∀ t : Turn, t.text ≠ s := by
  have hnone : ofText? s = none ↔ ∀ t : Turn, t.text ≠ s := by
    rw [Option.eq_none_iff_forall_ne_some]
    exact forall_congr' fun t => not_congr ofText?_eq_some_iff
  obtain ⟨shown⟩ := e
  rw [← hnone, ofText]
  cases ofText? s <;> simp [eq_comm]

end Turn

/-- The message about a text that is no turn has no character that does not print. -/
theorem InvalidTurn.isPrintable_of_mem_message {e : InvalidTurn} {c : Char}
    (h : c ∈ e.message.toList) : Text.isPrintable c := by
  have hstart : "invalid turn: ".toList.all Text.isAscii = true := by decide
  have hsplit : e.message.toList = "invalid turn: ".toList ++ (Text.quoted e.text).toList :=
    String.toList_append
  rcases List.mem_append.1 (hsplit ▸ h) with h | h
  · exact Text.isPrintable_of_isAscii (List.all_eq_true.1 hstart c h)
  · exact Text.isPrintable_of_mem_quoted h

end Cubing
