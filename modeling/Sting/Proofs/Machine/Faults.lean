import Mathlib.Tactic.Common
import Sting.Proofs.Machine.Steps

/-!
# Faults of the console

A run on a console whose reading or writing breaks down is compared with the run on a console that
never fails. Up to the call that fails they take the same steps; there the run ends.
-/

namespace Sting

namespace Console

/-- No call will fail. -/
structure Intact (c : Console) : Prop where
  reading : c.reading = none
  writing : c.writing = none

/-- The console after a text was written. -/
def wrote (c : Console) (text : String) : Console :=
  { c with transcript := .wrote text :: c.transcript }

/-- The console after a line was read. -/
def typed (c : Console) : Console :=
  { c with input := c.input.tail, transcript := .typed c.input.head? :: c.transcript }

/-- Writing on an intact console leaves it intact. -/
theorem Intact.wrote {c : Console} (h : c.Intact) (text : String) : (c.wrote text).Intact :=
  ⟨h.reading, h.writing⟩

/-- Reading a line from an intact console leaves it intact. -/
theorem Intact.typed {c : Console} (h : c.Intact) : c.typed.Intact :=
  ⟨h.reading, h.writing⟩

/-- Writing on an intact console succeeds. -/
theorem Intact.write_eq {c : Console} (h : c.Intact) (text : String) :
    c.write text = .ok (c.wrote text) := by
  obtain ⟨input, transcript, reading, writing⟩ := c
  obtain ⟨rfl, rfl⟩ := h
  rfl

/-- Reading from it succeeds too, also when no line is left. -/
theorem Intact.readLine_eq {c : Console} (h : c.Intact) :
    c.readLine = .ok (c.input.head?, c.typed) := by
  obtain ⟨input, transcript, reading, writing⟩ := c
  obtain ⟨rfl, rfl⟩ := h
  rfl

end Console

namespace Machine

open Console

/-- The console of a run. -/
def console (m : Machine) : Console :=
  m.session.console

end Machine

end Sting
