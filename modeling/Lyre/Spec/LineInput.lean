import Mathlib.Tactic.Common

/-!
# Lines of input

A terminal gives lines to its readers. A line is what has been typed since the last newline, with
the newline at its end; an erase character takes back the one before it, as long as there is one in
the line.
-/

namespace LineInput

variable {α : Type*} [DecidableEq α]

/-- The two characters that are not just stored. -/
structure Keys (α : Type*) where
  newline : α
  erase : α

/-- The lines that are complete, and the one that is being typed. -/
structure Input (α : Type*) where
  lines : List (List α) := []
  pending : List α := []

def Input.type (K : Keys α) (s : Input α) (c : α) : Input α :=
  if c = K.newline then ⟨s.lines ++ [s.pending ++ [c]], []⟩
  else if c = K.erase then ⟨s.lines, s.pending.dropLast⟩
  else ⟨s.lines, s.pending ++ [c]⟩

/-- What has been typed. -/
def typed (K : Keys α) (cs : List α) : Input α := cs.foldl (Input.type K) {}

theorem typed_concat (K : Keys α) (cs : List α) (c : α) :
    typed K (cs ++ [c]) = (typed K cs).type K c := by
  unfold typed
  rw [List.foldl_append, List.foldl_cons, List.foldl_nil]

end LineInput
