import Mathlib.Data.Finset.Basic

/-!
# Control flow with locks

A function is given by its points. At each point it takes a lock, gives one back, goes on by what it
looks at, or returns. What it looks at is shared with others, so a run is the list of what is seen,
one view for each step.

A function may be at fault in some views only. `Discipline` says, point by point, what is held in
the runs that avoid those views (`right`), and after a step that does not (`wrong`). `clean_iff` is
the rule that follows: the runs without misuse are those that avoid the views at fault.
-/

namespace Infra.LockFlow

variable {L V P : Type*}

inductive Instr (L V P : Type*) where
  | acquire (l : L) (next : P)
  | release (l : L) (next : P)
  | look (next : V → P)
  | ret

/-- Where a function is, and the locks that it holds. -/
structure Thread (L P : Type*) where
  point : P
  held : Finset L

variable [DecidableEq L] {code : P → Instr L V P} {t : Thread L P} {v : V} {vs : List V}

/-- Who takes a lock that he holds waits for himself, and stays where he is. -/
def next (code : P → Instr L V P) (t : Thread L P) (v : V) : Thread L P :=
  match code t.point with
  | .acquire l p => if l ∈ t.held then t else ⟨p, insert l t.held⟩
  | .release l p => ⟨p, t.held.erase l⟩
  | .look p => ⟨p v, t.held⟩
  | .ret => t

/-- A lock is about to be taken twice, given back without being held, or kept. -/
def Misuse (code : P → Instr L V P) (t : Thread L P) : Prop :=
  match code t.point with
  | .acquire l _ => l ∈ t.held
  | .release l _ => l ∉ t.held
  | .look _ => False
  | .ret => t.held ≠ ∅

instance (code : P → Instr L V P) (t : Thread L P) : Decidable (Misuse code t) :=
  match h : code t.point with
  | .acquire l _ => decidable_of_iff (l ∈ t.held) (by rw [Misuse, h])
  | .release l _ => decidable_of_iff (l ∉ t.held) (by rw [Misuse, h])
  | .look _ => isFalse (by rw [Misuse, h]; exact not_false)
  | .ret => decidable_of_iff (t.held ≠ ∅) (by rw [Misuse, h])

/-- No step is left: the function has returned, or it waits for itself. -/
def Ended (code : P → Instr L V P) (t : Thread L P) : Prop :=
  match code t.point with
  | .acquire l _ => l ∈ t.held
  | .ret => True
  | _ => False

/-- No state of the run misuses a lock. -/
def Clean (code : P → Instr L V P) : Thread L P → List V → Prop
  | t, [] => ¬ Misuse code t
  | t, v :: vs => ¬ Misuse code t ∧ Clean code (next code t v) vs

instance decidableClean (code : P → Instr L V P) :
    ∀ (t : Thread L P) (vs : List V), Decidable (Clean code t vs)
  | t, [] => inferInstanceAs (Decidable (¬ Misuse code t))
  | t, v :: vs =>
    have := decidableClean code (next code t v) vs
    inferInstanceAs (Decidable (¬ Misuse code t ∧ Clean code (next code t v) vs))

/-- Each step of the run meets a condition on its point and on what is seen there. -/
def Meets (code : P → Instr L V P) (meets : P → V → Prop) : Thread L P → List V → Prop
  | _, [] => True
  | t, v :: vs => meets t.point v ∧ Meets code meets (next code t v) vs

/-- What is held at each point, with and without a step that does not meet the condition. -/
structure Discipline (code : P → Instr L V P) (meets : P → V → Prop) where
  right : P → Finset L → Prop
  wrong : P → Finset L → Prop
  not_misuse : ∀ p H, right p H → ¬ Misuse code ⟨p, H⟩
  right_next : ∀ p H v, right p H → meets p v →
    right (next code ⟨p, H⟩ v).point (next code ⟨p, H⟩ v).held
  slip : ∀ p H v, right p H → ¬ meets p v →
    wrong (next code ⟨p, H⟩ v).point (next code ⟨p, H⟩ v).held
  wrong_next : ∀ p H v, wrong p H → Misuse code ⟨p, H⟩ ∨
    wrong (next code ⟨p, H⟩ v).point (next code ⟨p, H⟩ v).held
  wrong_end : ∀ p H, wrong p H → Ended code ⟨p, H⟩ → Misuse code ⟨p, H⟩

namespace Discipline

variable {meets : P → V → Prop}

theorem clean_of_meets (d : Discipline code meets) (h : d.right t.point t.held)
    (hm : Meets code meets t vs) : Clean code t vs := by
  induction vs generalizing t with
  | nil => exact d.not_misuse _ _ h
  | cons v vs ih => exact ⟨d.not_misuse _ _ h, ih (d.right_next _ _ v h hm.1) hm.2⟩

theorem not_clean_of_wrong (d : Discipline code meets) (h : d.wrong t.point t.held)
    (hend : Ended code (vs.foldl (next code) t)) : ¬ Clean code t vs := by
  induction vs generalizing t with
  | nil => exact not_not_intro (d.wrong_end _ _ h hend)
  | cons v vs ih =>
    rintro ⟨hno, hclean⟩
    obtain hmis | hwrong := d.wrong_next _ _ v h
    · exact hno hmis
    · exact ih hwrong hend hclean

theorem meets_of_clean (d : Discipline code meets) (h : d.right t.point t.held)
    (hend : Ended code (vs.foldl (next code) t)) (hclean : Clean code t vs) :
    Meets code meets t vs := by
  induction vs generalizing t with
  | nil => trivial
  | cons v vs ih =>
    by_cases hm : meets t.point v
    · exact ⟨hm, ih (d.right_next _ _ v h hm) hend hclean.2⟩
    · exact absurd hclean.2 (d.not_clean_of_wrong (d.slip _ _ v h hm) hend)

/-- **The rule.** -/
theorem clean_iff (d : Discipline code meets) (h : d.right t.point t.held) :
    (Meets code meets t vs → Clean code t vs) ∧
      (Ended code (vs.foldl (next code) t) → Clean code t vs → Meets code meets t vs) :=
  ⟨d.clean_of_meets h, d.meets_of_clean h⟩

end Discipline

end Infra.LockFlow
