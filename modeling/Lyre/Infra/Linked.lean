import Mathlib.Data.Fintype.EquivFin
import Mathlib.Data.List.Nodup
import Mathlib.Data.List.Perm.Subperm
import Mathlib.Data.Set.Finite.Basic
import Mathlib.Logic.Function.Basic
import Mathlib.Logic.Relation
import Mathlib.Order.Preorder.Finite
import Mathlib.Order.WellFounded

/-!
# Lists linked through a table

`next` gives the successor of every element. `Path next c l e` says that the walk from `c` passes
the elements `l` and is then at `e`. Where a walk ends is a condition `stop` on `e`; a list that
ends cannot come back to one of its elements (`Path.nodup`), and it is the only one from its first
element (`Path.unique`). A walk through a finite table that does not end leaves the table or comes back
(`walk_cases`). With more than one successor for an element, among finitely many elements only a
cycle has no end (`endless_iff_cycle`).
-/

namespace Infra

variable {α : Type*} {next next' : α → α} {stop : α → Prop} {c d e : α} {l m : List α}

/-- The walk from `c` passes `l` and is then at `e`. -/
def Path (next : α → α) : α → List α → α → Prop
  | c, [], e => c = e
  | c, x :: l, e => c = x ∧ Path next (next x) l e

instance decidablePath [DecidableEq α] (next : α → α) :
    ∀ (c : α) (l : List α) (e : α), Decidable (Path next c l e)
  | c, [], e => inferInstanceAs (Decidable (c = e))
  | c, x :: l, e =>
    have := decidablePath next (next x) l e
    inferInstanceAs (Decidable (c = x ∧ Path next (next x) l e))

@[simp] theorem path_nil : Path next c [] e ↔ c = e := Iff.rfl

@[simp] theorem path_cons {x : α} : Path next c (x :: l) e ↔ c = x ∧ Path next (next x) l e := Iff.rfl

theorem path_append : Path next c (l ++ m) e ↔ ∃ d, Path next c l d ∧ Path next d m e := by
  induction l generalizing c with
  | nil =>
    constructor
    · intro h
      exact ⟨c, rfl, h⟩
    · rintro ⟨d, rfl, h⟩
      exact h
  | cons x l ih =>
    rw [List.cons_append, path_cons, ih]
    constructor
    · rintro ⟨hx, d, hl, hm⟩
      exact ⟨d, ⟨hx, hl⟩, hm⟩
    · rintro ⟨d, ⟨hx, hl⟩, hm⟩
      exact ⟨hx, d, hl, hm⟩

theorem Path.append (hl : Path next c l d) (hm : Path next d m e) : Path next c (l ++ m) e :=
  path_append.mpr ⟨d, hl, hm⟩

/-- Only the successors of the elements that are passed matter. -/
theorem Path.congr (h : Path next c l e) (heq : ∀ x ∈ l, next' x = next x) : Path next' c l e := by
  induction l generalizing c with
  | nil => exact h
  | cons x l ih =>
    refine ⟨h.1, ?_⟩
    rw [heq x List.mem_cons_self]
    exact ih h.2 fun y hy => heq y (List.mem_cons_of_mem x hy)

theorem Path.start_getD (h : Path next c l e) : c = l.getD 0 e := by
  cases l with
  | nil => exact h
  | cons x l => exact h.1

/-- The elements by their number, with the end behind the last one. -/
theorem Path.next_getD (h : Path next c l e) {j : Nat} (hj : j < l.length) :
    next (l.getD j e) = l.getD (j + 1) e := by
  induction l generalizing c j with
  | nil => exact absurd hj (Nat.not_lt_zero j)
  | cons x l ih =>
    cases j with
    | zero => exact h.2.start_getD
    | succ j => exact ih h.2 (Nat.lt_of_succ_lt_succ hj)

theorem Path.next_mem (h : Path next c l e) {x : α} (hx : x ∈ l) : next x ∈ l ∨ next x = e := by
  induction l generalizing c with
  | nil => simp at hx
  | cons y l ih =>
    obtain ⟨rfl, h⟩ := h
    rcases List.mem_cons.mp hx with rfl | hx
    · cases l with
      | nil => exact Or.inr h
      | cons z l =>
        rw [h.1]
        exact Or.inl (List.mem_cons_of_mem _ List.mem_cons_self)
    · exact (ih h hx).imp_left (List.mem_cons_of_mem c)

/-- Two walks from one element that end both, end at the same place by the same way. -/
theorem Path.unique (h : Path next c l e) (he : stop e) (hl : ∀ x ∈ l, ¬ stop x)
    {e' : α} (h' : Path next c m e') (he' : stop e') (hm : ∀ x ∈ m, ¬ stop x) : l = m ∧ e = e' := by
  induction l generalizing c m with
  | nil =>
    obtain rfl : c = e := h
    cases m with
    | nil => exact ⟨rfl, h'⟩
    | cons y m =>
      obtain ⟨rfl, -⟩ := h'
      exact absurd he (hm c List.mem_cons_self)
  | cons x l ih =>
    obtain ⟨rfl, h⟩ := h
    cases m with
    | nil =>
      obtain rfl : c = e' := h'
      exact absurd he' (hl c List.mem_cons_self)
    | cons y m =>
      obtain ⟨rfl, h'⟩ := h'
      obtain ⟨hlm, hee⟩ := ih h (fun x hx => hl x (List.mem_cons_of_mem _ hx)) h'
        fun x hx => hm x (List.mem_cons_of_mem _ hx)
      exact ⟨by rw [hlm], hee⟩

theorem Path.eq_of_length {m : List α} (h : Path next c l e) (h' : Path next c m d)
    (hlen : l.length = m.length) : l = m := by
  induction l generalizing c m with
  | nil => exact (List.length_eq_zero_iff.mp hlen.symm).symm
  | cons x l ih =>
    cases m with
    | nil => cases hlen
    | cons y m =>
      obtain ⟨rfl, h⟩ := h
      obtain ⟨rfl, h'⟩ := h'
      rw [ih h h' (Nat.succ.inj hlen)]

/-- **A list that ends has no cycle.** From an element that is passed twice there would be two ways
to the end. -/
theorem Path.nodup (h : Path next c l e) (he : stop e) (hl : ∀ x ∈ l, ¬ stop x) : l.Nodup := by
  induction l generalizing c with
  | nil => exact List.nodup_nil
  | cons x l ih =>
    obtain ⟨rfl, hp⟩ := h
    have hrest : ∀ x ∈ l, ¬ stop x := fun x hx => hl x (List.mem_cons_of_mem _ hx)
    refine List.nodup_cons.mpr ⟨fun hmem => ?_, ih hp hrest⟩
    obtain ⟨l₁, l₂, rfl⟩ := List.append_of_mem hmem
    obtain ⟨d, -, hd, h₂⟩ := path_append.mp hp
    subst d
    have hlong : Path next c (c :: (l₁ ++ c :: l₂)) e := ⟨rfl, hp⟩
    have hshort : Path next c (c :: l₂) e := ⟨rfl, h₂⟩
    obtain ⟨heq, -⟩ := hlong.unique he hl hshort he fun x hx => by
      refine hl x ?_
      rcases List.mem_cons.mp hx with rfl | hx
      · exact List.mem_cons_self
      · exact List.mem_cons_of_mem _ (List.mem_append_right _ (List.mem_cons_of_mem _ hx))
    have hlen := congrArg List.length heq
    simp only [List.length_cons, List.length_append] at hlen
    omega

/-! ## Walking -/

/-- The elements that are passed up to the end, for at most `fuel` of them. -/
def follow (next : α → α) (stop : α → Prop) [DecidablePred stop] : Nat → α → List α
  | 0, _ => []
  | fuel + 1, c => if stop c then [] else c :: follow next stop fuel (next c)

theorem Path.follow_eq [DecidablePred stop] {fuel : Nat} (h : Path next c l e) (he : stop e)
    (hl : ∀ x ∈ l, ¬ stop x) (hf : l.length < fuel) : follow next stop fuel c = l := by
  induction l generalizing c fuel with
  | nil =>
    obtain rfl : c = e := h
    obtain ⟨fuel, rfl⟩ : ∃ n, fuel = n + 1 := ⟨fuel - 1, by omega⟩
    rw [follow, if_pos he]
  | cons x l ih =>
    obtain ⟨rfl, h⟩ := h
    rw [List.length_cons] at hf
    obtain ⟨fuel, rfl⟩ : ∃ n, fuel = n + 1 := ⟨fuel - 1, by omega⟩
    rw [follow, if_neg (hl c List.mem_cons_self),
      ih h (fun x hx => hl x (List.mem_cons_of_mem _ hx)) (by omega)]

/-! ## Walks through a table of `N` elements -/

section Table

variable {next : Nat → Nat} {stop : Nat → Prop} {N c e : Nat} {l : List Nat}

/-- The walk goes to an element that is not in the table. -/
def Leaves (next : Nat → Nat) (stop : Nat → Prop) (N c : Nat) : Prop :=
  ∃ l e, Path next c l e ∧ (∀ x ∈ l, ¬ stop x ∧ x < N) ∧ ¬ stop e ∧ N ≤ e

/-- The walk comes back to an element of the table. -/
def Cyclic (next : Nat → Nat) (stop : Nat → Prop) (N c : Nat) : Prop :=
  ∃ l e, Path next c l e ∧ (∀ x ∈ l, ¬ stop x ∧ x < N) ∧ l.Nodup ∧ e ∈ l

/-- The walk ends. -/
def Ends (next : Nat → Nat) (stop : Nat → Prop) (N c : Nat) : Prop :=
  ∃ l e, Path next c l e ∧ (∀ x ∈ l, ¬ stop x ∧ x < N) ∧ l.Nodup ∧ stop e

/-- **A walk ends, leaves the table or comes back.** -/
theorem walk_cases (next : Nat → Nat) (stop : Nat → Prop) (N c : Nat) :
    Ends next stop N c ∨ Leaves next stop N c ∨ Cyclic next stop N c := by
  by_contra hno
  obtain ⟨hends, hleaves, hcyclic⟩ : ¬ Ends next stop N c ∧ ¬ Leaves next stop N c ∧
      ¬ Cyclic next stop N c := by
    simpa only [not_or] using hno
  -- it could be as long as one likes, and never pass an element twice
  have hlong : ∀ k, ∃ l e, l.length = k ∧ Path next c l e ∧ (∀ x ∈ l, ¬ stop x ∧ x < N) ∧ l.Nodup := by
    intro k
    induction k with
    | zero => exact ⟨[], c, rfl, rfl, fun _ hx => absurd hx List.not_mem_nil, List.nodup_nil⟩
    | succ k ih =>
      obtain ⟨l, e, rfl, hp, hin, hnd⟩ := ih
      have hstop : ¬ stop e := fun he => hends ⟨l, e, hp, hin, hnd, he⟩
      have hlt : e < N := Nat.lt_of_not_le fun hle => hleaves ⟨l, e, hp, hin, hstop, hle⟩
      have hnew : e ∉ l := fun he => hcyclic ⟨l, e, hp, hin, hnd, he⟩
      refine ⟨l ++ [e], next e, by rw [List.length_append, List.length_singleton],
        hp.append ⟨rfl, rfl⟩, fun x hx => ?_, ?_⟩
      · rcases List.mem_append.mp hx with hx | hx
        · exact hin x hx
        · rw [List.mem_singleton.mp hx]
          exact ⟨hstop, hlt⟩
      · rw [← List.concat_eq_append]
        exact hnd.concat hnew
  obtain ⟨l, -, hlen, -, hin, hnd⟩ := hlong (N + 1)
  have hle := (List.subperm_of_subset hnd fun x hx => List.mem_range.mpr (hin x hx).2).length_le
  rw [List.length_range] at hle
  omega

/-- The walk from the next element ends as well, and the other way round. -/
theorem ends_next (hc : ¬ stop c) (hlt : c < N) : Ends next stop N c ↔ Ends next stop N (next c) := by
  constructor
  · rintro ⟨l, e, hp, hin, hnd, he⟩
    cases l with
    | nil =>
      obtain rfl : c = e := hp
      exact absurd he hc
    | cons x l =>
      obtain ⟨rfl, hp⟩ := hp
      exact ⟨l, e, hp, fun x hx => hin x (List.mem_cons_of_mem _ hx), (List.nodup_cons.mp hnd).2, he⟩
  · rintro ⟨l, e, hp, hin, -, he⟩
    have hin' : ∀ x ∈ c :: l, ¬ stop x ∧ x < N := by
      intro x hx
      rcases List.mem_cons.mp hx with rfl | hx
      · exact ⟨hc, hlt⟩
      · exact hin x hx
    have hp' : Path next c (c :: l) e := ⟨rfl, hp⟩
    exact ⟨c :: l, e, hp', hin', hp'.nodup he fun x hx => (hin' x hx).1, he⟩

/-- Behind every element that is passed, the walk ends exactly if it ends. -/
theorem Path.ends (h : Path next c l e) (hin : ∀ x ∈ l, ¬ stop x ∧ x < N) :
    Ends next stop N c ↔ Ends next stop N e := by
  induction l generalizing c with
  | nil =>
    obtain rfl : c = e := h
    exact Iff.rfl
  | cons x l ih =>
    obtain ⟨rfl, h⟩ := h
    obtain ⟨hstop, hlt⟩ := hin c List.mem_cons_self
    rw [ends_next hstop hlt]
    exact ih h fun x hx => hin x (List.mem_cons_of_mem _ hx)

theorem Path.ends_mem (h : Path next c l e) (hin : ∀ x ∈ l, ¬ stop x ∧ x < N) {x : Nat} (hx : x ∈ l) :
    Ends next stop N c ↔ Ends next stop N x := by
  obtain ⟨l₁, l₂, rfl⟩ := List.append_of_mem hx
  obtain ⟨d, h₁, rfl, -⟩ := path_append.mp h
  exact h₁.ends fun y hy => hin y (List.mem_append_left _ hy)

theorem Path.mem_cycle {m : List Nat} {x d : Nat} (h : Path next c l e) (he : e ∈ l)
    (hm : Path next x m d) (hx : x ∈ l) : d ∈ l := by
  induction m generalizing x with
  | nil =>
    obtain rfl : x = d := hm
    exact hx
  | cons y m ih =>
    obtain ⟨rfl, hm⟩ := hm
    refine ih hm ?_
    rcases h.next_mem hx with hmem | heq
    · exact hmem
    · rwa [heq]

theorem Cyclic.not_ends (h : Cyclic next stop N c) : ¬ Ends next stop N c := by
  obtain ⟨l, e, hp, hin, -, he⟩ := h
  rw [hp.ends hin]
  rintro ⟨m, d, hpm, -, -, hd⟩
  exact (hin d (hp.mem_cycle he hpm he)).1 hd

theorem Leaves.not_ends (h : Leaves next stop N c) : ¬ Ends next stop N c := by
  obtain ⟨l, e, hp, hin, he, hle⟩ := h
  rw [hp.ends hin]
  rintro ⟨m, d, hpm, hinm, -, hd⟩
  cases m with
  | nil =>
    obtain rfl : e = d := hpm
    exact he hd
  | cons x m =>
    obtain ⟨rfl, -⟩ := hpm
    exact absurd (hinm e List.mem_cons_self).2 (Nat.not_lt.mpr hle)

theorem ends_iff : Ends next stop N c ↔ ¬ Leaves next stop N c ∧ ¬ Cyclic next stop N c := by
  constructor
  · exact fun h => ⟨fun hl => hl.not_ends h, fun hc => hc.not_ends h⟩
  · rintro ⟨hleaves, hcyclic⟩
    rcases walk_cases next stop N c with h | h | h
    · exact h
    · exact absurd h hleaves
    · exact absurd h hcyclic

theorem Cyclic.not_leaves (h : Cyclic next stop N c) : ¬ Leaves next stop N c := by
  obtain ⟨l, e, hp, hin, -, he⟩ := h
  rintro ⟨m, d, hpm, -, -, hle⟩
  have hc : c ∈ l := by
    cases l with
    | nil => exact absurd he List.not_mem_nil
    | cons x l =>
      rw [hp.1]
      exact List.mem_cons_self
  exact absurd (hin d (hp.mem_cycle he hpm hc)).2 (Nat.not_lt.mpr hle)

end Table

/-! ## Endless walks -/

section Endless

open Relation

variable {α : Type*} {r : α → α → Prop} {a b : α}

/-- A sequence of steps that begins at `a` and does not end. -/
def Endless (r : α → α → Prop) (a : α) : Prop := ∃ f : Nat → α, f 0 = a ∧ ∀ i, r (f i) (f (i + 1))

theorem endless_iff_not_acc : Endless r a ↔ ¬ Acc (fun x y => r y x) a :=
  (not_acc_iff_exists_descending_chain (r := fun x y => r y x)).symm

theorem Endless.of_step (h : r a b) (hb : Endless r b) : Endless r a := by
  obtain ⟨f, rfl, hf⟩ := hb
  refine ⟨fun i => i.casesOn a f, rfl, fun i => ?_⟩
  cases i with
  | zero => exact h
  | succ i => exact hf i

theorem endless_of_cycle (h : ReflTransGen r a b) (hb : TransGen r b b) : Endless r a := by
  have hcycle : Endless r b := by
    rw [endless_iff_not_acc]
    intro hacc
    have hirrefl : ∀ x, Acc (TransGen fun x y => r y x) x → ¬ TransGen (fun x y => r y x) x x := by
      intro x hx
      induction hx with
      | intro x _ ih => exact fun hxx => ih x hxx hxx
    exact hirrefl b hacc.transGen (transGen_swap.mpr hb)
  induction h using ReflTransGen.head_induction_on with
  | refl => exact hcycle
  | head hstep _ ih => exact .of_step hstep ih

/-- **Among finitely many elements only a cycle has no end.** -/
theorem Endless.cycle {S : Set α} (hfin : S.Finite) (hS : ∀ b c, ReflTransGen r a b → r b c → c ∈ S)
    (h : Endless r a) : ∃ b, ReflTransGen r a b ∧ TransGen r b b := by
  obtain ⟨f, rfl, hf⟩ := h
  have hreach : ∀ i, ReflTransGen r (f 0) (f i) := by
    intro i
    induction i with
    | zero => exact .refl
    | succ i ih => exact ih.tail (hf i)
  have hwalk : ∀ i j, TransGen r (f i) (f (i + j + 1)) := by
    intro i j
    induction j with
    | zero => exact .single (hf i)
    | succ j ih => exact ih.tail (hf _)
  obtain ⟨i, j, hij, heq⟩ := hfin.exists_lt_map_eq_of_forall_mem fun i =>
    hS (f i) (f (i + 1)) (hreach i) (hf i)
  refine ⟨f (i + 1), hreach _, ?_⟩
  have hloop := hwalk (i + 1) (j - i - 1)
  rwa [show i + 1 + (j - i - 1) + 1 = j + 1 by omega, ← heq] at hloop

theorem endless_iff_cycle {S : Set α} (hfin : S.Finite)
    (hS : ∀ b c, ReflTransGen r a b → r b c → c ∈ S) :
    Endless r a ↔ ∃ b, ReflTransGen r a b ∧ TransGen r b b :=
  ⟨fun h => h.cycle hfin hS, fun ⟨_, hb, hbb⟩ => endless_of_cycle hb hbb⟩

end Endless

end Infra
