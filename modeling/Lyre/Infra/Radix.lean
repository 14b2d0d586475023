import Mathlib.Data.List.Induction
import Mathlib.Tactic.Common

/-!
# Radix trees laid out in a memory of tables

A memory is a function from table addresses to rows of words. A word may lead to a further
table (`next`); a path of indices is followed from a root by `walk`. Several roots may live in
one memory and may share the subtrees below some of their top entries.

`Forest` is the invariant: two positions hold the same table only when they are the same
position, up to that sharing. Under it

* writing into tables that are in no tree changes no tree (`Forest.frame`);
* writing an entry of a bottom table changes that entry and nothing else (`Forest.setLeaf`);
* hanging a fresh empty table below a missing entry changes no entry at all (`Forest.grow`);
* a fresh table becomes a further root (`Forest.addRoot`), and a single root with nothing below
  its entries is a forest to start from (`Forest.shallow`).
-/

namespace Infra.Radix

variable {A I W : Type*}

/-- A memory: the word at an index of a table. -/
abbrev Mem (A I W : Type*) := A → I → W

section Walk

variable (next : W → Option A) (m : Mem A I W)

/-- The table reached from `t` along a path. -/
def walk : A → List I → Option A
  | t, [] => some t
  | t, i :: p =>
    match next (m t i) with
    | none => none
    | some u => walk u p

@[simp] theorem walk_nil (t : A) : walk next m t [] = some t := rfl

theorem walk_cons (t : A) (i : I) (p : List I) :
    walk next m t (i :: p) = (next (m t i)).bind fun u => walk next m u p := by
  rw [walk]
  cases next (m t i) <;> rfl

theorem walk_append (t : A) (p q : List I) :
    walk next m t (p ++ q) = (walk next m t p).bind fun u => walk next m u q := by
  induction p generalizing t with
  | nil => rfl
  | cons i p ih =>
    rw [List.cons_append, walk_cons, walk_cons, Option.bind_assoc]
    congr 1
    funext u
    exact ih u

theorem walk_concat (t : A) (p : List I) (i : I) :
    walk next m t (p ++ [i]) = (walk next m t p).bind fun u => next (m u i) := by
  rw [walk_append]
  congr 1
  funext u
  rw [walk_cons]
  cases next (m u i) <;> rfl

/-- The word at index `i` of the table at the end of a path, `zero` when the path breaks off. -/
def leaf (zero : W) (r : A) (p : List I) (i : I) : W :=
  match walk next m r p with
  | none => zero
  | some t => m t i

end Walk

/-- Writes one word. -/
def setEntry [DecidableEq A] [DecidableEq I] (m : Mem A I W) (t : A) (i : I) (w : W) :
    Mem A I W :=
  fun t' i' => if t' = t ∧ i' = i then w else m t' i'

/-- Two positions that hold the same table: the same path, from the same root or through a
shared top entry. -/
def SamePos (shared : I → Prop) (r : A) (p : List I) (r' : A) (p' : List I) : Prop :=
  p = p' ∧ (r = r' ∨ ∃ i, p.head? = some i ∧ shared i)

namespace SamePos

variable {shared : I → Prop} {r r' : A} {p p' : List I} {i : I}

theorem refl (r : A) (p : List I) : SamePos shared r p r p := ⟨rfl, Or.inl rfl⟩

theorem symm (h : SamePos shared r p r' p') : SamePos shared r' p' r p := by
  obtain ⟨rfl, h⟩ := h
  exact ⟨rfl, h.imp Eq.symm id⟩

theorem trans {r'' : A} {p'' : List I} (h : SamePos shared r p r' p')
    (h' : SamePos shared r' p' r'' p'') : SamePos shared r p r'' p'' := by
  obtain ⟨rfl, h⟩ := h
  obtain ⟨rfl, h'⟩ := h'
  refine ⟨rfl, ?_⟩
  rcases h with rfl | h
  · exact h'
  · exact Or.inr h

theorem concat (h : SamePos shared r p r' p') : SamePos shared r (p ++ [i]) r' (p' ++ [i]) := by
  obtain ⟨rfl, h⟩ := h
  refine ⟨rfl, h.imp id ?_⟩
  rintro ⟨j, hj, hs⟩
  exact ⟨j, by cases p <;> simp_all, hs⟩

/-- Positions that agree after one more index agreed before it, unless that index is itself a
shared top entry. -/
theorem of_concat {j : I} (h : SamePos shared r (p ++ [i]) r' (p' ++ [j])) :
    i = j ∧ (SamePos shared r p r' p' ∨ (p = [] ∧ p' = [] ∧ shared i)) := by
  obtain ⟨hp, h⟩ := h
  obtain ⟨rfl, hij⟩ := List.append_inj' hp rfl
  have hij : i = j := by simpa using hij
  refine ⟨hij, ?_⟩
  rcases h with h | ⟨k, hk, hs⟩
  · exact Or.inl ⟨rfl, Or.inl h⟩
  · cases p with
    | nil => exact Or.inr ⟨rfl, rfl, by simp at hk; exact hk ▸ hs⟩
    | cons x p => exact Or.inl ⟨rfl, Or.inr ⟨k, by simpa using hk, hs⟩⟩

theorem length_eq (h : SamePos shared r p r' p') : p.length = p'.length := by rw [h.1]

end SamePos

/-! ## Forests -/

/--
The trees below `roots`, whose bottom tables sit `depth` steps below the root.

* `sep` — a table has one position;
* `top_eq` — shared top entries are the same word in every root;
* `top_some` — and lead somewhere, so that no root ever needs one of its own.
-/
structure Forest (next : W → Option A) (depth : Nat) (roots : A → Prop) (shared : I → Prop)
    (m : Mem A I W) : Prop where
  sep : ∀ {r r' : A} {p p' : List I} {t : A}, roots r → roots r' → p.length ≤ depth →
    p'.length ≤ depth → walk next m r p = some t → walk next m r' p' = some t →
    SamePos shared r p r' p'
  top_eq : ∀ {r r' : A} {i : I}, roots r → roots r' → shared i → m r i = m r' i
  top_some : ∀ {r : A} {i : I}, roots r → shared i → next (m r i) ≠ none

/-- `t` is a table of one of the trees. -/
def IsTable (next : W → Option A) (depth : Nat) (roots : A → Prop) (m : Mem A I W) (t : A) : Prop :=
  ∃ r p, roots r ∧ p.length ≤ depth ∧ walk next m r p = some t

section

variable {next : W → Option A} {depth : Nat} {roots : A → Prop} {shared : I → Prop}
variable {m m' : Mem A I W} {zero w : W} {r r' t u : A} {p p' : List I} {i j : I}

theorem IsTable.root (hr : roots r) : IsTable next depth roots m r :=
  ⟨r, [], hr, Nat.zero_le _, rfl⟩

theorem walk_congr (hm : ∀ t, IsTable next depth roots m t → ∀ i, m' t i = m t i)
    (hr : roots r) (hp : p.length ≤ depth) : walk next m' r p = walk next m r p := by
  induction p using List.reverseRecOn with
  | nil => rfl
  | append_singleton p i ih =>
    have hp' : p.length ≤ depth := by rw [List.length_append] at hp; omega
    rw [walk_concat, walk_concat, ih hp']
    cases hw : walk next m r p with
    | none => rfl
    | some t => simp only [Option.bind_some, hm t ⟨r, p, hr, hp', hw⟩ i]

theorem leaf_congr (hm : ∀ t, IsTable next depth roots m t → ∀ i, m' t i = m t i)
    (hr : roots r) (hp : p.length ≤ depth) :
    leaf next m' zero r p i = leaf next m zero r p i := by
  unfold leaf
  rw [walk_congr hm hr hp]
  cases hw : walk next m r p with
  | none => rfl
  | some t => exact hm t ⟨r, p, hr, hp, hw⟩ i

theorem isTable_congr (hm : ∀ t, IsTable next depth roots m t → ∀ i, m' t i = m t i) :
    IsTable next depth roots m' t ↔ IsTable next depth roots m t := by
  constructor
  · rintro ⟨r, p, hr, hp, hw⟩
    exact ⟨r, p, hr, hp, by rw [← walk_congr hm hr hp]; exact hw⟩
  · rintro ⟨r, p, hr, hp, hw⟩
    exact ⟨r, p, hr, hp, by rw [walk_congr hm hr hp]; exact hw⟩

theorem IsTable.mono {roots' : A → Prop} (hr : ∀ r, roots' r → roots r)
    (h : IsTable next depth roots' m t) : IsTable next depth roots m t := by
  obtain ⟨r, p, hr', hp, hw⟩ := h
  exact ⟨r, p, hr r hr', hp, hw⟩

namespace Forest

theorem frame (h : Forest next depth roots shared m)
    (hm : ∀ t, IsTable next depth roots m t → ∀ i, m' t i = m t i) :
    Forest next depth roots shared m' where
  sep hr hr' hp hp' hw hw' :=
    h.sep hr hr' hp hp' (by rw [← walk_congr hm hr hp]; exact hw)
      (by rw [← walk_congr hm hr' hp']; exact hw')
  top_eq hr hr' hs := by
    rw [hm _ (IsTable.root hr), hm _ (IsTable.root hr')]
    exact h.top_eq hr hr' hs
  top_some hr hs := by
    rw [hm _ (IsTable.root hr)]
    exact h.top_some hr hs

theorem mono {roots' : A → Prop} (h : Forest next depth roots shared m)
    (hr : ∀ r, roots' r → roots r) : Forest next depth roots' shared m where
  sep ha hb := h.sep (hr _ ha) (hr _ hb)
  top_eq ha hb := h.top_eq (hr _ ha) (hr _ hb)
  top_some ha := h.top_some (hr _ ha)

theorem walk_samePos (h : Forest next depth roots shared m) (hr : roots r) (hr' : roots r')
    (hs : SamePos shared r p r' p') : walk next m r p = walk next m r' p' := by
  obtain ⟨rfl, rfl | ⟨i, hi, hsh⟩⟩ := hs
  · rfl
  · cases p with
    | nil => simp at hi
    | cons x p =>
      have hx : x = i := by simpa using hi
      rw [walk_cons, walk_cons, hx, h.top_eq hr hr' hsh]

section Leaf

variable [DecidableEq A] [DecidableEq I]

theorem walk_setLeaf (h : Forest next depth roots shared m) (hr : roots r)
    (hp : p.length = depth) (ht : walk next m r p = some t) (hr' : roots r')
    (hp' : p'.length ≤ depth) :
    walk next (setEntry m t i w) r' p' = walk next m r' p' := by
  induction p' using List.reverseRecOn with
  | nil => rfl
  | append_singleton p' j ih =>
    rw [List.length_append, List.length_singleton] at hp'
    rw [walk_concat, walk_concat, ih (by omega)]
    cases hw : walk next m r' p' with
    | none => rfl
    | some v =>
      have hvt : v ≠ t := by
        intro hv
        have := (h.sep hr' hr (by omega) (by omega) hw (hv ▸ ht)).length_eq
        omega
      simp [setEntry, hvt]

theorem setLeaf (h : Forest next depth roots shared m) (hd : 0 < depth) (hr : roots r)
    (hp : p.length = depth) (ht : walk next m r p = some t) :
    Forest next depth roots shared (setEntry m t i w) := by
  have hroot : ∀ {r'}, roots r' → r' ≠ t := by
    intro r' hr' he
    have := (h.sep (p := []) hr' hr (Nat.zero_le _) (by omega) rfl (he ▸ ht)).length_eq
    simp at this
    omega
  refine ⟨?_, ?_, ?_⟩
  · intro a b q q' v ha hb hq hq' hw hw'
    rw [h.walk_setLeaf hr hp ht ha hq] at hw
    rw [h.walk_setLeaf hr hp ht hb hq'] at hw'
    exact h.sep ha hb hq hq' hw hw'
  · intro a b k ha hb hk
    simp only [setEntry, hroot ha, hroot hb, false_and, if_false]
    exact h.top_eq ha hb hk
  · intro a k ha hk
    simp only [setEntry, hroot ha, false_and, if_false]
    exact h.top_some ha hk

theorem isTable_setLeaf (h : Forest next depth roots shared m) (hr : roots r)
    (hp : p.length = depth) (ht : walk next m r p = some t) :
    IsTable next depth roots (setEntry m t i w) u ↔ IsTable next depth roots m u := by
  constructor
  · rintro ⟨a, q, ha, hq, hw⟩
    exact ⟨a, q, ha, hq, by rw [← h.walk_setLeaf hr hp ht ha hq]; exact hw⟩
  · rintro ⟨a, q, ha, hq, hw⟩
    exact ⟨a, q, ha, hq, by rw [h.walk_setLeaf hr hp ht ha hq]; exact hw⟩

/-- **A write into a bottom table changes one entry, seen from every root that shares it.** -/
theorem leaf_setLeaf_same (h : Forest next depth roots shared m) (hr : roots r)
    (hp : p.length = depth) (ht : walk next m r p = some t) (hr' : roots r')
    (hs : SamePos shared r p r' p') :
    leaf next (setEntry m t i w) zero r' p' i = w := by
  have hp' : p'.length ≤ depth := by rw [← hs.length_eq]; omega
  unfold leaf
  rw [h.walk_setLeaf hr hp ht hr' hp', ← h.walk_samePos hr hr' hs, ht]
  simp [setEntry]

theorem leaf_setLeaf_other (h : Forest next depth roots shared m) (hr : roots r)
    (hp : p.length = depth) (ht : walk next m r p = some t) (hr' : roots r')
    (hp' : p'.length ≤ depth) (hs : ¬ (SamePos shared r p r' p' ∧ j = i)) :
    leaf next (setEntry m t i w) zero r' p' j = leaf next m zero r' p' j := by
  unfold leaf
  rw [h.walk_setLeaf hr hp ht hr' hp']
  cases hw : walk next m r' p' with
  | none => rfl
  | some v =>
    have : ¬ (v = t ∧ j = i) := by
      rintro ⟨rfl, hj⟩
      exact hs ⟨h.sep hr hr' (by omega) hp' ht hw, hj⟩
    simp [setEntry, this]

end Leaf

/-! ### Growing a tree -/

/--
`u` is a fresh empty table that the word `w` leads to, and the entry `i` of the table `t` at
position `(r, p)` is missing.
-/
structure GrowAt (next : W → Option A) (depth : Nat) (roots : A → Prop) (m : Mem A I W)
    (r : A) (p : List I) (t : A) (i : I) (u : A) (w : W) : Prop where
  root : roots r
  above : p.length < depth
  table : walk next m r p = some t
  missing : next (m t i) = none
  leads : next w = some u
  fresh : ¬ IsTable next depth roots m u
  empty : ∀ j, next (m u j) = none

theorem GrowAt.ne (g : GrowAt next depth roots m r p t i u w) : u ≠ t := by
  intro h
  exact g.fresh ⟨r, p, g.root, Nat.le_of_lt g.above, h ▸ g.table⟩

theorem GrowAt.broken (g : GrowAt next depth roots m r p t i u w) :
    walk next m r (p ++ [i]) = none := by
  rw [walk_concat, g.table]
  exact g.missing

theorem GrowAt.not_shared (h : Forest next depth roots shared m)
    (g : GrowAt next depth roots m r p t i u w) : ¬ (p = [] ∧ shared i) := by
  rintro ⟨rfl, hs⟩
  have ht : r = t := by simpa using g.table
  exact h.top_some g.root hs (ht ▸ g.missing)

section Grow

variable [DecidableEq A] [DecidableEq I]

/-- The new table is found at its position, and every other walk ends where it did. -/
theorem walk_grow (h : Forest next depth roots shared m)
    (g : GrowAt next depth roots m r p t i u w) (hr' : roots r') (hp' : p'.length ≤ depth) :
    (SamePos shared r (p ++ [i]) r' p' → walk next (setEntry m t i w) r' p' = some u) ∧
    (¬ SamePos shared r (p ++ [i]) r' p' →
      walk next (setEntry m t i w) r' p' = walk next m r' p') := by
  induction p' using List.reverseRecOn with
  | nil => exact ⟨fun hs => by have := hs.1; simp at this, fun _ => rfl⟩
  | append_singleton q j ih =>
    rw [List.length_append, List.length_singleton] at hp'
    obtain ⟨ih₁, ih₂⟩ := ih (by omega)
    rw [walk_concat, walk_concat]
    by_cases hq : SamePos shared r (p ++ [i]) r' q
    · -- below the new table, which is empty
      have hold : walk next m r' q = none := by
        rw [← h.walk_samePos g.root hr' hq]
        exact g.broken
      have hnew : next (setEntry m t i w u j) = none := by
        simp only [setEntry, g.ne, false_and, if_false]
        exact g.empty j
      rw [ih₁ hq, hold]
      refine ⟨fun hs => ?_, fun _ => by simpa using hnew⟩
      have h1 := hq.length_eq
      have h2 := hs.length_eq
      simp at h1 h2
      omega
    · rw [ih₂ hq]
      -- the walk to `q` is unchanged; does its last step read the new entry?
      cases hw : walk next m r' q with
      | none =>
        refine ⟨fun hs => ?_, fun _ => rfl⟩
        obtain ⟨-, hpq | ⟨rfl, rfl, -⟩⟩ := hs.of_concat
        · rw [← h.walk_samePos g.root hr' hpq, g.table] at hw
          simp at hw
        · simp at hw
      | some v =>
        constructor
        · intro hs
          obtain ⟨rfl, hpq | ⟨hpn, -, hsh⟩⟩ := hs.of_concat
          · have hv : v = t := by
              rw [← h.walk_samePos g.root hr' hpq, g.table] at hw
              exact (Option.some.inj hw).symm
            simp [setEntry, hv, g.leads]
          · exact absurd ⟨hpn, hsh⟩ (g.not_shared h)
        · intro hs
          have : ¬ (v = t ∧ j = i) := by
            rintro ⟨rfl, rfl⟩
            exact hs (h.sep g.root hr' (Nat.le_of_lt g.above) (by omega) g.table hw).concat
          simp [setEntry, this]

theorem isTable_grow (h : Forest next depth roots shared m)
    (g : GrowAt next depth roots m r p t i u w) {v : A} :
    IsTable next depth roots (setEntry m t i w) v ↔ IsTable next depth roots m v ∨ v = u := by
  constructor
  · rintro ⟨a, q, ha, hq, hw⟩
    by_cases hs : SamePos shared r (p ++ [i]) a q
    · rw [(h.walk_grow g ha hq).1 hs] at hw
      exact Or.inr (Option.some.inj hw).symm
    · rw [(h.walk_grow g ha hq).2 hs] at hw
      exact Or.inl ⟨a, q, ha, hq, hw⟩
  · rintro (⟨a, q, ha, hq, hw⟩ | rfl)
    · refine ⟨a, q, ha, hq, ?_⟩
      rw [(h.walk_grow g ha hq).2 ?_]
      · exact hw
      · intro hs
        rw [← h.walk_samePos g.root ha hs, g.broken] at hw
        simp at hw
    · have hlen : (p ++ [i]).length ≤ depth := by
        have := g.above
        rw [List.length_append, List.length_singleton]
        omega
      exact ⟨r, p ++ [i], g.root, hlen, (h.walk_grow g g.root hlen).1 (.refl _ _)⟩

/-- The forest after a fresh empty table is hung below a missing entry. -/
theorem grow (h : Forest next depth roots shared m)
    (g : GrowAt next depth roots m r p t i u w) :
    Forest next depth roots shared (setEntry m t i w) := by
  -- the entry written is not a shared top entry
  have htop : ∀ {a k}, roots a → shared k → setEntry m t i w a k = m a k := by
    intro a k ha hk
    have : ¬ (a = t ∧ k = i) := by
      rintro ⟨rfl, rfl⟩
      exact h.top_some ha hk g.missing
    simp [setEntry, this]
  refine ⟨?_, ?_, ?_⟩
  · intro a b q q' v ha hb hq hq' hw hw'
    by_cases hs : SamePos shared r (p ++ [i]) a q <;>
      by_cases hs' : SamePos shared r (p ++ [i]) b q'
    · exact hs.symm.trans hs'
    · rw [(h.walk_grow g ha hq).1 hs] at hw
      rw [(h.walk_grow g hb hq').2 hs', ← Option.some.inj hw] at hw'
      exact absurd ⟨b, q', hb, hq', hw'⟩ g.fresh
    · rw [(h.walk_grow g hb hq').1 hs'] at hw'
      rw [(h.walk_grow g ha hq).2 hs, ← Option.some.inj hw'] at hw
      exact absurd ⟨a, q, ha, hq, hw⟩ g.fresh
    · rw [(h.walk_grow g ha hq).2 hs] at hw
      rw [(h.walk_grow g hb hq').2 hs'] at hw'
      exact h.sep ha hb hq hq' hw hw'
  · intro a b k ha hb hk
    rw [htop ha hk, htop hb hk]
    exact h.top_eq ha hb hk
  · intro a k ha hk
    rw [htop ha hk]
    exact h.top_some ha hk

/-- **Growing a tree changes no entry of a bottom table.** -/
theorem leaf_grow (h : Forest next depth roots shared m)
    (g : GrowAt next depth roots m r p t i u w) (hzero : ∀ j, m u j = zero) (hr' : roots r')
    (hp' : p'.length = depth) :
    leaf next (setEntry m t i w) zero r' p' j = leaf next m zero r' p' j := by
  unfold leaf
  by_cases hs : SamePos shared r (p ++ [i]) r' p'
  · rw [(h.walk_grow g hr' (by omega)).1 hs, ← h.walk_samePos g.root hr' hs, g.broken]
    simp only [setEntry, g.ne, false_and, if_false]
    exact hzero j
  · rw [(h.walk_grow g hr' (by omega)).2 hs]
    cases hw : walk next m r' p' with
    | none => rfl
    | some v =>
      have hvt : v ≠ t := by
        intro hv
        have := (h.sep hr' g.root (by omega) (Nat.le_of_lt g.above) hw (hv ▸ g.table)).length_eq
        have := g.above
        omega
      simp [setEntry, hvt]

end Grow

/-! ### A further root -/

/-- A fresh table whose shared entries are those of the roots and whose other entries lead
nowhere. -/
structure NewRoot (next : W → Option A) (depth : Nat) (roots : A → Prop) (shared : I → Prop)
    (m : Mem A I W) (k r₀ : A) : Prop where
  root : roots k
  fresh : ¬ IsTable next depth roots m r₀
  copied : ∀ i, shared i → m r₀ i = m k i
  empty : ∀ i, ¬ shared i → next (m r₀ i) = none

/-- What lies below the new root lies below an old one at the same position. -/
theorem NewRoot.walk {k r₀ : A} (n : NewRoot next depth roots shared m k r₀)
    (h : walk next m r₀ p = some t) :
    (p = [] ∧ t = r₀) ∨ (SamePos shared r₀ p k p ∧ walk next m k p = some t) := by
  cases p with
  | nil => exact Or.inl ⟨rfl, by simpa using h.symm⟩
  | cons i p =>
    rw [walk_cons] at h
    by_cases hs : shared i
    · refine Or.inr ⟨⟨rfl, Or.inr ⟨i, rfl, hs⟩⟩, ?_⟩
      rw [walk_cons, ← n.copied i hs]
      exact h
    · rw [n.empty i hs] at h
      simp at h

theorem NewRoot.isTable {k r₀ : A} (n : NewRoot next depth roots shared m k r₀) :
    IsTable next depth (fun x => roots x ∨ x = r₀) m t ↔
      IsTable next depth roots m t ∨ t = r₀ := by
  constructor
  · rintro ⟨a, q, ha | rfl, hq, hw⟩
    · exact Or.inl ⟨a, q, ha, hq, hw⟩
    · rcases n.walk hw with ⟨_, ht⟩ | ⟨_, hw⟩
      · exact Or.inr ht
      · exact Or.inl ⟨k, q, n.root, hq, hw⟩
  · rintro (⟨a, q, ha, hq, hw⟩ | rfl)
    · exact ⟨a, q, Or.inl ha, hq, hw⟩
    · exact IsTable.root (Or.inr rfl)

theorem NewRoot.leaf {k r₀ : A} (n : NewRoot next depth roots shared m k r₀) (hi : ¬ shared i) :
    leaf next m zero r₀ (i :: p) j = zero := by
  unfold Radix.leaf
  rw [walk_cons, n.empty i hi]
  rfl

theorem addRoot {k r₀ : A} (h : Forest next depth roots shared m)
    (n : NewRoot next depth roots shared m k r₀) :
    Forest next depth (fun x => roots x ∨ x = r₀) shared m := by
  -- every position is the new root itself or the position of an old table
  have hpos : ∀ {a q t}, roots a ∨ a = r₀ → q.length ≤ depth → walk next m a q = some t →
      (a = r₀ ∧ q = [] ∧ t = r₀) ∨
        ∃ b, roots b ∧ SamePos shared a q b q ∧ walk next m b q = some t := by
    rintro a q t (ha | rfl) hq hw
    · exact Or.inr ⟨a, ha, .refl _ _, hw⟩
    · rcases n.walk hw with ⟨h1, h2⟩ | ⟨h1, h2⟩
      · exact Or.inl ⟨rfl, h1, h2⟩
      · exact Or.inr ⟨k, n.root, h1, h2⟩
  have htop : ∀ {a i}, roots a ∨ a = r₀ → shared i → m a i = m k i := by
    rintro a i (ha | rfl) hi
    · exact h.top_eq ha n.root hi
    · exact n.copied i hi
  refine ⟨?_, ?_, ?_⟩
  · intro a b q q' t ha hb hq hq' hw hw'
    rcases hpos ha hq hw with ⟨rfl, rfl, rfl⟩ | ⟨a', ha', hs, hwa⟩ <;>
      rcases hpos hb hq' hw' with ⟨rfl, rfl, h3⟩ | ⟨b', hb', hs', hwb⟩
    · exact .refl _ _
    · exact absurd ⟨b', q', hb', hq', hwb⟩ n.fresh
    · exact absurd ⟨a', q, ha', hq, h3 ▸ hwa⟩ n.fresh
    · exact hs.trans ((h.sep ha' hb' hq hq' hwa hwb).trans hs'.symm)
  · intro a b i ha hb hi
    rw [htop ha hi, htop hb hi]
  · intro a i ha hi
    rw [htop ha hi]
    exact h.top_some n.root hi

/-! ### One root -/

/-- The entries of `k` lead to empty tables, no two of them to the same one. -/
structure Shallow (next : W → Option A) (m : Mem A I W) (k : A) : Prop where
  empty : ∀ {i u}, next (m k i) = some u → ∀ j, next (m u j) = none
  ne : ∀ {i u}, next (m k i) = some u → u ≠ k
  inj : ∀ {i j u}, next (m k i) = some u → next (m k j) = some u → i = j

theorem Shallow.walk {k : A} (hk : Shallow next m k) (h : walk next m k p = some t) :
    (p = [] ∧ t = k) ∨ ∃ i, p = [i] ∧ next (m k i) = some t := by
  match p, h with
  | [], h => exact Or.inl ⟨rfl, by simpa using h.symm⟩
  | [i], h => exact Or.inr ⟨i, rfl, by rw [walk_cons] at h; cases hn : next (m k i) <;> simp_all⟩
  | i :: j :: p, h =>
    rw [walk_cons] at h
    cases hn : next (m k i) with
    | none => rw [hn] at h; simp at h
    | some u =>
      rw [hn, Option.bind_some, walk_cons, hk.empty hn j] at h
      simp at h

theorem shallow {k : A} (hk : Shallow next m k)
    (hs : ∀ i, shared i → next (m k i) ≠ none) : Forest next depth (· = k) shared m := by
  refine ⟨?_, ?_, ?_⟩
  · rintro r r' p p' t rfl rfl _ _ hw hw'
    rcases hk.walk hw with ⟨rfl, rfl⟩ | ⟨i, rfl, hi⟩ <;>
      rcases hk.walk hw' with ⟨rfl, h'⟩ | ⟨j, rfl, hj⟩
    · exact .refl _ _
    · exact absurd rfl (hk.ne hj)
    · exact absurd h' (hk.ne hi)
    · rw [hk.inj hi hj]
      exact .refl _ _
  · rintro r r' i rfl rfl _
    rfl
  · rintro r i rfl hi
    exact hs i hi

theorem Shallow.isTable {k : A} (hk : Shallow next m k) (h : IsTable next depth (· = k) m t) :
    t = k ∨ ∃ i, next (m k i) = some t := by
  obtain ⟨r, p, rfl, _, hw⟩ := h
  rcases hk.walk hw with ⟨_, ht⟩ | ⟨i, _, hi⟩
  · exact Or.inl ht
  · exact Or.inr ⟨i, hi⟩

end Forest

end

end Infra.Radix
