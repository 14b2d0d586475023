import Mathlib.Data.List.Nodup
import Lyre.Infra.Radix

/-!
# The tables of a radix tree in post-order

A tree of tables is given back from the leaves up: first what hangs below the entries of a table,
then the table. `below` lists the tables in that order. It has the table at the end of each path
that is short enough, and, when no two paths lead to one table, each of them once.
-/

namespace Infra.Radix

variable {A W : Type} (next : W → Option A) (m : Mem A Nat W) (width : Nat)

/-- The tables below the entries `is` of `t`, and `t`; `level` counts the levels of tables that are
left, `width` the entries of a table. -/
def below : Nat → A → List Nat → List A
  | 0, _, _ => []
  | level + 1, t, is =>
    is.flatMap (fun i => match next (m t i) with
      | none => []
      | some u => below level u (List.range width)) ++ [t]

variable {next m width} {level : Nat} {t q : A} {is : List Nat}

theorem mem_below : ∀ {level : Nat} {t : A} {is : List Nat}, q ∈ below next m width level t is ↔
    (0 < level ∧ q = t) ∨ ∃ i ∈ is, ∃ p, p.length + 1 < level ∧ (∀ j ∈ p, j < width) ∧
      walk next m t (i :: p) = some q
  | 0, t, is => by simp [below]
  | level + 1, t, is => by
    simp only [below, List.mem_append, List.mem_flatMap, List.mem_singleton, Nat.zero_lt_succ,
      true_and, Nat.add_lt_add_iff_right]
    constructor
    · rintro (⟨i, hi, hq⟩ | rfl)
      · right
        cases hn : next (m t i) with
        | none => simp [hn] at hq
        | some u =>
          simp only [hn] at hq
          rcases mem_below.mp hq with ⟨hpos, rfl⟩ | ⟨j, hj, p, hp, hw, hwalk⟩
          · exact ⟨i, hi, [], hpos, by simp, by rw [walk_cons, hn]; rfl⟩
          · refine ⟨i, hi, j :: p, by rw [List.length_cons]; exact hp, ?_, ?_⟩
            · simp only [List.mem_cons, forall_eq_or_imp]
              exact ⟨List.mem_range.mp hj, hw⟩
            · rw [walk_cons, hn]
              exact hwalk
      · exact Or.inl rfl
    · rintro (rfl | ⟨i, hi, p, hp, hw, hwalk⟩)
      · exact Or.inr rfl
      · refine Or.inl ⟨i, hi, ?_⟩
        rw [walk_cons] at hwalk
        cases hn : next (m t i) with
        | none => simp [hn] at hwalk
        | some u =>
          simp only [hn, Option.bind_some] at hwalk ⊢
          cases p with
          | nil =>
            have huq : u = q := by simpa using hwalk
            rw [huq]
            exact mem_below.mpr (Or.inl ⟨by simpa using hp, rfl⟩)
          | cons j p =>
            simp only [List.mem_cons, forall_eq_or_imp] at hw
            exact mem_below.mpr (Or.inr ⟨j, List.mem_range.mpr hw.1, p, hp, hw.2, hwalk⟩)

theorem walk_of_mem_below (h : q ∈ below next m width level t is) :
    ∃ p, p.length < level ∧ walk next m t p = some q := by
  rcases mem_below.mp h with ⟨hpos, rfl⟩ | ⟨i, -, p, hp, -, hw⟩
  · exact ⟨[], hpos, rfl⟩
  · exact ⟨i :: p, hp, hw⟩

theorem walk_of_mem_entry {i : Nat} (h : q ∈ (match next (m t i) with
      | none => []
      | some u => below next m width level u (List.range width))) :
    ∃ p, p.length < level ∧ walk next m t (i :: p) = some q := by
  cases hn : next (m t i) with
  | none => simp [hn] at h
  | some u =>
    simp only [hn] at h
    obtain ⟨p, hp, hw⟩ := walk_of_mem_below h
    exact ⟨p, hp, by rw [walk_cons, hn]; exact hw⟩

/-- When a table is at the end of one path only, it is listed once. -/
theorem nodup_below : ∀ {level : Nat} {t : A} {is : List Nat}, is.Nodup →
    (∀ p p' q, p.length < level → p'.length < level → walk next m t p = some q →
      walk next m t p' = some q → p = p') → (below next m width level t is).Nodup
  | 0, _, _, _, _ => List.nodup_nil
  | level + 1, t, is, his, hinj => by
    rw [below, List.nodup_append]
    refine ⟨?_, List.nodup_singleton t, ?_⟩
    · rw [List.nodup_flatMap]
      refine ⟨fun i _ => ?_, his.imp fun {i j} hij => ?_⟩
      · cases hn : next (m t i) with
        | none => exact List.nodup_nil
        | some u =>
          refine nodup_below List.nodup_range fun p p' q hp hp' hw hw' => ?_
          have heq := hinj (i :: p) (i :: p') q (Nat.succ_lt_succ hp) (Nat.succ_lt_succ hp')
            (by rw [walk_cons, hn]; exact hw) (by rw [walk_cons, hn]; exact hw')
          exact (List.cons.inj heq).2
      · -- two entries have no table in common
        intro q hq hq'
        obtain ⟨p, hp, hw⟩ := walk_of_mem_entry hq
        obtain ⟨p', hp', hw'⟩ := walk_of_mem_entry hq'
        have heq := hinj (i :: p) (j :: p') q (Nat.succ_lt_succ hp) (Nat.succ_lt_succ hp') hw hw'
        exact hij (List.cons.inj heq).1
    · -- the table itself is at the empty path
      rintro q hq t' ht' rfl
      obtain rfl := List.mem_singleton.mp ht'
      obtain ⟨i, -, hq⟩ := List.mem_flatMap.mp hq
      obtain ⟨p, hp, hw⟩ := walk_of_mem_entry hq
      simpa using hinj (i :: p) [] q (Nat.succ_lt_succ hp) (Nat.zero_lt_succ _) hw rfl

end Infra.Radix
