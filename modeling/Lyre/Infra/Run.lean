import Mathlib.Logic.Relation

/-!
# Runs of a labelled transition system

A system is a relation `step s a s'`: action `a` leads from `s` to `s'`. A side condition
`ok s a` on the state before the step and on the action carves out the runs that keep to it;
with `fun _ _ => True` all runs are meant.

The only rule needed is `Reach.invariant`: what holds at the start and survives one step
holds of every state reached.
-/

namespace Infra

variable {σ α : Type*} {step : σ → α → σ → Prop} {ok ok' : σ → α → Prop} {s₀ s s' : σ}

/-- `s` is reached from `s₀` by steps that all meet `ok` in the state they start from. -/
inductive Reach (step : σ → α → σ → Prop) (ok : σ → α → Prop) (s₀ : σ) : σ → Prop
  | refl : Reach step ok s₀ s₀
  | tail {s s' : σ} {a : α} : Reach step ok s₀ s → ok s a → step s a s' → Reach step ok s₀ s'

/-- No condition on the steps. -/
def anyStep : σ → α → Prop := fun _ _ => True

namespace Reach

/-- **The invariant rule.** -/
theorem invariant {I : σ → Prop} (h : Reach step ok s₀ s) (h₀ : I s₀)
    (hstep : ∀ s a s', I s → ok s a → step s a s' → I s') : I s := by
  induction h with
  | refl => exact h₀
  | tail _ hok hs ih => exact hstep _ _ _ ih hok hs

theorem imp_step {step' : σ → α → σ → Prop} (h : Reach step ok s₀ s)
    (hw : ∀ s a s', step s a s' → step' s a s') : Reach step' ok s₀ s := by
  induction h with
  | refl => exact .refl
  | tail _ hok hs ih => exact .tail ih hok (hw _ _ _ hs)

theorem mono (h : Reach step ok s₀ s) (hw : ∀ s a, ok s a → ok' s a) : Reach step ok' s₀ s := by
  induction h with
  | refl => exact .refl
  | tail _ hok hs ih => exact .tail ih (hw _ _ hok) hs

end Reach

/-! ## Runs of a function -/

/-- One call after the other, as long as each of them returns. -/
def runAll (next : σ → α → Option σ) : List α → σ → Option σ
  | [], s => some s
  | a :: as, s => (next s a).bind (runAll next as)

theorem Reach.of_runAll {next : σ → α → Option σ} {ok : α → Prop} {s₀ : σ} :
    ∀ {as : List α} {s s' : σ}, Reach (fun s a s' => next s a = some s') (fun _ a => ok a) s₀ s →
      (∀ a ∈ as, ok a) → runAll next as s = some s' →
      Reach (fun s a s' => next s a = some s') (fun _ a => ok a) s₀ s'
  | [], s, s', hr, _, h => by
    obtain rfl : s = s' := Option.some.inj h
    exact hr
  | a :: as, s, s', hr, hok, h => by
    rw [runAll, Option.bind_eq_some_iff] at h
    obtain ⟨s₁, h₁, h⟩ := h
    exact of_runAll (hr.tail (hok a List.mem_cons_self) h₁)
      (fun b hb => hok b (List.mem_cons_of_mem a hb)) h

/-- The same for a condition that looks at the state, checked on the way. -/
def runIf (next : σ → α → Option σ) (ok : σ → α → Bool) : List α → σ → Option σ :=
  runAll fun s a => if ok s a then next s a else none

theorem Reach.of_runIf {next : σ → α → Option σ} {ok : σ → α → Bool} {s₀ : σ} :
    ∀ {as : List α} {s s' : σ},
      Reach (fun s a s' => next s a = some s') (fun s a => ok s a = true) s₀ s →
      runIf next ok as s = some s' →
      Reach (fun s a s' => next s a = some s') (fun s a => ok s a = true) s₀ s'
  | [], s, s', hr, h => by
    obtain rfl : s = s' := Option.some.inj h
    exact hr
  | a :: as, s, s', hr, h => by
    rw [runIf, runAll, Option.bind_eq_some_iff] at h
    obtain ⟨s₁, h₁, h⟩ := h
    split at h₁
    · next hok => exact of_runIf (hr.tail hok h₁) h
    · simp at h₁

/-- A function that is total, and actions that are allowed in every state. -/
theorem Reach.foldl {next : σ → α → σ} {s₀ : σ} :
    ∀ (as : List α) {s : σ}, (∀ a ∈ as, ∀ s, ok s a) →
      Reach (fun s a s' => next s a = s') ok s₀ s →
      Reach (fun s a s' => next s a = s') ok s₀ (as.foldl next s)
  | [], _, _, hr => hr
  | a :: as, s, hok, hr =>
    foldl as (fun b hb => hok b (List.mem_cons_of_mem a hb))
      (hr.tail (hok a List.mem_cons_self s) rfl)

/-! ## Output of a run -/

variable {β : Type*}

/-- What the steps of a run put out, one after the other. -/
def outputs (next : σ → α → σ) (out : σ → α → List β) : σ → List α → List β
  | _, [] => []
  | s, a :: as => out s a ++ outputs next out (next s a) as

/-- The output is looked at step by step, each in the state that it meets. -/
theorem forall_mem_outputs_iff {next : σ → α → σ} {out : σ → α → List β} {Q : β → Prop} :
    ∀ {as : List α} {s : σ}, (∀ b ∈ outputs next out s as, Q b) ↔
      ∀ pre a post, as = pre ++ a :: post → ∀ b ∈ out (pre.foldl next s) a, Q b
  | [], s => by
    refine iff_of_true (fun b hb => nomatch hb) fun pre a post h => ?_
    exact absurd h.symm (List.append_ne_nil_of_right_ne_nil pre (List.cons_ne_nil a post))
  | a :: as, s => by
    rw [outputs, List.forall_mem_append, forall_mem_outputs_iff]
    constructor
    · rintro ⟨hfirst, hrest⟩ pre a' post h
      cases pre with
      | nil =>
        obtain ⟨rfl, -⟩ := List.cons.inj h
        exact hfirst
      | cons _ pre =>
        obtain ⟨rfl, htail⟩ := List.cons.inj h
        exact hrest pre a' post htail
    · intro h
      exact ⟨h [] a as rfl, fun pre a' post htail => h (a :: pre) a' post (by rw [htail]; rfl)⟩

end Infra
