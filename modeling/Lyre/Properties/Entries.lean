import Lyre.Properties.MmapPages

/-!
# Entries of pages anywhere in the address space

Unmapping and re-flagging touch neither the tables nor the page allocator, so what they do to the
entries needs no more than that the tables are a forest. An address is not assumed to lie in the
lower half: pages that are `2 ^ 48` apart, or in the upper half of two pagemaps, have one entry.

* `Edits` — what a call, or a loop over pages, does to the entries;
* `Shrinks` — no entry becomes present.
-/

namespace Lyre.Vmm

open Infra.Radix

section

variable {σ : Type} {A : PageAllocator σ} {roots : Nat → Prop} {s s₁ s' : State σ} {r r' v v' : Nat}

/-- The tables below the roots are a forest. -/
abbrev Tables (roots : Nat → Prop) (s : State σ) : Prop := Forest nextTable 3 roots upperHalf s.mem

theorem Tables.pte_eq (h : Tables roots s) (hr : roots r) (hr' : roots r')
    (hs : SameEntry upperHalf r v r' v') : pte s r' v' = pte s r v := by
  obtain ⟨hpos, hidx⟩ := sameEntry_iff.mp hs
  unfold pte leaf
  rw [h.walk_samePos hr hr' hpos, hidx]

theorem SameEntry.symm (h : SameEntry upperHalf r v r' v') : SameEntry upperHalf r' v' r v := by
  obtain ⟨hpos, hidx⟩ := sameEntry_iff.mp h
  exact sameEntry_iff.mpr ⟨hpos.symm, hidx.symm⟩

/-- The entries in `P` may have changed, and no others. -/
structure Edits (roots : Nat → Prop) (P : Nat → Nat → Prop) (s s' : State σ) : Prop where
  tables : Tables roots s'
  keeps : ∀ r v, roots r → ¬ P r v → pte s' r v = pte s r v

/-- An entry is as it was, or no longer present. -/
def Shrinks (roots : Nat → Prop) (s s' : State σ) : Prop :=
  ∀ r v, roots r → pte s' r v = pte s r v ∨ ¬ Present s' r v

theorem Edits.refl {P : Nat → Nat → Prop} (h : Tables roots s) : Edits roots P s s :=
  ⟨h, fun _ _ _ _ => rfl⟩

theorem Edits.trans {P : Nat → Nat → Prop} (h : Edits roots P s s₁) (h' : Edits roots P s₁ s') :
    Edits roots P s s' :=
  ⟨h'.tables, fun r v hr hP => (h'.keeps r v hr hP).trans (h.keeps r v hr hP)⟩

theorem Edits.mono {P Q : Nat → Nat → Prop} (h : Edits roots P s s') (hPQ : ∀ r v, P r v → Q r v) :
    Edits roots Q s s' :=
  ⟨h.tables, fun r v hr hQ => h.keeps r v hr fun hP => hQ (hPQ r v hP)⟩

theorem Edits.of_mem {P : Nat → Nat → Prop} (h : Edits roots P s s₁) (hm : s'.mem = s₁.mem) :
    Edits roots P s s' := by
  refine ⟨by rw [Tables, hm]; exact h.tables, fun r v hr hP => ?_⟩
  have hp := h.keeps r v hr hP
  unfold pte at hp ⊢
  rw [hm]
  exact hp

theorem Shrinks.refl (s : State σ) : Shrinks roots s s := fun _ _ _ => Or.inl rfl

theorem Shrinks.of_mem (hm : s'.mem = s.mem) : Shrinks roots s s' := fun r v _ =>
  Or.inl (by unfold pte; rw [hm])

theorem Shrinks.trans (h : Shrinks roots s s₁) (h' : Shrinks roots s₁ s') : Shrinks roots s s' := by
  intro r v hr
  rcases h' r v hr with heq | hno
  · rcases h r v hr with heq₁ | hno₁
    · exact Or.inl (heq.trans heq₁)
    · refine Or.inr ?_
      unfold Present at hno₁ ⊢
      rwa [heq]
  · exact Or.inr hno

theorem Shrinks.present (h : Shrinks roots s s') (hr : roots r) (hp : Present s' r v) :
    Present s r v := by
  rcases h r v hr with heq | hno
  · unfold Present at hp ⊢
    rwa [← heq]
  · exact absurd hp hno

/-! ## One page -/

/-- The entry of the page is replaced by a function of itself where it is present. -/
theorem replace_edits {f : Nat → Nat} {g : State σ → Nat → Nat → Bool × State σ}
    (hg : ∀ s r virt, g s r virt = match walkLevels A false s r (levels virt) with
      | (none, s) => (false, s)
      | (some pml1, s) =>
        if s.mem pml1 (pml1Entry virt) &&& ptePresent = 0 then
          (false, { s with errno := some .einval })
        else (true, store s pml1 (pml1Entry virt) (f (s.mem pml1 (pml1Entry virt)))))
    (h : Tables roots s) (hr : roots r) (virt : Nat) :
    Edits roots (fun r' v => SameEntry upperHalf r virt r' v) s (g s r virt).2 ∧
      pte (g s r virt).2 r virt =
        if Present s r virt then f (pte s r virt) else pte s r virt := by
  rw [hg, walkLevels_false]
  cases hw : walk nextTable s.mem r (levels virt) with
  | none =>
    refine ⟨.refl h, ?_⟩
    rw [if_neg]
    unfold Present
    rw [pte_of_walk_none hw]
    exact fun hc => hc present_zero
  | some pml1 =>
    have hpte := pte_of_walk hw
    simp only
    split
    · next hpres =>
      refine ⟨(Edits.refl h).of_mem rfl, ?_⟩
      rw [if_neg]
      · rfl
      · unfold Present
        rw [hpte]
        exact fun hc => hc hpres
    · next hpres =>
      have hp : Present s r virt := by
        unfold Present
        rw [hpte]
        exact hpres
      refine ⟨⟨h.setLeaf (by decide) hr rfl hw, fun r' v hr' hs => ?_⟩, ?_⟩
      · exact h.leaf_setLeaf_other hr rfl hw hr' (Nat.le_of_eq (length_levels v))
          fun hc => hs (sameEntry_iff.mpr hc)
      · rw [if_pos hp, hpte]
        exact h.leaf_setLeaf_same hr rfl hw hr (.refl r (levels virt))

theorem vmmUnmapPage_edits (h : Tables roots s) (hr : roots r) (virt : Nat) :
    Edits roots (fun r' v => SameEntry upperHalf r virt r' v) s (vmmUnmapPage A s r virt).2 ∧
      ¬ Present (vmmUnmapPage A s r virt).2 r virt := by
  obtain ⟨hed, hpte⟩ := replace_edits (A := A) (f := fun _ => 0)
    (g := fun s r virt => vmmUnmapPage A s r virt) (fun _ _ _ => rfl) h hr virt
  refine ⟨hed, fun hp => ?_⟩
  by_cases hpres : Present s r virt
  · rw [if_pos hpres] at hpte
    unfold Present at hp
    rw [hpte] at hp
    exact hp present_zero
  · rw [if_neg hpres] at hpte
    unfold Present at hp
    rw [hpte] at hp
    exact hpres hp

theorem vmmFlagPage_edits (h : Tables roots s) (hr : roots r) (virt flags : Nat) :
    Edits roots (fun r' v => SameEntry upperHalf r virt r' v) s
      (vmmFlagPage A s r virt flags).2 :=
  (replace_edits (A := A) (f := fun e => pteGetAddr e ||| flags)
    (g := fun s r virt => vmmFlagPage A s r virt flags) (fun _ _ _ => rfl) h hr virt).1

theorem vmmUnmapPage_shrinks (h : Tables roots s) (hr : roots r) (virt : Nat) :
    Shrinks roots s (vmmUnmapPage A s r virt).2 := by
  obtain ⟨hed, hno⟩ := vmmUnmapPage_edits (A := A) h hr virt
  intro r' v hr'
  by_cases hs : SameEntry upperHalf r virt r' v
  · refine Or.inr ?_
    unfold Present at hno ⊢
    rw [hed.tables.pte_eq hr hr' hs]
    exact hno
  · exact Or.inl (hed.keeps r' v hr' hs)

/-! ## Loops -/

/-- The entries of the pages of `[b, e)` below `r`. -/
def EntryIn (r b e r' v : Nat) : Prop :=
  ∃ j, pageSize ∣ j ∧ b ≤ j ∧ j < e ∧ SameEntry upperHalf r j r' v

theorem edits_of_loop {op : Nat → State σ → State σ} {b e : Nat}
    (hop : ∀ j s, Tables roots s →
      Edits roots (fun r' v => SameEntry upperHalf r j r' v) s (op j s))
    (h : Tables roots s) (hb : pageSize ∣ b) (he : pageSize ∣ e) (hbe : b ≤ e) (hlt : e < 2 ^ 64) :
    Edits roots (EntryIn r b e) s (Mmap.pageLoop op e Mmap.loopFuel b s) := by
  refine (Mmap.pageLoop_rule (P := fun j s' => b ≤ j ∧ Edits roots (EntryIn r b e) s s') he hlt ?_
    hb hbe ?_ ⟨Nat.le_refl _, .refl h⟩).2
  · rintro j s' hj hje ⟨hbj, hed⟩
    exact ⟨by omega, hed.trans ((hop j s' hed.tables).mono fun r' v hs => ⟨j, hj, hbj, hje, hs⟩)⟩
  · unfold Mmap.loopFuel pageSize
    omega

theorem unmapLoop_shrinks {b e : Nat} (h : Tables roots s) (hr : roots r) (hb : pageSize ∣ b)
    (he : pageSize ∣ e) (hbe : b ≤ e) (hlt : e < 2 ^ 64) :
    let s' := Mmap.pageLoop (fun j vm => (vmmUnmapPage A vm r j).2) e Mmap.loopFuel b s
    Shrinks roots s s' ∧ ∀ v, b ≤ v → v < e → ¬ Present s' r v := by
  refine (Mmap.pageLoop_rule (P := fun j s' => b ≤ j ∧ Tables roots s' ∧ Shrinks roots s s' ∧
    ∀ v, b ≤ v → v < j → ¬ Present s' r v) he hlt ?_ hb hbe ?_
    ⟨Nat.le_refl _, h, .refl s, fun v h1 h2 => by omega⟩).2.2
  · rintro j s' hj hje ⟨hbj, htab, hsh, hgone⟩
    obtain ⟨hed, hno⟩ := vmmUnmapPage_edits (A := A) htab hr j
    have hsh' := vmmUnmapPage_shrinks (A := A) htab hr j
    refine ⟨by omega, hed.tables, hsh.trans hsh', fun v hbv hvj hp => ?_⟩
    by_cases hold : v < j
    · exact hgone v hbv hold (hsh'.present hr hp)
    · have hpage : pte (vmmUnmapPage A s' r j).2 r v = pte (vmmUnmapPage A s' r j).2 r j :=
        pte_page (by unfold pageSize at *; omega)
      unfold Present at hno hp
      rw [hpage] at hp
      exact hno hp
  · unfold Mmap.loopFuel pageSize
    omega

end

end Lyre.Vmm
