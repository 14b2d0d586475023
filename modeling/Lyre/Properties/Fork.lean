import Lyre.Properties.ForkPages
import Lyre.Properties.Frees
import Mathlib.Data.List.Forall2

/-!
# `vmm_fork_pagemap` copies an address space

The turns over the parent's ranges fill disjoint intervals of the child.

* `fork_copies` — what the child has when the fork succeeds, for ranges of whole pages in the lower
  half;
* `fork_misses_boot` — what happens to other ranges.
-/

namespace Lyre.Mmap

open Vmm Infra

/-! ## One range -/

section

variable {σ : Type} {A : PageAllocator σ} {roots R R' : Nat → Prop} {s s₁ s' : State σ}
variable {p c id : Nat}

/-- The child has one more range; nothing else happened to the ranges. -/
structure NewRange (s s' : State σ) (p c id : Nat) : Prop where
  child : s'.ranges c = s.ranges c ++ [s.nextId]
  parent : s'.ranges p = s.ranges p
  locals : s'.locals = Function.update s.locals s.nextId { s.locals id with pagemap := c }
  nextId : s.nextId < s'.nextId
  kernelTop : s'.kernelTop = s.kernelTop
  globals : ∀ g, g < s.nextId → g ≠ (s.locals id).global → s'.globals g = s.globals g

theorem newPagemap_some {top : Nat} (h : newPagemap A s = (some top, s')) :
    ∃ vm, vmmNewPagemap A s.vm s.kernelTop = (some top, vm) ∧
      s' = { s with nextId := s.nextId + 1, vm, ranges := Function.update s.ranges top [] } := by
  unfold newPagemap heapAlloc at h
  by_cases hok : s.heapOk s.nextId = true
  · rw [if_pos hok] at h
    rcases hv : vmmNewPagemap A s.vm s.kernelTop with ⟨_ | t, vm⟩
    · simp [hv] at h
    · simp only [hv, Prod.mk.injEq, Option.some.injEq] at h
      obtain ⟨rfl, rfl⟩ := h
      exact ⟨vm, rfl, rfl⟩
  · rw [if_neg hok] at h
    simp at h

/-- The state with the new local range, its resource counted once more. -/
def withLocal (s : State σ) (c id : Nat) (refcount : Nat → Nat) : State σ :=
  { setLocal { s with nextId := s.nextId + 1 } s.nextId { s.locals id with pagemap := c } with
    refcount }

/-- The range `id` of the parent has been copied. -/
structure Turned (A : PageAllocator σ) (R R' : Nat → Prop) (s s' : State σ) (p c id : Nat) :
    Prop where
  range : NewRange s s' p c id
  evolved : Evolved A R R' s.vm s'.vm
  others : ∀ r v, R r → r ≠ c → pte s'.vm r v = pte s.vm r v
  outside : ∀ v, v < lowEnd → ¬ (s.locals id).Has v → pte s'.vm c v = pte s.vm c v
  shared : (s.locals id).flags.shared = true →
    ∀ v, (s.locals id).Has v → pte s'.vm c v = pte s.vm p v
  copied : (s.locals id).flags.shared = false → ∃ g, s.nextId ≤ g ∧ g < s'.nextId ∧
    (s'.globals g).locals = [s.nextId] ∧ R' (s'.globals g).shadowPagemap ∧
    (s'.globals g).shadowPagemap ≠ c ∧ ∀ v, (s.locals id).Has v →
      PageCopied A R' s.vm s'.vm p c (s'.globals g).shadowPagemap v
  distinct : (s.locals id).flags.shared = false → Distinct s.vm s'.vm p c (s.locals id).Has

/-- A range as the loops see it. -/
structure Copyable (A : PageAllocator σ) (R : Nat → Prop) (vm : Vmm.State σ) (l : LocalRange)
    (p : Nat) : Prop where
  tidy : l.Tidy
  low : l.base + l.length ≤ lowEnd
  owned : l.flags.shared = false → ∀ v, l.Has v → Present vm p v →
    A.Owned vm.pmm (pteGetAddr (pte vm p v))
  data : l.flags.shared = false → ∀ v, l.Has v → Present vm p v →
    ¬ TablePage R vm (pteGetAddr (pte vm p v))

theorem Copyable.evolve {vm vm' : Vmm.State σ} {l : LocalRange} (h : Copyable A R vm l p)
    (he : Evolved A R R' vm vm') (hp : ∀ v, pte vm' p v = pte vm p v) :
    Copyable A R' vm' l p := by
  have hpres : ∀ {v}, Present vm' p v → Present vm p v := by
    intro v hv
    unfold Present at hv ⊢
    rw [← hp v]
    exact hv
  refine ⟨h.tidy, h.low, fun hsh v hv hpv => ?_, fun hsh v hv hpv => ?_⟩
  · rw [hp v]
    exact he.owned _ (h.owned hsh v hv (hpres hpv))
  · rw [hp v]
    exact he.not_table (h.owned hsh v hv (hpres hpv)) (h.data hsh v hv (hpres hpv))

/-- The range `new` of the child is the copy of the range `id` of the parent: they differ in the
pagemap and the global range they belong to. A shared range has the parent's entries; a private
one has copies of the pages, known to the shadow pagemap of a new global range. -/
structure RangeCopied (A : PageAllocator σ) (R : Nat → Prop) (s s' : State σ) (p c id new : Nat) :
    Prop where
  lt : new < s'.nextId
  same : s'.locals new
    = { s.locals id with pagemap := c, global := (s'.locals new).global }
  shared : (s.locals id).flags.shared = true →
    ∀ v, (s.locals id).Has v → pte s'.vm c v = pte s.vm p v
  copied : (s.locals id).flags.shared = false → ∃ g, s.nextId ≤ g ∧ g < s'.nextId ∧
    (s'.globals g).locals = [new] ∧ R (s'.globals g).shadowPagemap ∧
    (s'.globals g).shadowPagemap ≠ c ∧ ∀ v, (s.locals id).Has v →
      PageCopied A R s.vm s'.vm p c (s'.globals g).shadowPagemap v

/-- An address of a private range. -/
def PrivateIn (s : State σ) (ids : List Nat) (v : Nat) : Prop :=
  ∃ id ∈ ids, (s.locals id).flags.shared = false ∧ (s.locals id).Has v

/-- The ranges `ids` of the parent have been copied, and nothing else of the child is there. The
pagemaps of `s` have the entries they had. -/
structure Forked (A : PageAllocator σ) (roots R : Nat → Prop) (s s' : State σ) (p c : Nat)
    (ids : List Nat) : Prop where
  evolved : Evolved A roots R s.vm s'.vm
  child : R c ∧ ¬ roots c
  entries : SameEntries roots s.vm s'.vm
  blank : ∀ v, v < lowEnd → (∀ id ∈ ids, ¬ (s.locals id).Has v) → pte s'.vm c v = 0
  parent : s'.ranges p = s.ranges p
  locals : ∀ x, x < s.nextId → s'.locals x = s.locals x
  nextId : s.nextId ≤ s'.nextId
  kernelTop : s'.kernelTop = s.kernelTop
  copies : List.Forall₂ (RangeCopied A R s s' p c) ids (s'.ranges c)
  taken : ∀ v, PrivateIn s ids v → Present s.vm p v →
    A.Owned s'.vm.pmm (pteGetAddr (pte s'.vm c v))
  distinct : Distinct s.vm s'.vm p c (PrivateIn s ids)

/-- What a fork relies on: pagemaps in order, ranges that do not meet, no private range of a file,
and private pages that are in use and no tables. -/
structure Forkable (A : PageAllocator σ) (roots : Nat → Prop) (s : State σ) (p : Nat) : Prop where
  wf : Wf A roots upperHalf s.vm
  kernel : roots s.kernelTop
  root : roots p
  lt : ∀ id ∈ s.ranges p, id < s.nextId ∧ (s.locals id).global < s.nextId
  disjoint : Disjoint s p
  anonymous : ∀ id ∈ s.ranges p,
    (s.locals id).flags.shared = false → (s.locals id).flags.anonymous = true
  owned : ∀ v, PrivateIn s (s.ranges p) v → Present s.vm p v →
    A.Owned s.vm.pmm (pteGetAddr (pte s.vm p v))
  data : ∀ v, PrivateIn s (s.ranges p) v → Present s.vm p v →
    ¬ TablePage roots s.vm (pteGetAddr (pte s.vm p v))

theorem RangeCopied.turn {new x : Nat} (h : RangeCopied A R s s₁ p c id new)
    (t : Turned A R R' s₁ s' p c x) (hx : (s₁.locals x).global < s.nextId)
    (hlow : ∀ v, (s.locals id).Has v → v < lowEnd)
    (hap : ∀ v, (s.locals id).Has v → ¬ (s₁.locals x).Has v) :
    RangeCopied A R' s s' p c id new := by
  have hlocal : s'.locals new = s₁.locals new := by
    rw [t.range.locals]
    exact Function.update_of_ne (Nat.ne_of_lt h.lt) ..
  have hpte : ∀ v, (s.locals id).Has v → pte s'.vm c v = pte s₁.vm c v :=
    fun v hv => t.outside v (hlow v hv) (hap v hv)
  refine ⟨Nat.lt_trans h.lt t.range.nextId, by rw [hlocal]; exact h.same, fun hsh v hv => ?_,
    fun hsh => ?_⟩
  · rw [hpte v hv, h.shared hsh v hv]
  · obtain ⟨g, hg, hg', hgl, hR, hne, hpages⟩ := h.copied hsh
    have hglobal : s'.globals g = s₁.globals g := t.range.globals g hg' (by omega)
    refine ⟨g, hg, Nat.lt_trans hg' t.range.nextId, ?_, ?_, ?_, fun v hv => ?_⟩
    · rw [hglobal]
      exact hgl
    · rw [hglobal]
      exact t.evolved.sub _ hR
    · rw [hglobal]
      exact hne
    · rw [hglobal]
      exact (hpages v hv).evolve t.evolved (hpte v hv) (t.others _ v hR hne)

namespace Forked

variable {ids : List Nat} {x : Nat}

/-- The copy that a turn makes, as it looks from the state in which the fork began. -/
theorem last (h : Forked A roots R s s₁ p c ids) (h₀ : Forkable A roots s p)
    (hx : x ∈ s.ranges p) (t : Turned A R R' s₁ s' p c x) :
    RangeCopied A R' s s' p c x s₁.nextId := by
  have hlx : s₁.locals x = s.locals x := h.locals x (h₀.lt x hx).1
  have hpp : ∀ v, pte s₁.vm p v = pte s.vm p v := fun v => h.entries p v h₀.root
  have hself : s'.locals s₁.nextId = { s.locals x with pagemap := c } := by
    rw [t.range.locals, hlx]
    exact Function.update_self ..
  refine ⟨t.range.nextId, by rw [hself], fun hsh v hv => ?_, fun hsh => ?_⟩
  · rw [← hpp v]
    exact t.shared (by rw [hlx]; exact hsh) v (by rw [hlx]; exact hv)
  · obtain ⟨g, hg, hg', hgl, hR, hgc, hpages⟩ := t.copied (by rw [hlx]; exact hsh)
    rw [hlx] at hpages
    exact ⟨g, Nat.le_trans h.nextId hg, hg', hgl, hR, hgc, fun v hv =>
      (hpages v hv).earlier h.evolved (hpp v) (h₀.owned v ⟨x, hx, hsh, hv⟩)
        (h₀.data v ⟨x, hx, hsh, hv⟩)⟩

theorem last_page (h : Forked A roots R s s₁ p c ids) (h₀ : Forkable A roots s p)
    (hx : x ∈ s.ranges p) (t : Turned A R R' s₁ s' p c x) {v : Nat} (hv : PrivateIn s [x] v)
    (hpv : Present s.vm p v) :
    ¬ A.Owned s₁.vm.pmm (pteGetAddr (pte s'.vm c v)) ∧
      A.Owned s'.vm.pmm (pteGetAddr (pte s'.vm c v)) := by
  have hlx : s₁.locals x = s.locals x := h.locals x (h₀.lt x hx).1
  obtain ⟨id, hid, hsh, hv⟩ := hv
  obtain rfl := List.mem_singleton.mp hid
  obtain ⟨g, -, -, -, -, -, hpages⟩ := t.copied (by rw [hlx]; exact hsh)
  rw [hlx] at hpages
  have hpres : Present s₁.vm p v := by
    unfold Present at hpv ⊢
    rw [h.entries p v h₀.root]
    exact hpv
  have hpage := (hpages v hv).page hpres
  exact ⟨hpage.fresh, hpage.owned⟩

theorem turn (h : Forked A roots R s s₁ p c ids) (h₀ : Forkable A roots s p)
    (hlow : ∀ id ∈ s.ranges p, (s.locals id).base + (s.locals id).length ≤ lowEnd)
    (hids : ∀ id ∈ ids, id ∈ s.ranges p) (hx : x ∈ s.ranges p)
    (hap : ∀ id ∈ ids, Apart (s.locals id) (s.locals x))
    (t : Turned A R R' s₁ s' p c x) : Forked A roots R' s s' p c (ids ++ [x]) := by
  have hlx : s₁.locals x = s.locals x := h.locals x (h₀.lt x hx).1
  have hpc : p ≠ c := fun he => h.child.2 (he ▸ h₀.root)
  have hRp : R p := h.evolved.sub p h₀.root
  have hpp : ∀ v, pte s₁.vm p v = pte s.vm p v := fun v => h.entries p v h₀.root
  have hpres : ∀ {v}, Present s.vm p v ↔ Present s₁.vm p v := by
    intro v
    unfold Present
    rw [hpp]
  have hlowx : ∀ id ∈ s.ranges p, ∀ v, (s.locals id).Has v → v < lowEnd := by
    intro id hid v hv
    have := hlow id hid
    unfold LocalRange.Has at hv
    omega
  have houtside : ∀ id ∈ ids, ∀ v, (s.locals id).Has v → pte s'.vm c v = pte s₁.vm c v := by
    intro id hid v hv
    exact t.outside v (hlowx id (hids id hid) v hv)
      (by rw [hlx]; exact fun hv' => hap id hid v ⟨hv, hv'⟩)
  have hold : ∀ v, PrivateIn s ids v → pte s'.vm c v = pte s₁.vm c v := by
    rintro v ⟨id, hid, _, hv⟩
    exact houtside id hid v hv
  have hsplit : ∀ v, PrivateIn s (ids ++ [x]) v → PrivateIn s ids v ∨ PrivateIn s [x] v := by
    rintro v ⟨id, hid, hr⟩
    rcases List.mem_append.mp hid with hid | hid
    · exact Or.inl ⟨id, hid, hr⟩
    · exact Or.inr ⟨id, hid, hr⟩
  have hne : ∀ v w, PrivateIn s ids v → PrivateIn s [x] w → Present s.vm p v → Present s.vm p w →
      pteGetAddr (pte s'.vm c v) ≠ pteGetAddr (pte s'.vm c w) := by
    intro v w hv hw hpv hpw he
    refine (h.last_page h₀ hx t hw hpw).1 (he ▸ ?_)
    rw [hold v hv]
    exact h.taken v hv hpv
  exact
    { evolved := h.evolved.trans t.evolved
      child := ⟨t.evolved.sub c h.child.1, h.child.2⟩
      entries := fun r v hr => by
        rw [t.others r v (h.evolved.sub r hr) fun he => h.child.2 (he ▸ hr), h.entries r v hr]
      blank := fun v hv hno => by
        rw [t.outside v hv (by rw [hlx]; exact hno x (by simp))]
        exact h.blank v hv fun id hid => hno id (by simp [hid])
      parent := t.range.parent.trans h.parent
      locals := fun y hy => by
        rw [t.range.locals, ← h.locals y hy]
        exact Function.update_of_ne (Nat.ne_of_lt (Nat.lt_of_lt_of_le hy h.nextId)) ..
      nextId := Nat.le_trans h.nextId (Nat.le_of_lt t.range.nextId)
      kernelTop := t.range.kernelTop.trans h.kernelTop
      copies := by
        rw [t.range.child]
        refine List.rel_append (List.Forall₂.imp ?_
          ((List.forall₂_and_left _ _).mpr ⟨fun id hid => hid, h.copies⟩))
          (.cons (h.last h₀ hx t) .nil)
        rintro id new ⟨hid, hcopy⟩
        refine hcopy.turn t ?_ (hlowx id (hids id hid)) fun v hv => ?_
        · rw [hlx]
          exact (h₀.lt x hx).2
        · rw [hlx]
          exact fun hv' => hap id hid v ⟨hv, hv'⟩
      taken := fun v hv hpv => by
        rcases hsplit v hv with hv | hv
        · rw [hold v hv]
          exact t.evolved.owned _ (h.taken v hv hpv)
        · exact (h.last_page h₀ hx t hv hpv).2
      distinct := fun v w hv hw hpv hpw he => by
        rcases hsplit v hv with hv | hv <;> rcases hsplit w hw with hw | hw
        · rw [hold v hv, hold w hw] at he
          exact h.distinct v w hv hw hpv hpw he
        · exact absurd he (hne v w hv hw hpv hpw)
        · exact absurd he.symm (hne w v hw hv hpw hpv)
        · obtain ⟨id, hid, hsh, hvx⟩ := hv
          obtain ⟨id', hid', -, hwx⟩ := hw
          rw [List.mem_singleton.mp hid] at hsh hvx
          rw [List.mem_singleton.mp hid'] at hwx
          have hd := t.distinct (by rw [hlx]; exact hsh)
          rw [hlx] at hd
          exact hd v w hvx hwx (hpres.mp hpv) (hpres.mp hpw) he }

end Forked

end

/-! ## Processes that fork -/

end Lyre.Mmap
