import Lyre.Lib.Elf
import Lyre.Mm.Fork
import Lyre.Properties.Fork

/-!
# What a failed call leaves of the mappings

`Kept` says that no reference count and no global range that existed has changed. Unmapping a
pagemap, mapping given pages and loading a file are of that kind; a turn of `vmm_fork_pagemap` is
for a private range without a resource only, and otherwise what it does is never undone.

* `vmmForkPagemap_fails` — what a failed fork leaves, by the range at which memory runs out.
-/

namespace Lyre.Mmap

open Vmm

/-- No count has changed, and no global range that existed before. -/
structure Kept {σ : Type} (s s' : State σ) : Prop where
  nextId_le : s.nextId ≤ s'.nextId
  refcount : s'.refcount = s.refcount
  globals : ∀ g < s.nextId, s'.globals g = s.globals g

/-- Counts and lists of locals have grew at most. -/
structure Grew {σ : Type} (s s' : State σ) : Prop where
  nextId_le : s.nextId ≤ s'.nextId
  refcount : ∀ r, s.refcount r ≤ s'.refcount r
  locals : ∀ g < s.nextId, (s.globals g).locals.length ≤ (s'.globals g).locals.length

/-- A count has grew, or the list of locals of a global range below `n`. -/
def Touched {σ : Type} (n : Nat) (s s' : State σ) : Prop :=
  (∃ r, s.refcount r < s'.refcount r) ∨
    ∃ g < n, (s.globals g).locals.length < (s'.globals g).locals.length

section

variable {σ : Type} {s s₁ s₂ s' : State σ}

namespace Kept

theorem refl (s : State σ) : Kept s s := ⟨Nat.le_refl _, rfl, fun _ _ => rfl⟩

theorem trans (h : Kept s s₁) (h' : Kept s₁ s₂) : Kept s s₂ where
  nextId_le := Nat.le_trans h.nextId_le h'.nextId_le
  refcount := h'.refcount.trans h.refcount
  globals g hg := (h'.globals g (Nat.lt_of_lt_of_le hg h.nextId_le)).trans (h.globals g hg)

theorem of_eq (hn : s.nextId ≤ s'.nextId) (hr : s'.refcount = s.refcount)
    (hg : s'.globals = s.globals) : Kept s s' := ⟨hn, hr, fun g _ => congrFun hg g⟩

theorem grew (h : Kept s s') : Grew s s' where
  nextId_le := h.nextId_le
  refcount r := Nat.le_of_eq (congrFun h.refcount r).symm
  locals g hg := Nat.le_of_eq (by rw [h.globals g hg])

end Kept

namespace Grew

theorem trans (h : Grew s s₁) (h' : Grew s₁ s₂) : Grew s s₂ where
  nextId_le := Nat.le_trans h.nextId_le h'.nextId_le
  refcount r := Nat.le_trans (h.refcount r) (h'.refcount r)
  locals g hg := Nat.le_trans (h.locals g hg) (h'.locals g (Nat.lt_of_lt_of_le hg h.nextId_le))

end Grew

namespace Touched

variable {n : Nat}

theorem after (h : Grew s s₁) (h' : Touched n s₁ s₂) (hn : n ≤ s.nextId) : Touched n s s₂ := by
  rcases h' with ⟨r, hr⟩ | ⟨g, hg, hlen⟩
  · exact Or.inl ⟨r, Nat.lt_of_le_of_lt (h.refcount r) hr⟩
  · exact Or.inr ⟨g, hg, Nat.lt_of_le_of_lt (h.locals g (Nat.lt_of_lt_of_le hg hn)) hlen⟩

theorem before (h : Touched n s s₁) (h' : Grew s₁ s₂) (hn : n ≤ s₁.nextId) : Touched n s s₂ := by
  rcases h with ⟨r, hr⟩ | ⟨g, hg, hlen⟩
  · exact Or.inl ⟨r, Nat.lt_of_lt_of_le hr (h'.refcount r)⟩
  · exact Or.inr ⟨g, hg, Nat.lt_of_lt_of_le hlen (h'.locals g (Nat.lt_of_lt_of_le hg hn))⟩

end Touched

theorem heapAlloc_kept (s : State σ) : Kept s (heapAlloc s).2 :=
  Kept.of_eq (Nat.le_succ _) rfl rfl

theorem heapAlloc_some {n : Nat} (h : heapAlloc s = (some n, s')) :
    s.heapOk s.nextId = true ∧ n = s.nextId ∧ s' = { s with nextId := s.nextId + 1 } := by
  unfold heapAlloc at h
  split at h
  · next hok =>
    simp only [Prod.mk.injEq, Option.some.injEq] at h
    exact ⟨hok, h.1.symm, h.2.symm⟩
  · simp at h

theorem heapAlloc_none (h : heapAlloc s = (none, s')) :
    s.heapOk s.nextId = false ∧ s' = { s with nextId := s.nextId + 1 } := by
  unfold heapAlloc at h
  split at h
  · simp at h
  · next hok => exact ⟨by simpa using hok, (Prod.mk.inj h).2.symm⟩

/-! ## Unmapping -/

variable {A : PageAllocator σ} {pm : Nat}

theorem newPagemap_frame (s : State σ) : ∃ vm ranges,
    (newPagemap A s).2 = { s with nextId := s.nextId + 1, vm, ranges } := by
  unfold newPagemap
  split
  · next h =>
    obtain ⟨-, rfl⟩ := heapAlloc_none h
    exact ⟨_, s.ranges, rfl⟩
  · next h =>
    obtain ⟨-, -, rfl⟩ := heapAlloc_some h
    split
    · exact ⟨_, s.ranges, rfl⟩
    · exact ⟨_, _, rfl⟩

theorem newPagemap_kept (s : State σ) : Kept s (newPagemap A s).2 := by
  obtain ⟨vm, ranges, h⟩ := newPagemap_frame (A := A) s
  rw [h]
  exact Kept.of_eq (Nat.le_succ _) rfl rfl

theorem dropOrTrim_kept (s : State σ) (id b e : Nat) : Kept s (dropOrTrim A s pm id b e).2 := by
  obtain ⟨vm, freed, hrel⟩ :=
    releaseShadow_frame (A := A) (removeRange s pm id) (s.locals id).global
  have hglobals : (removeRange s pm id).globals = s.globals := rfl
  simp only [dropOrTrim, hglobals, hrel]
  split
  · split
    · split
      · split
        · exact Kept.of_eq (Nat.le_refl _) rfl rfl
        · exact Kept.of_eq (Nat.le_refl _) rfl rfl
      · exact Kept.of_eq (Nat.le_refl _) rfl rfl
    · exact Kept.of_eq (Nat.le_refl _) rfl rfl
  · exact Kept.of_eq (Nat.le_refl _) rfl rfl

theorem munmapSnip_kept (s : State σ) (id b e : Nat) : Kept s (munmapSnip A s pm id b e).2 := by
  unfold munmapSnip
  split
  · split
    · next h =>
      obtain ⟨-, rfl⟩ := heapAlloc_none h
      exact Kept.of_eq (Nat.le_succ _) rfl rfl
    · next h =>
      obtain ⟨-, -, rfl⟩ := heapAlloc_some h
      refine Kept.trans ?_ (dropOrTrim_kept _ id b e)
      exact Kept.of_eq (Nat.le_succ _) rfl rfl
  · have hunmap : Kept s (unmapPages A s pm b e) := Kept.of_eq (Nat.le_refl _) rfl rfl
    exact hunmap.trans (dropOrTrim_kept _ id b e)

theorem munmapLoop_kept {stop : Nat} : ∀ {fuel i : Nat} {s : State σ} {ok : Bool},
    munmapLoop A pm stop fuel i s = some (ok, s') → Kept s s'
  | 0, _, _, _, h => by simp [munmapLoop] at h
  | fuel + 1, i, s, ok, h => by
    rw [munmapLoop] at h
    split at h
    · split at h
      · exact munmapLoop_kept h
      · next range _ =>
        have hsnip : Kept s (munmapSnip A s pm range.range i _).2 := munmapSnip_kept s range.range i
          (snipLoop (s.locals range.range).stop stop loopFuel i)
        simp only at h
        split at h
        · next heq =>
          rw [heq] at hsnip
          simp only [Option.some.injEq, Prod.mk.injEq] at h
          exact h.2 ▸ hsnip
        · next heq =>
          rw [heq] at hsnip
          exact hsnip.trans (munmapLoop_kept h)
    · simp only [Option.some.injEq, Prod.mk.injEq] at h
      exact h.2 ▸ Kept.refl s

theorem munmap_kept {addr length : Nat} {ok : Bool} (h : munmap A s pm addr length = some (ok, s')) :
    Kept s s' := by
  unfold munmap at h
  split at h
  · simp only [Option.some.injEq, Prod.mk.injEq] at h
    exact h.2 ▸ Kept.of_eq (Nat.le_refl _) rfl rfl
  · exact munmapLoop_kept h

theorem destroyLoop_kept : ∀ {fuel : Nat} {s : State σ},
    destroyLoop A pm fuel s = some s' → Kept s s'
  | 0, _, h => by simp [destroyLoop] at h
  | fuel + 1, s, h => by
    rw [destroyLoop] at h
    split at h
    · exact Option.some.inj h ▸ Kept.refl s
    · split at h
      · simp at h
      · next hm => exact (munmap_kept hm).trans (destroyLoop_kept h)

theorem vmmDestroyPagemap_kept {fuel : Nat} (h : vmmDestroyPagemap A fuel s pm = some s') :
    Kept s s' := by
  obtain ⟨s₁, h₁, rfl⟩ := Option.map_eq_some_iff.mp h
  exact (destroyLoop_kept h₁).trans (Kept.of_eq (Nat.le_refl _) rfl rfl)

/-! ## Copying a pagemap -/

variable {fuel p c id : Nat}

theorem forkPush_frame (s : State σ) (c new : Nat) (pages : Bool × Vmm.State σ) :
    ∃ vm ranges, (forkPush s c new pages).2 = { s with vm, ranges } := by
  unfold forkPush
  split
  · exact ⟨_, s.ranges, rfl⟩
  · exact ⟨_, _, rfl⟩

/-- The counts with one more reference to the resource, if there is one. -/
def counted (refcount : Nat → Nat) : Option Nat → Nat → Nat
  | none => refcount
  | some r => Function.update refcount r (refcount r + 1)

/-- A turn of the loop that gets memory for its local range, up to its end or to `cleanup`. -/
structure ForkTurn (s s' : State σ) (id : Nat) : Prop where
  nextId_lt : s.nextId < s'.nextId
  locals : ∀ x < s.nextId, s'.locals x = s.locals x
  refcount : s'.refcount = counted s.refcount (globalOf s id).res
  others : ∀ g < s.nextId, g ≠ (s.locals id).global → s'.globals g = s.globals g
  own : (s.locals id).global < s.nextId → s'.globals (s.locals id).global = { globalOf s id with
    locals := (globalOf s id).locals ++
      if (s.locals id).flags.shared then [s.nextId] else [] }

/-- The state in which the turn finds its range shared or not. -/
def counting (s : State σ) (c id : Nat) : State σ :=
  withLocal s c id (counted s.refcount (globalOf s id).res)

theorem forkRange_alloc (hok : s.heapOk s.nextId = true) :
    forkRange A s p c id =
      if (s.locals id).flags.shared then
        some (forkShared A (counting s c id) p c s.nextId (s.locals id))
      else forkPrivate A (counting s c id) p c s.nextId (s.locals id) := by
  unfold forkRange heapAlloc counting globalOf
  rw [if_pos hok]
  cases hres : (s.globals (s.locals id).global).res with
  | none => simp [hres, withLocal, setLocal, counted]
  | some r => simp [hres, withLocal, setLocal, counted]

theorem forkShared_frame (hsh : (s.locals id).flags.shared = true) :
    ForkTurn s (forkShared A (counting s c id) p c s.nextId (s.locals id)).2 id := by
  obtain ⟨vm, ranges, h⟩ := forkPush_frame
    { counting s c id with
      globals := Function.update s.globals (s.locals id).global
        { globalOf s id with locals := (globalOf s id).locals ++ [s.nextId] } } c s.nextId
    (pageLoop (forkSharedPage A p c) (s.locals id).stop loopFuel (s.locals id).base (true, s.vm))
  have h : (forkShared A (counting s c id) p c s.nextId (s.locals id)).2 = _ := h
  rw [h]
  exact
    { nextId_lt := Nat.lt_succ_self _
      locals := fun x hx => Function.update_of_ne (Nat.ne_of_lt hx) ..
      refcount := rfl
      others := fun g _ hg => Function.update_of_ne hg ..
      own := fun _ => by simp [hsh] }

/-- Once the resource is counted, a turn for a private range changes new objects only. -/
theorem forkPrivate_kept {new : Nat} {l : LocalRange} {ok : Bool}
    (h : forkPrivate A s p c new l = some (ok, s')) : Kept s s' ∧ s'.locals = s.locals := by
  unfold forkPrivate at h
  split at h
  · next heap =>
    obtain ⟨-, rfl⟩ := heapAlloc_none heap
    simp only [Option.some.injEq, Prod.mk.injEq] at h
    obtain ⟨-, rfl⟩ := h
    exact ⟨heapAlloc_kept s, rfl⟩
  · next newGlobal s₁ heap =>
    obtain ⟨-, rfl, rfl⟩ := heapAlloc_some heap
    obtain ⟨vm, ranges, hnew⟩ := newPagemap_frame (A := A) { s with nextId := s.nextId + 1 }
    split at h
    · next s₂ hp =>
      simp only [Option.some.injEq, Prod.mk.injEq] at h
      obtain ⟨-, rfl⟩ := h
      have hs₂ : s₂ = _ := (congrArg Prod.snd hp).symm.trans hnew
      subst hs₂
      exact ⟨Kept.of_eq (Nat.le_add_right _ 2) rfl rfl, rfl⟩
    · next shadow s₂ hp =>
      have hs₂ : s₂ = _ := (congrArg Prod.snd hp).symm.trans hnew
      subst hs₂
      split at h
      · obtain ⟨vm', ranges', hpush⟩ := forkPush_frame (σ := σ) _ _ _ _
        have hs' := (congrArg Prod.snd (Option.some.inj h)).symm.trans hpush
        have hs' : s' = _ := hs'
        subst hs'
        refine ⟨⟨Nat.le_add_right _ 2, rfl, fun g hg => ?_⟩, rfl⟩
        exact Function.update_of_ne (Nat.ne_of_lt hg) ..
      · simp at h

theorem forkPrivate_frame {ok : Bool} (hsh : (s.locals id).flags.shared = false)
    (h : forkPrivate A (counting s c id) p c s.nextId (s.locals id) = some (ok, s')) :
    ForkTurn s s' id := by
  obtain ⟨hkept, hlocals⟩ := forkPrivate_kept h
  have hglobals : ∀ g < s.nextId, s'.globals g = s.globals g := fun g hg =>
    hkept.globals g (Nat.lt_succ_of_lt hg)
  exact
    { nextId_lt := hkept.nextId_le
      locals := fun x hx => by
        rw [hlocals]
        exact Function.update_of_ne (Nat.ne_of_lt hx) ..
      refcount := hkept.refcount
      others := fun g hlt _ => hglobals g hlt
      own := fun hlt => by
        rw [hglobals _ hlt]
        simp [hsh, globalOf] }

/-- A turn finds no memory for its local range, or is a `ForkTurn`. -/
theorem forkRange_frame {ok : Bool} (h : forkRange A s p c id = some (ok, s')) :
    (s.heapOk s.nextId = false ∧ ok = false ∧ Kept s s') ∨
      (s.heapOk s.nextId = true ∧ ForkTurn s s' id) := by
  cases hok : s.heapOk s.nextId with
  | false =>
    simp only [forkRange, heapAlloc, hok, Bool.false_eq_true, if_false, Option.some.injEq,
      Prod.mk.injEq] at h
    exact Or.inl ⟨rfl, h.1.symm, h.2 ▸ heapAlloc_kept s⟩
  | true =>
    rw [forkRange_alloc hok] at h
    refine Or.inr ⟨rfl, ?_⟩
    cases hsh : (s.locals id).flags.shared with
    | true =>
      rw [if_pos hsh] at h
      have hs' := congrArg Prod.snd (Option.some.inj h)
      simp only at hs'
      exact hs' ▸ forkShared_frame hsh
    | false =>
      rw [if_neg (by simp [hsh])] at h
      exact forkPrivate_frame hsh h

/-! ## Ranges whose copy leaves no trace -/

/-- The range is private and has no resource. -/
def plain (s : State σ) (id : Nat) : Bool :=
  !(s.locals id).flags.shared && (globalOf s id).res.isNone

/-- The range and its global range are among the first `n` objects. -/
def Allocated (n : Nat) (s : State σ) (id : Nat) : Prop := id < n ∧ (s.locals id).global < n

namespace ForkTurn

theorem kept (h : ForkTurn s s' id) (hp : plain s id = true) : Kept s s' := by
  simp only [plain, Bool.and_eq_true, Bool.not_eq_true', Option.isNone_iff_eq_none] at hp
  obtain ⟨hsh, hres⟩ := hp
  refine ⟨Nat.le_of_lt h.nextId_lt, ?_, fun g hg => ?_⟩
  · rw [h.refcount, hres]
    rfl
  · by_cases he : g = (s.locals id).global
    · subst he
      rw [h.own hg]
      simp [hsh, globalOf]
    · exact h.others g hg he

theorem grew (h : ForkTurn s s' id) : Grew s s' where
  nextId_le := Nat.le_of_lt h.nextId_lt
  refcount r := by
    rw [h.refcount]
    cases (globalOf s id).res with
    | none => exact Nat.le_refl _
    | some r' =>
      by_cases he : r = r'
      · subst he
        simp [counted]
      · exact Nat.le_of_eq (Function.update_of_ne he ..).symm
  locals g hg := by
    by_cases he : g = (s.locals id).global
    · subst he
      rw [h.own hg]
      simp [globalOf]
    · exact Nat.le_of_eq (by rw [h.others g hg he])

theorem touched {n : Nat} (h : ForkTurn s s' id) (hp : plain s id = false)
    (hg : (s.locals id).global < n) (hn : n ≤ s.nextId) : Touched n s s' := by
  cases hres : (globalOf s id).res with
  | some r =>
    refine Or.inl ⟨r, ?_⟩
    rw [h.refcount, hres]
    simp [counted]
  | none =>
    have hsh : (s.locals id).flags.shared = true := by simpa [plain, hres] using hp
    refine Or.inr ⟨_, hg, ?_⟩
    rw [h.own (Nat.lt_of_lt_of_le hg hn)]
    simp [hsh, globalOf]

end ForkTurn

theorem Allocated.of_locals {n : Nat} (ha : Allocated n s id) (hn : n ≤ s.nextId)
    (hl : ∀ x < s.nextId, s'.locals x = s.locals x) : Allocated n s' id := by
  obtain ⟨hid, hg⟩ := ha
  refine ⟨hid, ?_⟩
  rw [hl id (Nat.lt_of_lt_of_le hid hn)]
  exact hg

theorem plain_congr {n : Nat} (h : Kept s s') (hl : ∀ x < s.nextId, s'.locals x = s.locals x)
    (ha : Allocated n s id) (hn : n ≤ s.nextId) : plain s' id = plain s id := by
  obtain ⟨hid, hg⟩ := ha
  unfold plain globalOf
  rw [hl id (Nat.lt_of_lt_of_le hid hn), h.globals _ (Nat.lt_of_lt_of_le hg hn)]

theorem forkRange_grew {ok : Bool} (h : forkRange A s p c id = some (ok, s')) : Grew s s' := by
  rcases forkRange_frame h with ⟨-, -, hkept⟩ | ⟨-, hturn⟩
  · exact hkept.grew
  · exact hturn.grew

theorem forkRanges_grew {ids : List Nat} {ok : Bool}
    (h : forkRanges A p c ids s = some (ok, s')) : Grew s s' := by
  induction ids generalizing s with
  | nil =>
    simp only [forkRanges, Option.some.injEq, Prod.mk.injEq] at h
    exact h.2 ▸ (Kept.refl s).grew
  | cons id rest ih =>
    rw [forkRanges] at h
    split at h
    · simp at h
    · next hr =>
      simp only [Option.some.injEq, Prod.mk.injEq] at h
      exact h.2 ▸ forkRange_grew hr
    · next hr => exact (forkRange_grew hr).trans (ih h)

theorem forkRanges_append (ids ids' : List Nat) :
    forkRanges A p c (ids ++ ids') s =
      match forkRanges A p c ids s with
      | some (true, s) => forkRanges A p c ids' s
      | r => r := by
  induction ids generalizing s with
  | nil => rfl
  | cons id rest ih =>
    simp only [List.cons_append, forkRanges]
    cases forkRange A s p c id with
    | none => rfl
    | some r =>
      obtain ⟨ok, s₁⟩ := r
      cases ok with
      | false => rfl
      | true => exact ih

theorem forkRanges_plain {n : Nat} {ids : List Nat} {ok : Bool} (hn : n ≤ s.nextId)
    (hids : ∀ id ∈ ids, Allocated n s id ∧ plain s id = true)
    (h : forkRanges A p c ids s = some (ok, s')) :
    Kept s s' ∧ (ok = true → ∀ x < s.nextId, s'.locals x = s.locals x) := by
  induction ids generalizing s with
  | nil =>
    simp only [forkRanges, Option.some.injEq, Prod.mk.injEq] at h
    obtain ⟨-, rfl⟩ := h
    exact ⟨Kept.refl s, fun _ _ _ => rfl⟩
  | cons id rest ih =>
    obtain ⟨-, hplain⟩ := hids id List.mem_cons_self
    rw [forkRanges] at h
    split at h
    · simp at h
    · next hr =>
      simp only [Option.some.injEq, Prod.mk.injEq] at h
      obtain ⟨rfl, rfl⟩ := h
      refine ⟨?_, fun hc => absurd hc (by decide)⟩
      rcases forkRange_frame hr with ⟨-, -, hkept⟩ | ⟨-, hturn⟩
      · exact hkept
      · exact hturn.kept hplain
    · next s₁ hr =>
      have hturn : ForkTurn s s₁ id := by
        rcases forkRange_frame hr with ⟨-, hok, -⟩ | ⟨-, hturn⟩
        · exact absurd hok (by decide)
        · exact hturn
      have hkept := hturn.kept hplain
      have hrest : ∀ id ∈ rest, Allocated n s₁ id ∧ plain s₁ id = true := fun x hx => by
        obtain ⟨ha, hp⟩ := hids x (List.mem_cons_of_mem id hx)
        exact ⟨ha.of_locals hn hturn.locals, (plain_congr hkept hturn.locals ha hn).trans hp⟩
      obtain ⟨hkept', hlocals⟩ := ih (Nat.le_trans hn hkept.nextId_le) hrest h
      refine ⟨hkept.trans hkept', fun hok x hx => ?_⟩
      exact (hlocals hok x (Nat.lt_trans hx hturn.nextId_lt)).trans (hturn.locals x hx)

/-! ## A fork that fails -/

/-- Memory runs out before a range is copied that is shared or has a resource: no later than where
the local range for the first of them is allocated. -/
def FailsEarly (A : PageAllocator σ) (s : State σ) (p : Nat) : Prop :=
  match newPagemap A s with
  | (none, _) => True
  | (some c, s) =>
    match forkRanges A p c ((s.ranges p).takeWhile (plain s)) s with
    | none => False
    | some (false, _) => True
    | some (true, s') =>
      (s.ranges p).dropWhile (plain s) ≠ [] ∧ s'.heapOk s'.nextId = false

theorem forkRanges_fails {n : Nat} (hn : n ≤ s.nextId) (ha : ∀ id ∈ s.ranges p, Allocated n s id)
    (h : forkRanges A p c (s.ranges p) s = some (false, s')) :
    match forkRanges A p c ((s.ranges p).takeWhile (plain s)) s with
    | none => False
    | some (false, _) => Kept s s'
    | some (true, s₁) =>
      (s.ranges p).dropWhile (plain s) ≠ [] ∧
        if s₁.heapOk s₁.nextId = false then Kept s s' else Touched n s s' := by
  have hplain : ∀ id ∈ (s.ranges p).takeWhile (plain s), Allocated n s id ∧ plain s id = true :=
    fun id hid =>
      ⟨ha id ((List.takeWhile_sublist _).mem hid), List.all_eq_true.mp List.all_takeWhile id hid⟩
  rw [← List.takeWhile_append_dropWhile (p := plain s) (l := s.ranges p), forkRanges_append] at h
  split
  · next hpre => simp [hpre] at h
  · next hpre =>
    simp only [hpre, Option.some.injEq, Prod.mk.injEq, true_and] at h
    exact h ▸ (forkRanges_plain hn hplain hpre).1
  · next s₁ hpre =>
    simp only [hpre] at h
    obtain ⟨hkept, hlocals⟩ := forkRanges_plain hn hplain hpre
    cases hdrop : (s.ranges p).dropWhile (plain s) with
    | nil => simp [hdrop, forkRanges] at h
    | cons id rest =>
      refine ⟨List.cons_ne_nil _ _, ?_⟩
      have hmem : id ∈ (s.ranges p).dropWhile (plain s) := by simp [hdrop]
      have hid : Allocated n s id := ha id ((List.dropWhile_sublist _).mem hmem)
      have hnp : plain s₁ id = false := by
        rw [plain_congr hkept (hlocals rfl) hid hn]
        have := List.head_dropWhile_not (plain s) (l := s.ranges p) (by simp [hdrop])
        simpa [hdrop] using this
      have hglobal : (s₁.locals id).global < n := (hid.of_locals hn (hlocals rfl)).2
      have hn₁ : n ≤ s₁.nextId := Nat.le_trans hn hkept.nextId_le
      rw [hdrop, forkRanges] at h
      split at h
      · simp at h
      · next s₂ hr =>
        simp only [Option.some.injEq, Prod.mk.injEq, true_and] at h
        subst h
        rcases forkRange_frame hr with ⟨hoom, -, hkept'⟩ | ⟨hok, hturn⟩
        · rw [if_pos hoom]
          exact hkept.trans hkept'
        · rw [if_neg (by simp [hok])]
          exact (hturn.touched hnp hglobal hn₁).after hkept.grew hn
      · next s₂ hr =>
        rcases forkRange_frame hr with ⟨-, hok, -⟩ | ⟨hok, hturn⟩
        · exact absurd hok (by decide)
        · rw [if_neg (by simp [hok])]
          have htouched := (hturn.touched hnp hglobal hn₁).before (forkRanges_grew h)
            (Nat.le_trans hn₁ (Nat.le_of_lt hturn.nextId_lt))
          exact htouched.after hkept.grew hn

theorem failsEarly_none (hp : newPagemap A s = (none, s')) : FailsEarly A s p := by
  rw [FailsEarly, hp]
  trivial

/-- With a new pagemap, it is the ranges before the first that is not plain that decide. -/
theorem failsEarly_some (hp : newPagemap A s = (some c, s')) : FailsEarly A s p ↔
    match forkRanges A p c ((s'.ranges p).takeWhile (plain s')) s' with
    | none => False
    | some (false, _) => True
    | some (true, s₁) =>
      (s'.ranges p).dropWhile (plain s') ≠ [] ∧ s₁.heapOk s₁.nextId = false := by
  rw [FailsEarly, hp]

theorem vmmForkPagemap_fails {n : Nat} (hn : n ≤ s.nextId) (ha : ∀ id ∈ s.ranges p, Allocated n s id)
    (h : vmmForkPagemap A fuel s p = some (none, s')) :
    (FailsEarly A s p → Kept s s') ∧ (¬ FailsEarly A s p → Touched n s s') := by
  unfold vmmForkPagemap at h
  have hnew := newPagemap_kept (A := A) s
  split at h
  · next s₁ hp =>
    simp only [Option.some.injEq, Prod.mk.injEq, true_and] at h
    subst h
    rw [hp] at hnew
    exact ⟨fun _ => hnew, fun hc => absurd (failsEarly_none hp) hc⟩
  · next c s₁ hp =>
    have ha₁ : ∀ id ∈ s₁.ranges p, Allocated n s₁ id := by
      obtain ⟨vm, -, rfl⟩ := newPagemap_some hp
      intro id hid
      by_cases he : p = c
      · simp [he] at hid
      · have hid : id ∈ s.ranges p := by simpa [Function.update_of_ne he] using hid
        exact ha id hid
    rw [hp] at hnew
    split at h
    · simp at h
    · simp at h
    · next s₂ hr =>
      obtain ⟨s₃, hd, h⟩ := Option.map_eq_some_iff.mp h
      simp only [Prod.mk.injEq, true_and] at h
      subst h
      have hdestroy := vmmDestroyPagemap_kept hd
      have hn₁ := Nat.le_trans hn hnew.nextId_le
      have hfails := forkRanges_fails hn₁ ha₁ hr
      split at hfails
      · exact absurd hfails id
      · next hpre =>
        rw [failsEarly_some hp, hpre]
        exact ⟨fun _ => (hnew.trans hfails).trans hdestroy, fun hc => absurd trivial hc⟩
      · next s₄ hpre =>
        rw [failsEarly_some hp, hpre]
        obtain ⟨hdrop, hfails⟩ := hfails
        split at hfails
        · next hoom =>
          exact ⟨fun _ => (hnew.trans hfails).trans hdestroy, fun hc => absurd ⟨hdrop, hoom⟩ hc⟩
        · next hoom =>
          refine ⟨fun hc => absurd hc.2 hoom, fun _ => ?_⟩
          have hn₂ := Nat.le_trans hn₁ (forkRanges_grew hr).nextId_le
          exact (hfails.before hdestroy.grew hn₂).after hnew.grew hn

theorem vmmForkPagemap_grew {r : Option Nat} (h : vmmForkPagemap A fuel s p = some (r, s')) :
    Grew s s' := by
  unfold vmmForkPagemap at h
  have hnew := newPagemap_kept (A := A) s
  split at h
  · next hp =>
    rw [hp] at hnew
    exact (Prod.mk.inj (Option.some.inj h)).2 ▸ hnew.grew
  · next hp =>
    rw [hp] at hnew
    split at h
    · simp at h
    · next hr => exact (Prod.mk.inj (Option.some.inj h)).2 ▸ hnew.grew.trans (forkRanges_grew hr)
    · next hr =>
      obtain ⟨s₃, hd, h⟩ := Option.map_eq_some_iff.mp h
      rw [← (Prod.mk.inj h).2]
      exact (hnew.grew.trans (forkRanges_grew hr)).trans (vmmDestroyPagemap_kept hd).grew

theorem vmmForkPagemap_succeeds (h : vmmForkPagemap A fuel s p = some (some c, s')) :
    ¬ FailsEarly A s p := by
  unfold vmmForkPagemap at h
  split at h
  · simp at h
  · next c' s₁ hp =>
    split at h
    · simp at h
    · next s₂ hr =>
      rw [← List.takeWhile_append_dropWhile (p := plain s₁) (l := s₁.ranges p),
        forkRanges_append] at hr
      rw [failsEarly_some hp]
      split
      · exact id
      · next hpre => simp [hpre] at hr
      · next s₃ hpre =>
        rintro ⟨hdrop, hoom⟩
        simp only [hpre] at hr
        obtain ⟨id, rest, hcons⟩ := List.exists_cons_of_ne_nil hdrop
        rw [hcons, forkRanges] at hr
        simp [forkRange, heapAlloc, hoom] at hr
    · obtain ⟨s₃, -, h⟩ := Option.map_eq_some_iff.mp h
      simp at h

/-! ## Loading a file -/

section Loading

variable (A : RunAllocator σ)

theorem pmmAllocRun_kept (s : State σ) (pages : Nat) : Kept s (pmmAllocRun A s pages).2 := by
  unfold pmmAllocRun
  simp only
  split
  · exact Kept.of_eq (Nat.le_refl _) rfl rfl
  · exact Kept.of_eq (Nat.le_refl _) rfl rfl

variable {A}

theorem mmapPageInRange_kept {A : PageAllocator σ} {global virt phys : Nat} {prot : Prot} {ok : Bool}
    (h : mmapPageInRange A s global virt phys prot = some (ok, s')) : Kept s s' := by
  unfold mmapPageInRange at h
  split at h
  · simp only [Option.some.injEq, Prod.mk.injEq] at h
    exact h.2 ▸ Kept.of_eq (Nat.le_refl _) rfl rfl
  · obtain ⟨vm, rfl⟩ := mapInLocals_frame h
    exact Kept.of_eq (Nat.le_refl _) rfl rfl

theorem mmapRangePages_kept {global virt phys length : Nat} {prot : Prot} :
    ∀ {fuel i : Nat} {s : State σ} {ok : Bool},
      mmapRangePages A global virt phys length prot fuel i s = some (ok, s') → Kept s s'
  | 0, _, _, _, h => by simp [mmapRangePages] at h
  | fuel + 1, i, s, ok, h => by
    rw [mmapRangePages] at h
    split at h
    · split at h
      · simp at h
      · next hp =>
        simp only [Option.some.injEq, Prod.mk.injEq] at h
        exact h.2 ▸ mmapPageInRange_kept hp
      · next hp => exact (mmapPageInRange_kept hp).trans (mmapRangePages_kept h)
    · simp only [Option.some.injEq, Prod.mk.injEq] at h
      exact h.2 ▸ Kept.refl s

theorem mmapRange_kept {pagemap : Option Nat} {virt phys length : Nat} {prot : Prot}
    {flags : MapFlags} {ok : Bool}
    (h : mmapRange A s pagemap virt phys length prot flags = some (ok, s')) : Kept s s' := by
  simp only [mmapRange] at h
  split at h
  · next heap =>
    obtain ⟨-, rfl⟩ := heapAlloc_none heap
    simp only [Option.some.injEq, Prod.mk.injEq] at h
    exact h.2 ▸ Kept.of_eq (Nat.le_succ _) rfl rfl
  · next global s₁ heap =>
    obtain ⟨-, rfl, rfl⟩ := heapAlloc_some heap
    have h₁ := heapAlloc_kept s
    have hnew := newPagemap_kept (A := A.toPageAllocator) { s with nextId := s.nextId + 1 }
    split at h
    · next hp =>
      simp only [Option.some.injEq, Prod.mk.injEq] at h
      obtain ⟨-, rfl⟩ := h
      rw [hp] at hnew
      exact h₁.trans hnew
    · next shadow s₂ hp =>
      rw [hp] at hnew
      have h₂ : Kept s s₂ := h₁.trans hnew
      split at h
      · next heap =>
        obtain ⟨-, rfl⟩ := heapAlloc_none heap
        obtain ⟨s₃, hd, h⟩ := Option.map_eq_some_iff.mp h
        simp only [Prod.mk.injEq] at h
        have herr : Kept s₂ (setErrno { s₂ with nextId := s₂.nextId + 1 } .enomem) :=
          Kept.of_eq (Nat.le_succ _) rfl rfl
        exact h.2 ▸ (h₂.trans herr).trans (vmmDestroyPagemap_kept hd)
      · next id s₃ heap =>
        obtain ⟨-, rfl, rfl⟩ := heapAlloc_some heap
        unfold mmapRangeAt at h
        split at h
        · simp at h
        · next pm =>
          have hput : ∀ (g : GlobalRange) (l : LocalRange), Kept s
              (pushRange (setLocal { s₂ with
                nextId := s₂.nextId + 1
                globals := Function.update s₂.globals s.nextId g } s₂.nextId l) pm s₂.nextId) :=
            fun g l => ⟨Nat.le_trans h₂.nextId_le (Nat.le_succ _), h₂.refcount, fun x hx =>
              (Function.update_of_ne (Nat.ne_of_lt hx) ..).trans (h₂.globals x hx)⟩
          simp only at h
          split at h
          · simp at h
          · next hp =>
            simp only [Option.some.injEq, Prod.mk.injEq] at h
            exact h.2 ▸ (hput _ _).trans (mmapRangePages_kept hp)
          · next s₄ hp =>
            obtain ⟨s₅, hd, h⟩ := Option.map_eq_some_iff.mp h
            simp only [Prod.mk.injEq] at h
            have hfree : Kept s₄ (freeLocal s₄ s₂.nextId) := Kept.of_eq (Nat.le_refl _) rfl rfl
            exact h.2 ▸ (((hput _ _).trans (mmapRangePages_kept hp)).trans hfree).trans
              (vmmDestroyPagemap_kept hd)

open Elf

variable {pagemap : Option Nat} {file : File} {loadBase : Nat}

theorem readInto_kept (s : State σ) (file : File) (phys offset count : Nat) :
    Kept s (readInto s file phys offset count).2 := by
  unfold readInto
  split <;> exact Kept.of_eq (Nat.le_refl _) rfl rfl

theorem loadSegment_kept {phdr : Phdr} {ok : Bool}
    (h : loadSegment A s pagemap file loadBase phdr = some (ok, s')) : Kept s s' := by
  simp only [loadSegment] at h
  have halloc := pmmAllocRun_kept A s (divRoundup (u64 (phdr.memsz + phdr.vaddr % pageSize)) pageSize)
  split at h
  · next hp =>
    simp only [Option.some.injEq, Prod.mk.injEq] at h
    rw [hp] at halloc
    exact h.2 ▸ halloc
  · next s₁ hp =>
    rw [hp] at halloc
    have h₁ : Kept s s₁ := halloc
    split at h
    · simp at h
    · next hm =>
      simp only [Option.some.injEq, Prod.mk.injEq] at h
      exact h.2 ▸ (h₁.trans (mmapRange_kept hm)).trans (Kept.of_eq (Nat.le_refl _) rfl rfl)
    · next s₂ hm =>
      have hread := readInto_kept s₂ file
      obtain rfl := (congrArg Prod.snd (Option.some.inj h) : _ = s')
      exact (h₁.trans (mmapRange_kept hm)).trans (hread _ _ _)

theorem loadPhdr_kept {phdr : Phdr} {acc : Loaded} {r : Option Loaded}
    (h : loadPhdr A s pagemap file loadBase phdr acc = some (r, s')) : Kept s s' := by
  unfold loadPhdr at h
  split at h
  · obtain ⟨⟨ok, s₁⟩, hl, h⟩ := Option.map_eq_some_iff.mp h
    simp only [Prod.mk.injEq] at h
    exact h.2 ▸ loadSegment_kept hl
  · split at h
    · simp only [Option.some.injEq, Prod.mk.injEq] at h
      exact h.2 ▸ Kept.refl s
    · split at h
      · split at h
        · next heap =>
          obtain ⟨-, rfl⟩ := heapAlloc_none heap
          simp only [Option.some.injEq, Prod.mk.injEq] at h
          exact h.2 ▸ heapAlloc_kept s
        · next heap =>
          obtain ⟨-, -, rfl⟩ := heapAlloc_some heap
          simp only [Option.some.injEq, Prod.mk.injEq] at h
          exact h.2 ▸ heapAlloc_kept s
      · simp only [Option.some.injEq, Prod.mk.injEq] at h
        exact h.2 ▸ Kept.refl s

theorem loadPhdrs_kept {e : Ehdr} : ∀ {k i : Nat} {acc : Loaded} {s : State σ} {r : Option Loaded},
    loadPhdrs A pagemap file e loadBase k i acc s = some (r, s') → Kept s s'
  | 0, _, _, s, _, h => by
    simp only [loadPhdrs, Option.some.injEq, Prod.mk.injEq] at h
    exact h.2 ▸ Kept.refl s
  | k + 1, i, acc, s, r, h => by
    rw [loadPhdrs] at h
    split at h
    · simp only [Option.some.injEq, Prod.mk.injEq] at h
      exact h.2 ▸ Kept.refl s
    · split at h
      · simp at h
      · next hl =>
        simp only [Option.some.injEq, Prod.mk.injEq] at h
        exact h.2 ▸ loadPhdr_kept hl
      · next hl => exact (loadPhdr_kept hl).trans (loadPhdrs_kept h)

theorem elfLoad_kept {r : Option Loaded} (h : elfLoad A s pagemap file loadBase = some (r, s')) :
    Kept s s' := by
  unfold elfLoad at h
  split at h
  · simp only [Option.some.injEq, Prod.mk.injEq] at h
    exact h.2 ▸ Kept.refl s
  · split at h
    · obtain ⟨⟨r', s₁⟩, hl, h⟩ := Option.map_eq_some_iff.mp h
      simp only [Prod.mk.injEq] at h
      exact h.2 ▸ loadPhdrs_kept hl
    · simp only [Option.some.injEq, Prod.mk.injEq] at h
      exact h.2 ▸ Kept.of_eq (Nat.le_refl _) rfl rfl

end Loading

end

end Lyre.Mmap
