import Lyre.Properties.MmapRanges

/-!
# Taking down a pagemap

`vmm_destroy_pagemap` unmaps the first range of the list until the list is empty. A range that is
not empty goes in one turn and takes no other with it. An empty one never goes: `munmap` of no
bytes is refused, and the loop does not look at the result.

`mprotect` leaves an empty range behind whenever it changes a range as a whole, so the loop comes
to an end exactly for the processes that never had that done.
-/

namespace Lyre.Mmap

open Vmm Infra

section

variable {σ : Type} {A : PageAllocator σ} {s s' : State σ} {pm : Nat}

/-! ## One turn -/

/-- The list, with a page to spare behind every range. -/
structure Roomy (s : State σ) (pm : Nat) : Prop extends Ordered s pm where
  fits : ∀ x ∈ s.ranges pm, Fits (s.locals x).base (s.locals x).length

theorem addr2range_head {id v : Nat} {rest : List Nat} (hr : s.ranges pm = id :: rest)
    (hc : (s.locals id).covers v = true) : ∃ r, addr2range s pm v = some r ∧ r.range = id := by
  have hfind : (s.ranges pm).find? (fun id => (s.locals id).covers v) = some id := by
    rw [hr]
    exact List.find?_cons_of_pos (p := fun id => (s.locals id).covers v) hc
  unfold addr2range
  rw [hfind]
  exact ⟨_, rfl, rfl⟩

/-- `munmap` of the first range, which is not empty, removes that range and no other. -/
theorem munmap_first {id : Nat} {rest : List Nat} (h : Roomy s pm) (hr : s.ranges pm = id :: rest)
    (hne : (s.locals id).length ≠ 0) :
    ∃ s', munmap A s pm (s.locals id).base (s.locals id).length = some (true, s') ∧
      s'.ranges pm = rest ∧ (∀ x, x ≠ id → s'.locals x = s.locals x) ∧ s'.nextId = s.nextId ∧
      s'.mmapAnonBase = s.mmapAnonBase := by
  have hid : id ∈ s.ranges pm := by rw [hr]; exact List.mem_cons_self
  have ht := h.tidy id hid
  have hfits := h.fits id hid
  unfold Fits at hfits
  have hhas : (s.locals id).Has (s.locals id).base := ⟨Nat.le_refl _, by omega⟩
  have hstop : u64 ((s.locals id).base + alignUp (s.locals id).length pageSize)
      = (s.locals id).base + (s.locals id).length := by
    rw [alignUp_of_dvd ht.length (by omega), u64_of_lt (by omega)]
  have hlt : (s.locals id).base < (s.locals id).base + (s.locals id).length := by omega
  obtain ⟨r, hfind, rfl⟩ := addr2range_head hr (ht.covers_iff.mpr hhas)
  obtain ⟨hsnip, hS⟩ := snip_of_found ht ht.base (Nat.dvd_add ht.base ht.length) hlt hhas
  rw [Nat.min_self] at hsnip hS
  have hdrop : munmapSnip A s pm r.range (s.locals r.range).base
      ((s.locals r.range).base + (s.locals r.range).length)
      = (true, dropWhole A (unmapPages A s pm (s.locals r.range).base
          ((s.locals r.range).base + (s.locals r.range).length)) pm r.range
          (s.locals r.range).base ((s.locals r.range).base + (s.locals r.range).length)) := by
    rw [munmapSnip, if_neg (by rw [needsSplit_iff hS]; omega)]
    exact dropOrTrim_whole hS rfl rfl
  obtain ⟨hranges, hothers, hnext, -, -, hanon⟩ :=
    dropWhole_frame (A := A) (unmapPages A s pm (s.locals r.range).base
      ((s.locals r.range).base + (s.locals r.range).length)) pm r.range (s.locals r.range).base
      ((s.locals r.range).base + (s.locals r.range).length)
  refine ⟨_, ?_, ?_, fun x hx => (hothers x hx).1, hnext, hanon⟩
  · -- the cursor ends one page behind the interval
    have hend : ¬ u64 ((s.locals r.range).base + (s.locals r.range).length + pageSize)
        < (s.locals r.range).base + (s.locals r.range).length := by
      rw [u64_of_lt hfits]
      omega
    rw [munmap, if_neg hne, hstop, show loopFuel = (2 ^ 64 - 2) + 1 + 1 from rfl, munmapLoop,
      if_pos hlt, hfind]
    simp only [hsnip, hdrop]
    rw [munmapLoop, if_neg hend]
  · rw [hranges]
    show Function.update s.ranges pm ((s.ranges pm).erase r.range) pm = rest
    rw [Function.update_self, hr, List.erase_cons_head]

/-! ## The loop -/

/-- The loop of `vmm_destroy_pagemap` comes to an end, and each of its turns shortens the list. -/
inductive Shrinking (A : PageAllocator σ) (pm : Nat) : State σ → Prop
  | done {s : State σ} (h : s.ranges pm = []) : Shrinking A pm s
  | turn {s s' : State σ} {id : Nat} {rest : List Nat} {ok : Bool} (h : s.ranges pm = id :: rest)
      (hm : munmap A s pm (s.locals id).base (s.locals id).length = some (ok, s'))
      (hlt : (s'.ranges pm).length < (s.ranges pm).length) (hrest : Shrinking A pm s') :
      Shrinking A pm s

theorem Shrinking.terminates (h : Shrinking A pm s) :
    ∃ s', destroyLoop A pm ((s.ranges pm).length + 1) s = some s' := by
  suffices ∀ fuel, (s.ranges pm).length < fuel → ∃ s', destroyLoop A pm fuel s = some s' from
    this _ (Nat.lt_succ_self _)
  induction h with
  | @done s h =>
    intro fuel hfuel
    obtain ⟨fuel, rfl⟩ := Nat.exists_eq_succ_of_ne_zero (Nat.ne_of_gt (Nat.zero_lt_of_lt hfuel))
    exact ⟨s, by rw [destroyLoop, h]⟩
  | turn h hm hlt _ ih =>
    intro fuel hfuel
    obtain ⟨fuel, rfl⟩ := Nat.exists_eq_succ_of_ne_zero (Nat.ne_of_gt (Nat.zero_lt_of_lt hfuel))
    obtain ⟨s', hs'⟩ := ih fuel (by omega)
    exact ⟨s', by simp only [destroyLoop, h, hm]; exact hs'⟩

theorem Roomy.rest {id : Nat} {rest : List Nat} (h : Roomy s pm) (hr : s.ranges pm = id :: rest)
    (hr' : s'.ranges pm = rest) (hl : ∀ x, x ≠ id → s'.locals x = s.locals x)
    (hn : s'.nextId = s.nextId) (ha : s'.mmapAnonBase = s.mmapAnonBase) :
    Roomy s' pm ∧ ∀ x ∈ rest, s'.locals x = s.locals x := by
  have hnodup := h.nodup
  rw [hr, List.nodup_cons] at hnodup
  have hlocals : ∀ x ∈ rest, s'.locals x = s.locals x :=
    fun x hx => hl x fun he => hnodup.1 (he ▸ hx)
  have hmem : ∀ x ∈ s'.ranges pm, x ∈ s.ranges pm ∧ s'.locals x = s.locals x := by
    intro x hx
    rw [hr'] at hx
    exact ⟨by rw [hr]; exact List.mem_cons_of_mem id hx, hlocals x hx⟩
  refine ⟨⟨⟨⟨by rw [hr']; exact hnodup.2, ?_, ?_⟩, by rw [ha]; exact h.anonBase⟩, ?_⟩, hlocals⟩
  · intro x hx
    rw [hn]
    exact h.lt x (hmem x hx).1
  · intro x hx
    rw [(hmem x hx).2]
    exact h.tidy x (hmem x hx).1
  · intro x hx
    rw [(hmem x hx).2]
    exact h.fits x (hmem x hx).1

/-- Without empty ranges every turn takes the first range, until none is left. -/
theorem shrinking_of_nonempty : ∀ {rest : List Nat} {s : State σ}, s.ranges pm = rest →
    Roomy s pm → (∀ x ∈ s.ranges pm, (s.locals x).length ≠ 0) → Shrinking A pm s
  | [], s, hr, _, _ => .done hr
  | id :: rest, s, hr, h, hne => by
    have hmem : ∀ x ∈ id :: rest, (s.locals x).length ≠ 0 := by rwa [hr] at hne
    obtain ⟨s', hm, hr', hl, hn, ha⟩ :=
      munmap_first (A := A) h hr (hmem id List.mem_cons_self)
    obtain ⟨h', hlocals⟩ := h.rest hr hr' hl hn ha
    refine .turn hr hm (by rw [hr, hr']; simp) (shrinking_of_nonempty hr' h' ?_)
    intro x hx
    rw [hr'] at hx
    rw [hlocals x hx]
    exact hmem x (List.mem_cons_of_mem id hx)

theorem destroyLoop_stuck {id : Nat} {rest : List Nat} : ∀ (fuel : Nat) {s : State σ},
    s.ranges pm = id :: rest → (s.locals id).length = 0 → destroyLoop A pm fuel s = none
  | 0, _, _, _ => rfl
  | fuel + 1, s, hr, h0 => by
    have hm : munmap A s pm (s.locals id).base (s.locals id).length
        = some (false, setErrno s .einval) := by
      rw [munmap, if_pos h0]
    rw [destroyLoop, hr]
    simp only [hm]
    exact destroyLoop_stuck fuel hr h0

/-- **The loop ends exactly when no range is empty.** -/
theorem nonempty_of_terminates : ∀ {fuel : Nat} {s s' : State σ}, Roomy s pm →
    destroyLoop A pm fuel s = some s' → ∀ x ∈ s.ranges pm, (s.locals x).length ≠ 0
  | 0, _, _, _, h => by simp [destroyLoop] at h
  | fuel + 1, s, s', h, hd => by
    cases hr : s.ranges pm with
    | nil => simp
    | cons id rest =>
      by_cases h0 : (s.locals id).length = 0
      · rw [destroyLoop_stuck _ hr h0] at hd
        simp at hd
      · obtain ⟨s₁, hm, hr₁, hl, hn, ha⟩ := munmap_first (A := A) h hr h0
        obtain ⟨h₁, hlocals⟩ := h.rest hr hr₁ hl hn ha
        rw [destroyLoop, hr] at hd
        simp only [hm] at hd
        have hrest := nonempty_of_terminates h₁ hd
        intro x hx
        rcases List.mem_cons.mp hx with rfl | hx
        · exact h0
        · rw [← hlocals x hx]
          exact hrest x (by rw [hr₁]; exact hx)

/-! ## Which processes have empty ranges -/

/-- No range is empty. -/
def Full (s : State σ) (pm : Nat) : Prop := ∀ x ∈ s.ranges pm, (s.locals x).length ≠ 0

/-- The call has page-aligned arguments, and what it maps stays below the last page of the address
space. -/
def Call.Placed (s : State σ) : Call → Prop
  | .mmap addr length _ flags _ _ =>
    if flags.fixed then pageSize ∣ addr ∧ Fits addr (alignUp length pageSize)
    else Fits s.mmapAnonBase (alignUp length pageSize)
  | c => c.Aligned

/-- The call leaves no empty range: `mmap` maps something, `mprotect` changes no range as a
whole. -/
def Call.Partial (pm : Nat) (s : State σ) : Call → Prop
  | .mmap _ length _ _ _ _ => alignUp length pageSize ≠ 0
  | .mprotect addr length prot =>
    Fits addr (alignUp length pageSize) ∧
      ∀ x ∈ s.ranges pm, (s.locals x).prot ≠ prot → (s.locals x).length ≠ 0 →
        ¬ (addr ≤ (s.locals x).base ∧
          (s.locals x).base + (s.locals x).length ≤ addr + alignUp length pageSize)
  | _ => True

theorem Turn.fits {id : Nat} {ps : List Nat} (t : Turn s s' pm id ps) (hl : Listed s pm)
    (hid : id ∈ s.ranges pm) (h : ∀ x ∈ s.ranges pm, Fits (s.locals x).base (s.locals x).length) :
    ∀ x ∈ s'.ranges pm, Fits (s'.locals x).base (s'.locals x).length := by
  intro x hx
  obtain ⟨y, hy, hp⟩ := t.parent hl hid hx
  have := h y hy
  have := hp.stop_le
  unfold Fits at *
  omega

theorem munmap_roomy {addr length : Nat} {ok : Bool} (h : Roomy s pm) (haddr : pageSize ∣ addr)
    (hm : munmap A s pm addr length = some (ok, s')) : Roomy s' pm := by
  obtain ⟨hl, hanon, hf⟩ := munmap_keeps (I := fun s => pageSize ∣ s.mmapAnonBase ∧
      ∀ x ∈ s.ranges pm, Fits (s.locals x).base (s.locals x).length)
    (fun s s' id b e ps hl hid hcut hI =>
      ⟨by rw [hcut.anonBase]; exact hI.1, hcut.fits hl hid hI.2⟩)
    (fun s n e _ hI => hI) h.toListed ⟨h.anonBase, h.fits⟩ haddr hm
  exact ⟨⟨hl, hanon⟩, hf⟩

theorem mprotect_roomy {addr length : Nat} {prot : Prot} {ret : Int} (h : Roomy s pm)
    (haddr : pageSize ∣ addr) (hm : mprotect A s pm addr length prot = some (ret, s')) :
    Roomy s' pm := by
  obtain ⟨hl, hanon, hf⟩ := mprotect_keeps (I := fun s => pageSize ∣ s.mmapAnonBase ∧
      ∀ x ∈ s.ranges pm, Fits (s.locals x).base (s.locals x).length)
    (fun s s' id b e ps hl hid hcut hI =>
      ⟨by rw [hcut.anonBase]; exact hI.1, hcut.fits hl hid hI.2⟩)
    (fun s n e _ hI => hI) h.toListed ⟨h.anonBase, h.fits⟩ haddr hm
  exact ⟨⟨hl, hanon⟩, hf⟩

theorem mmapAt_roomy {base length : Nat} {prot : Prot} {flags : MapFlags} {res : Option Nat}
    {offset : Nat} {r : Option Nat} (h : Listed s pm) (ha : pageSize ∣ s.mmapAnonBase)
    (hf : ∀ x ∈ s.ranges pm, Fits (s.locals x).base (s.locals x).length) (hb : pageSize ∣ base)
    (hlen : pageSize ∣ length) (hfits : Fits base length)
    (hm : mmapAt A s pm base length prot flags res offset = some (r, s')) :
    Roomy s' pm ∧ (Full s pm → length ≠ 0 → Full s' pm) := by
  obtain ⟨hl, hanon, hmem⟩ := mmapAt_list h hb hlen hfits hm
  refine ⟨⟨⟨hl, by rw [hanon]; exact ha⟩, ?_⟩, ?_⟩
  · intro x hx
    rcases hmem x hx with ⟨hx, hxl⟩ | ⟨_, hxb, hxl⟩
    · rw [hxl]
      exact hf x hx
    · rw [hxb, hxl]
      exact hfits
  · intro hfull hne x hx
    rcases hmem x hx with ⟨hx, hxl⟩ | ⟨_, _, hxl⟩
    · rw [hxl]
      exact hfull x hx
    · rw [hxl]
      exact hne

theorem munmap_full {addr length : Nat} {ok : Bool} (h : Listed s pm) (hf : Full s pm)
    (haddr : pageSize ∣ addr) (hm : munmap A s pm addr length = some (ok, s')) : Full s' pm := by
  refine (munmap_keeps (I := fun s => Full s pm) ?_ (fun s n e _ hI => hI) h hf haddr hm).2
  intro s s' id b e ps hl hid hcut hI x hx
  rcases (hcut.mem x).mp hx with ⟨hx, hne⟩ | hx
  · rw [(hcut.others x (hl.lt x hx) hne).1]
    exact hI x hx
  · exact hcut.nonempty x hx

/-- `mprotect` empties no range when none with another protection lies in its interval: a range
that it has cut once does not reach into the part of the interval that is still to come. -/
theorem mprotect_full {addr length : Nat} {prot : Prot} {ret : Int} (h : Listed s pm)
    (hf : Full s pm) (haddr : pageSize ∣ addr)
    (hok : (Call.mprotect addr length prot).Partial pm s)
    (hm : mprotect A s pm addr length prot = some (ret, s')) : Full s' pm := by
  obtain ⟨hfits, hpart⟩ := hok
  have hlen := alignUp_dvd length
  unfold Fits at hfits
  unfold mprotect at hm
  split at hm
  · simp only [Option.some.injEq, Prod.mk.injEq] at hm
    rw [← hm.2]
    exact hf
  · rw [Option.map_eq_some_iff] at hm
    obtain ⟨s₁, hm, he⟩ := hm
    obtain rfl : s₁ = s' := congrArg Prod.snd he
    rw [u64_of_lt (by omega)] at hm
    refine mprotectLoop_rule
      (P := fun i s => (Listed s pm ∧ Full s pm) ∧ addr ≤ i ∧
        ∀ x ∈ s.ranges pm, (s.locals x).prot ≠ prot →
          ∀ v, (s.locals x).Has v → i ≤ v → v < addr + alignUp length pageSize →
            ¬ (addr ≤ (s.locals x).base ∧
              (s.locals x).base + (s.locals x).length ≤ addr + alignUp length pageSize))
      (Q := fun s => Full s pm) (Nat.dvd_add haddr hlen) (fun _ _ hP => hP.1.1) ?_ ?_ ?_ haddr
      ⟨⟨h, hf⟩, Nat.le_refl _, fun x hx hp v hv _ _ => hpart x hx hp ?_⟩ hm
    · rintro i s id hi hilt ⟨hs, hai, hin⟩ _ _ _
      rw [u64_of_lt (by omega)]
      exact ⟨hs, by omega, fun x hx hp v hv hiv hvs => hin x hx hp v hv (by omega) hvs⟩
    · rintro i e s id s' hi hilt ⟨⟨hl, hf⟩, hai, hin⟩ hid hhas hprot he hS hsnip
      obtain ⟨ps, hrec⟩ := mprotectSnip_recolor hl hid hS hsnip
      have hie := hS.lt
      have hwhole : ¬ (i = (s.locals id).base ∧
          e = (s.locals id).base + (s.locals id).length) := by
        have := hin id hid hprot i hhas (Nat.le_refl _) hilt
        omega
      rw [u64_of_lt (by omega)]
      refine ⟨⟨hrec.listed hl hid, ?_⟩, by omega, ?_⟩
      · intro x hx
        rcases (hrec.mem x).mp hx with ⟨hx, hne⟩ | hx
        · rw [(hrec.others x (hl.lt x hx) hne).1]
          exact hf x hx
        · exact hrec.nonempty hwhole x hx
      · intro x hx hp v hv hiv hvs
        rcases (hrec.mem x).mp hx with ⟨hx, hne⟩ | hx
        · rw [(hrec.others x (hl.lt x hx) hne).1] at hp hv ⊢
          exact hin x hx hp v hv (by omega) hvs
        · -- a piece with the old protection ends before the snip or starts behind the interval
          have hidv := (hrec.pieces x hx).has hv
          unfold LocalRange.Has at hidv
          omega
    · exact fun i s _ hP => hP.1.2
    · unfold LocalRange.Has at hv
      omega

theorem exec_roomy {c : Call} (h : Roomy s pm) (hok : c.Placed s) (hs : Step A pm s c s') :
    Roomy s' pm ∧ (Full s pm → c.Partial pm s → Full s' pm) := by
  cases step_executed hs with
  | refused e he =>
    subst he
    exact ⟨⟨h.toOrdered.of_eq rfl (fun _ _ => rfl) (Nat.le_refl _) rfl, h.fits⟩, fun hf _ => hf⟩
  | notCleared hfixed hun =>
    simp only [Call.Placed, if_pos hfixed] at hok
    exact ⟨munmap_roomy h hok.1 hun, fun hf _ => munmap_full h.toListed hf hok.1 hun⟩
  | @fixed _ length _ _ _ _ _ s₂ hfixed hun hat =>
    simp only [Call.Placed, if_pos hfixed] at hok
    have h₂ := munmap_roomy h hok.1 hun
    obtain ⟨h₁, hfull⟩ :=
      mmapAt_roomy h₂.toListed h₂.anonBase h₂.fits hok.1 (alignUp_dvd length) hok.2 hat
    exact ⟨h₁, fun hf hp => hfull (munmap_full h.toListed hf hok.1 hun) hp⟩
  | @bumped _ length _ _ _ _ _ next hfixed hdvd hat =>
    simp only [Call.Placed, if_neg hfixed] at hok
    have hl : Listed { s with mmapAnonBase := next } pm :=
      h.toListed.of_eq rfl (fun _ _ => rfl) (Nat.le_refl _)
    obtain ⟨h₁, hfull⟩ :=
      mmapAt_roomy hl (hdvd h.anonBase) h.fits h.anonBase (alignUp_dvd length) hok hat
    exact ⟨h₁, fun hf hp => hfull hf hp⟩
  | unmapped ok hm => exact ⟨munmap_roomy h hok hm, fun hf _ => munmap_full h.toListed hf hok hm⟩
  | protect ret hm =>
    exact ⟨mprotect_roomy h hok hm, fun hf hp => mprotect_full h.toListed hf hok hp hm⟩
  | fault ok hm =>
    obtain ⟨vm, rfl⟩ := mmapHandlePf_frame hm
    exact ⟨⟨h.toOrdered.of_eq rfl (fun _ _ => rfl) (Nat.le_refl _) rfl, h.fits⟩, fun hf _ => hf⟩

theorem roomy_of_run {s₀ : State σ} (h₀ : Fresh s₀ pm)
    (hrun : Reach (Step A pm) (fun s c => c.Placed s) s₀ s) : Roomy s pm := by
  refine hrun.invariant (I := fun s => Roomy s pm) ⟨h₀.ordered, ?_⟩
    fun s c s' hI hok hs => (exec_roomy hI hok hs).1
  intro x hx
  rw [h₀.ranges] at hx
  simp at hx

theorem full_of_run {s₀ : State σ} (h₀ : Fresh s₀ pm)
    (hrun : Reach (Step A pm) (fun s c => c.Placed s ∧ c.Partial pm s) s₀ s) : Full s pm := by
  refine (hrun.invariant (I := fun s => Roomy s pm ∧ Full s pm) ⟨?_, ?_⟩ ?_).2
  · exact roomy_of_run (A := A) h₀ .refl
  · intro x hx
    rw [h₀.ranges] at hx
    simp at hx
  · rintro s c s' ⟨hI, hf⟩ ⟨hok, hp⟩ hs
    obtain ⟨h₁, hfull⟩ := exec_roomy hI hok hs
    exact ⟨h₁, hfull hf hp⟩

/--
**When the loop of `vmm_destroy_pagemap` ends.** In every state reached from a fresh process by
calls with page-aligned arguments below the last page of the address space, the loop ends, each
turn shortening the list, exactly when no range is empty. It does so after every run in which
`mmap` maps something and `mprotect` changes no range as a whole.
-/
theorem destroy_terminates {s₀ : State σ} (h₀ : Fresh s₀ pm)
    (hrun : Reach (Step A pm) (fun s c => c.Placed s) s₀ s) :
    ((∃ fuel s', vmmDestroyPagemap A fuel s pm = some s') ↔ Full s pm) ∧
    (Shrinking A pm s ↔ Full s pm) ∧
    (Reach (Step A pm) (fun s c => c.Placed s ∧ c.Partial pm s) s₀ s →
      Shrinking A pm s ∧ ∃ fuel s', vmmDestroyPagemap A fuel s pm = some s') := by
  have h := roomy_of_run h₀ hrun
  have hshrink : Full s pm → Shrinking A pm s := shrinking_of_nonempty rfl h
  have hend : Shrinking A pm s → ∃ fuel s', vmmDestroyPagemap A fuel s pm = some s' := by
    intro hs
    obtain ⟨s', hs'⟩ := hs.terminates
    exact ⟨_, _, by rw [vmmDestroyPagemap, hs', Option.map_some]⟩
  have hfull : (∃ fuel s', vmmDestroyPagemap A fuel s pm = some s') → Full s pm := by
    rintro ⟨fuel, s', hs'⟩
    obtain ⟨s₁, hs₁, -⟩ := Option.map_eq_some_iff.mp hs'
    exact nonempty_of_terminates h hs₁
  refine ⟨⟨hfull, fun hf => hend (hshrink hf)⟩, ⟨fun hs => hfull (hend hs), hshrink⟩, ?_⟩
  intro hpart
  have hs := hshrink (full_of_run h₀ hpart)
  exact ⟨hs, hend hs⟩

end

/-- Two pages are mapped and the first of them made read-only. -/
theorem destroy_terminates_boot : ∃ s,
    Reach (Step Pmm.allocator 0x2000) (fun s c => c.Placed s) bootProcess s ∧
    spans s 0x2000 = [(0x80000001000, 0x1000), (0x80000000000, 0x1000)] ∧
    Shrinking Pmm.allocator 0x2000 s := by
  have hrun : (((Call.mmap 0 0x2000 readWrite (anonFlags false) none 0).exec Pmm.allocator 0x2000
      bootProcess).bind fun s =>
        (Call.mprotect 0x80000000000 0x1000 ⟨false, false, 1⟩).exec Pmm.allocator 0x2000 s).map
      (fun s => spans s 0x2000) = some [(0x80000001000, 0x1000), (0x80000000000, 0x1000)] := by
    decide +kernel
  obtain ⟨s₂, hs, hmap⟩ := Option.map_eq_some_iff.mp hrun
  obtain ⟨s₁, h₁, h₂⟩ := Option.bind_eq_some_iff.mp hs
  have hreach : Reach (Step Pmm.allocator 0x2000) (fun s c => c.Placed s) bootProcess s₂ :=
    .tail (.tail .refl (a := .mmap 0 0x2000 readWrite (anonFlags false) none 0)
      (show Fits 0x80000000000 (alignUp 0x2000 pageSize) by unfold Fits; decide) h₁)
      (a := .mprotect 0x80000000000 0x1000 ⟨false, false, 1⟩)
      (show pageSize ∣ 0x80000000000 by decide) h₂
  have hfull : ∀ p ∈ spans s₂ 0x2000, p.2 ≠ 0 := by
    rw [hmap]
    decide
  refine ⟨s₂, hreach, hmap, (destroy_terminates ⟨rfl, by decide⟩ hreach).2.1.mpr ?_⟩
  exact fun x hx => hfull _ (List.mem_map_of_mem hx)

/-- One page is mapped and made read-only: its first range is empty now and never goes. -/
theorem destroy_hangs_boot : ¬ ∀ s,
    Reach (Step Pmm.allocator 0x2000) (fun _ c => c.Aligned) bootProcess s →
    ∃ fuel s', vmmDestroyPagemap Pmm.allocator fuel s 0x2000 = some s' := by
  intro hall
  have hrun : (runAll (fun s c => Call.exec Pmm.allocator 0x2000 s c)
      [.mmap 0 0x1000 readWrite (anonFlags false) none 0,
        .mprotect 0x80000000000 0x1000 ⟨false, false, 1⟩] bootProcess).map
      (fun s => spans s 0x2000) = some [(0x80000001000, 0), (0x80000000000, 0x1000)] := by
    decide +kernel
  obtain ⟨s, hs, hmap⟩ := Option.map_eq_some_iff.mp hrun
  obtain ⟨fuel, s', hd⟩ := hall s (Reach.of_runAll .refl (by decide) hs)
  obtain ⟨s₁, hs₁, -⟩ := Option.map_eq_some_iff.mp hd
  obtain ⟨id, rest, hr, hid, -⟩ := List.map_eq_cons_iff.mp hmap
  rw [destroyLoop_stuck fuel hr (congrArg Prod.snd hid)] at hs₁
  simp at hs₁

end Lyre.Mmap
