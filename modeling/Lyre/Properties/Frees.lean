import Lyre.Properties.Faults

/-!
# Which pages `munmap` gives back

When a range goes as a whole, `munmap` gives back every page of its shadow pagemap, those of the
other pieces of the same mapping included: the list `locals` of the global range, by whose length
the last piece is told, has one entry as long as the mapping lives.

`munmap_frees_unmapped` shows that nothing else goes wrong: as long as the ranges that go are the
last pieces of their mappings, no page given back is mapped.
-/

namespace Lyre.Mmap

open Vmm Infra

section

variable {σ : Type} {A : PageAllocator σ} {s s' : State σ} {pm id b e : Nat}

/-! ## One turn -/

/-- The range `x` is the only one of its mapping that is not empty. -/
def Alone (s : State σ) (pm x : Nat) : Prop :=
  ∀ y ∈ s.ranges pm, y ≠ x → (s.locals y).length ≠ 0 → (s.locals y).global ≠ (s.locals x).global

theorem LocalRange.Has.nonempty {l : LocalRange} {v : Nat} (h : l.Has v) : l.length ≠ 0 := by
  unfold LocalRange.Has at h
  omega

/-- A turn of `munmap` gives back pages that nobody owns then, takes no page into use, and leaves
what is mapped backed, if a range that goes as a whole is the last of its mapping. -/
theorem Sys.backed_cut (h : Sys A s pm) (hb : Backed s pm) (hid : id ∈ s.ranges pm)
    (hS : Snip (s.locals id) b e)
    (halone : b = (s.locals id).base ∧ e = (s.locals id).base + (s.locals id).length →
      Alone s pm id)
    (hs : Mmap.munmapSnip A s pm id b e = (true, s')) :
    Backed s' pm ∧ (∀ q, A.Owned s'.vm.pmm q → A.Owned s.vm.pmm q) ∧
      ∃ l, s'.freed = l ++ s.freed ∧ ∀ p ∈ l, ¬ A.Owned s'.vm.pmm p := by
  obtain ⟨ps, hcut⟩ := munmapSnip_cut h.toListed hid hS hs
  obtain ⟨vm, l, hed, hfreed, hcase⟩ := munmapSnip_vm h hid hS hs
  -- what is mapped after the turn was mapped before, outside the snip, through a range that is
  -- still there
  have hown : ∀ v, v < lowEnd → Present vm pm v →
      ¬ (b ≤ v ∧ v < e) ∧ pte vm pm v = pte s.vm pm v := by
    intro v hv hp
    have hpte := hed.pte pm v h.root_pm hv
    by_cases hin : b ≤ v ∧ v < e
    · rw [if_pos ⟨rfl, hin⟩] at hpte
      unfold Present at hp
      rw [hpte] at hp
      exact absurd (not_present_unmapped _) hp
    · rw [if_neg fun hc => hin hc.2] at hpte
      exact ⟨hin, hpte⟩
  have hpiece : ∀ x ∈ s.ranges pm, ∀ v, (s.locals x).Has v → ¬ (b ≤ v ∧ v < e) →
      ∃ x' ∈ s'.ranges pm, (s'.locals x').Has v ∧ shadowOf s' x' = shadowOf s x := by
    intro x hx v hhas hout
    by_cases hxid : x = id
    · subst hxid
      obtain ⟨x', hx', hhas'⟩ := hcut.stays v hhas hout
      refine ⟨x', (hcut.mem x').mpr (Or.inr hx'), hhas', ?_⟩
      rw [shadowOf, shadowOf, globalOf, globalOf, hcut.globals, (hcut.pieces x' hx').global]
    · have hl := (hcut.others x (h.lt x hx) hxid).1
      refine ⟨x, (hcut.mem x).mpr (Or.inl ⟨hx, hxid⟩), by rw [hl]; exact hhas, ?_⟩
      rw [shadowOf, shadowOf, globalOf, globalOf, hcut.globals, hl]
  have hshadow : ∀ x ∈ s.ranges pm, ∀ v, v < lowEnd →
      pte vm (shadowOf s x) v = pte s.vm (shadowOf s x) v :=
    fun x hx v hv => hed.other (h.root_shadow hx) (h.range x hx).shadow_ne hv
  rcases hcase with ⟨_, rfl, rfl⟩ | ⟨hwhole, _, hrel⟩
  · refine ⟨?_, fun q hq => by rwa [hed.pmm] at hq, [], hfreed, by simp⟩
    intro v hv hp
    obtain ⟨hout, hpte⟩ := hown v hv hp
    unfold Present at hp
    rw [hpte] at hp
    obtain ⟨x, hx, hhas, hps, he⟩ := hb v hv hp
    obtain ⟨x', hx', hhas', hsh⟩ := hpiece x hx v hhas hout
    refine ⟨x', hx', hhas', ?_, ?_⟩
    · unfold Present at *
      rw [hsh, hshadow x hx v hv]
      exact hps
    · rw [hsh, hshadow x hx v hv, hpte]
      exact he
  · have hpm : ∀ v, v < lowEnd → pte s'.vm pm v = pte vm pm v := by
      intro v hv
      rw [hrel.pte pm v h.root_pm hv, if_neg fun hc => (h.range id hid).shadow_ne hc.1.symm]
    refine ⟨?_, fun q hq => ?_, l, hfreed, fun p hp hc => ((hrel.owned p).mp hc).2 hp⟩
    · intro v hv hp
      unfold Present at hp
      rw [hpm v hv] at hp
      obtain ⟨hout, hpte⟩ := hown v hv hp
      rw [hpte] at hp
      obtain ⟨x, hx, hhas, hps, he⟩ := hb v hv hp
      -- the page belongs to another mapping, whose shadow pagemap was not given back
      have hxid : x ≠ id := by
        rintro rfl
        unfold LocalRange.Has at hhas
        omega
      have hne : shadowOf s x ≠ shadowOf s id := fun hsh =>
        halone hwhole x hx hxid hhas.nonempty (h.inj x hx id hid hsh)
      have hsh' : pte s'.vm (shadowOf s x) v = pte s.vm (shadowOf s x) v := by
        rw [hrel.pte _ v (h.root_shadow hx) hv, if_neg fun hc => hne hc.1, hshadow x hx v hv]
      obtain ⟨x', hx', hhas', hsh⟩ := hpiece x hx v hhas hout
      refine ⟨x', hx', hhas', ?_, ?_⟩
      · unfold Present at *
        rw [hsh, hsh']
        exact hps
      · rw [hsh, hsh', hpm v hv, hpte]
        exact he
    · rw [← hed.pmm]
      exact ((hrel.owned q).mp hq).1

/-- A turn of `mprotect` leaves what is mapped backed. -/
theorem Sys.backed_recolor {prot : Prot} (h : Sys A s pm) (hb : Backed s pm)
    (hid : id ∈ s.ranges pm) (hS : Snip (s.locals id) b e)
    (hs : Mmap.mprotectSnip A s pm id prot b e = some s') : Backed s' pm := by
  obtain ⟨ps, hrec⟩ := mprotectSnip_recolor h.toListed hid hS hs
  obtain ⟨-, hed, -⟩ := h.mprotectSnip hid hS hs
  intro v hv hp
  -- new flags, the same page
  have hown : Present s.vm pm v ∧ pteGetAddr (pte s'.vm pm v) = pteGetAddr (pte s.vm pm v) := by
    have hpte := hed.pte pm v h.root_pm hv
    unfold Present at hp ⊢
    split at hpte
    · by_cases h0 : pte s.vm pm v &&& ptePresent = 0
      · rw [hpte, reflagged, if_pos h0] at hp
        exact absurd h0 hp
      · rw [hpte, reflagged, if_neg h0]
        exact ⟨h0, pteGetAddr_or (pageAddr_pteGetAddr _) (ptFlags_pageFlags prot).apart⟩
    · rw [hpte] at hp ⊢
      exact ⟨hp, rfl⟩
  obtain ⟨x, hx, hhas, hps, he⟩ := hb v hv hown.1
  have hsh : pte s'.vm (shadowOf s x) v = pte s.vm (shadowOf s x) v :=
    hed.other (h.root_shadow hx) (h.range x hx).shadow_ne hv
  obtain ⟨x', hx', hhas', hshx⟩ : ∃ x' ∈ s'.ranges pm, (s'.locals x').Has v ∧
      shadowOf s' x' = shadowOf s x := by
    by_cases hxid : x = id
    · subst hxid
      obtain ⟨x', hx', hhas'⟩ := hrec.stays v hhas
      refine ⟨x', (hrec.mem x').mpr (Or.inr hx'), hhas', ?_⟩
      rw [shadowOf, shadowOf, globalOf, globalOf, hrec.globals, (hrec.pieces x' hx').global]
    · have hl := (hrec.others x (h.lt x hx) hxid).1
      refine ⟨x, (hrec.mem x).mpr (Or.inl ⟨hx, hxid⟩), by rw [hl]; exact hhas, ?_⟩
      rw [shadowOf, shadowOf, globalOf, globalOf, hrec.globals, hl]
  refine ⟨x', hx', hhas', ?_, ?_⟩
  · unfold Present at *
    rw [hshx, hsh]
    exact hps
  · rw [hshx, hsh, hown.2]
    exact he

/-! ## Calls -/

/-- Every range that lies in `[b, e)` is the last of its mapping. -/
def Sole (s : State σ) (pm b e : Nat) : Prop :=
  ∀ x ∈ s.ranges pm, (s.locals x).length ≠ 0 → b ≤ (s.locals x).base →
    (s.locals x).base + (s.locals x).length ≤ e → Alone s pm x

/-- The call takes no range away as a whole while other pieces of its mapping are left. -/
def Call.Sole (pm : Nat) (s : State σ) : Call → Prop
  | .mmap addr length _ flags _ _ =>
    flags.fixed = true → Mmap.Sole s pm addr (addr + alignUp length pageSize)
  | .munmap addr length =>
    Fits addr (alignUp length pageSize) ∧ Mmap.Sole s pm addr (addr + alignUp length pageSize)
  | _ => True

/-- What is left of an interval behind a snip: the pieces of the range that was cut do not lie in
it, so the condition carries over. -/
theorem Sole.cut {stop : Nat} {ps : List Nat} (h : Listed s pm) (hid : id ∈ s.ranges pm)
    (hcut : Cut s s' pm id b e ps)
    (he : e = min ((s.locals id).base + (s.locals id).length) stop) (hbe : b < e)
    (hsole : Sole s pm b stop) : Sole s' pm (e + pageSize) stop := by
  intro x hx hne hbase hstop y hy hyx hyne
  have hpage : 0 < pageSize := by decide
  rcases (hcut.mem x).mp hx with ⟨hx, hxid⟩ | hx
  · have hxl := (hcut.others x (h.lt x hx) hxid).1
    rw [hxl] at hne hbase hstop ⊢
    have hA := hsole x hx hne (by omega) hstop
    rcases (hcut.mem y).mp hy with ⟨hy, hyid⟩ | hy
    · rw [(hcut.others y (h.lt y hy) hyid).1] at hyne ⊢
      exact hA y hy hyx hyne
    · have hp := hcut.pieces y hy
      rw [hp.global]
      refine hA id hid (Ne.symm hxid) ?_
      have := hp.base_le
      have := hp.stop_le
      omega
  · have hp := hcut.pieces x hx
    have := hp.stop_le
    omega

/-- **`munmap` with pieces that are the last of their mappings.** -/
theorem Sys.munmap_sole {addr length : Nat} {ok : Bool} (h : Sys A s pm) (hb : Backed s pm)
    (haddr : pageSize ∣ addr) (hfits : Fits addr (alignUp length pageSize))
    (hsole : Sole s pm addr (addr + alignUp length pageSize))
    (hm : Mmap.munmap A s pm addr length = some (ok, s')) :
    Backed s' pm ∧ ∃ l, s'.freed = l ++ s.freed ∧ ∀ p ∈ l, ¬ A.Owned s'.vm.pmm p := by
  have hlt : addr + alignUp length pageSize + pageSize < 2 ^ 64 := hfits
  have hlen := alignUp_dvd length
  unfold Mmap.munmap at hm
  split at hm
  · simp only [Option.some.injEq, Prod.mk.injEq] at hm
    rw [← hm.2]
    exact ⟨hb, [], rfl, by simp⟩
  · rw [u64_of_lt (by omega)] at hm
    refine munmapLoop_rule
      (P := fun i t => Sys A t pm ∧ Backed t pm ∧ Sole t pm i (addr + alignUp length pageSize) ∧
        ∃ l, t.freed = l ++ s.freed ∧ ∀ p ∈ l, ¬ A.Owned t.vm.pmm p)
      (Q := fun _ t => Backed t pm ∧ ∃ l, t.freed = l ++ s.freed ∧ ∀ p ∈ l, ¬ A.Owned t.vm.pmm p)
      (Nat.dvd_add haddr hlen) (fun _ _ hP => hP.1.toListed) ?_ ?_ ?_ ?_ haddr
      ⟨h, hb, hsole, [], rfl, by simp⟩ hm
    · rintro i t hi hilt ⟨ht, htb, hS, hf⟩ _
      rw [u64_of_lt (by omega)]
      exact ⟨ht, htb, fun x hx hne hb he => hS x hx hne (by omega) he, hf⟩
    · rintro i e t id t' hi hilt ⟨ht, htb, hS, l, hl, hf⟩ hid hhas he hsnip hm
      obtain ⟨ps, hcut⟩ := munmapSnip_cut ht.toListed hid hsnip hm
      have hie := hsnip.lt
      obtain ⟨hb', hle, l', hl', hf'⟩ := ht.backed_cut htb hid hsnip
        (fun hw => hS id hid hhas.nonempty (Nat.le_of_eq hw.1) (by omega)) hm
      rw [u64_of_lt (by omega)]
      refine ⟨ht.munmapSnip hid hsnip hm, hb', hS.cut ht.toListed hid hcut he hie,
        l' ++ l, by rw [hl', hl, List.append_assoc], ?_⟩
      intro p hp hc
      rcases List.mem_append.mp hp with hp | hp
      · exact hf' p hp hc
      · exact hf p hp (hle p hc)
    · exact fun _ _ hP => ⟨hP.2.1, hP.2.2.2⟩
    · exact fun _ _ _ hP => ⟨hP.2.1, hP.2.2.2⟩

theorem Sys.mprotect_backed {addr length : Nat} {prot : Prot} {ret : Int} (h : Sys A s pm)
    (hb : Backed s pm) (haddr : pageSize ∣ addr)
    (hm : Mmap.mprotect A s pm addr length prot = some (ret, s')) : Backed s' pm := by
  unfold Mmap.mprotect at hm
  split at hm
  · simp only [Option.some.injEq, Prod.mk.injEq] at hm
    rw [← hm.2]
    exact hb
  · rw [Option.map_eq_some_iff] at hm
    obtain ⟨s₁, hm, he⟩ := hm
    obtain rfl : s₁ = s' := congrArg Prod.snd he
    exact (mprotectLoop_rule (P := fun _ s => Sys A s pm ∧ Backed s pm)
      (Q := fun s => Sys A s pm ∧ Backed s pm)
      (u64_dvd (Nat.dvd_add haddr (alignUp_dvd length))) (fun _ _ hP => hP.1.toListed)
      (fun _ _ _ _ _ hP _ _ _ => hP)
      (fun i e s id s' _ _ hP hid _ _ _ hS hm =>
        ⟨(hP.1.mprotectSnip hid hS hm).1, hP.1.backed_recolor hP.2 hid hS hm⟩)
      (fun _ _ _ hP => hP) haddr ⟨h, hb⟩ hm).2

theorem Sys.exec_backed {c : Call} (h : Sys A s pm) (hb : Backed s pm) (hlow : c.Low s)
    (hsole : c.Sole pm s) (hs : Step A pm s c s') : Backed s' pm := by
  -- the `munmap` that clears the interval of a fixed mapping rounds its length once more
  have hclear : ∀ {addr length : Nat} {flags : MapFlags} {prot : Prot} {res : Option Nat}
      {offset : Nat} {ok : Bool} {s₂ : State σ},
      (Call.mmap addr length prot flags res offset).Low s →
      (Call.mmap addr length prot flags res offset).Sole pm s → flags.fixed = true →
      Mmap.munmap A s pm addr (alignUp length pageSize) = some (ok, s₂) → Backed s₂ pm := by
    intro addr length flags prot res offset ok s₂ hlow hsole hfixed hun
    simp only [Call.Low, if_pos hfixed] at hlow
    refine (h.munmap_sole hb hlow.2.1 ?_ ?_ hun).1
    · rw [alignUp_alignUp]
      have := hlow.2.2
      unfold Fits lowEnd pageSize at *
      omega
    · rw [alignUp_alignUp]
      exact hsole hfixed
  cases step_executed hs with
  | refused e he =>
    subst he
    exact hb
  | notCleared hfixed hun => exact hclear hlow hsole hfixed hun
  | @fixed _ length _ _ _ _ _ s₂ hfixed hun hat =>
    have hb₂ := hclear hlow hsole hfixed hun
    simp only [Call.Low, if_pos hfixed] at hlow
    obtain ⟨hanon, haddr, hplace⟩ := hlow
    exact ((h.munmap haddr hun).mmapAt haddr (alignUp_dvd length) hplace hanon hat).2.backed hb₂
  | @bumped _ length _ _ _ _ _ next hfixed hdvd hat =>
    simp only [Call.Low, if_neg hfixed] at hlow
    obtain ⟨hanon, hplace⟩ := hlow
    exact ((h.bump (hdvd h.anonBase)).mmapAt h.anonBase (alignUp_dvd length) hplace hanon
      hat).2.backed hb
  | unmapped ok hm => exact (h.munmap_sole hb hlow hsole.1 hsole.2 hm).1
  | protect ret hm => exact h.mprotect_backed hb hlow hm
  | fault ok hm => exact (h.fault hm).2.1 hb

/-- What a process has mapped belongs to its ranges, in every state that such calls lead to. -/
theorem backed_of_run {s₀ : State σ} (h₀ : Boot A s₀ pm)
    (hempty : ∀ v, v < lowEnd → ¬ Present s₀.vm pm v)
    (hrun : Reach (Step A pm) (fun s c => c.Low s ∧ c.Sole pm s) s₀ s) :
    Sys A s pm ∧ Backed s pm := by
  refine hrun.invariant (I := fun s => Sys A s pm ∧ Backed s pm)
    ⟨h₀.sys, fun v hv hp => absurd hp (hempty v hv)⟩ ?_
  rintro s c s' ⟨h, hb⟩ ⟨hlow, hsole⟩ hs
  exact ⟨h.exec hlow hs, h.exec_backed hb hlow hsole hs⟩

end

theorem bootProcess_empty (v : Nat) (hv : v < lowEnd) : ¬ Present bootProcess.vm 0x2000 v := by
  have hnext : nextTable (bootMem 0x2000 (pml4Entry v)) = none := by
    rw [bootMem, if_neg fun hc => not_upperHalf_of_low hv hc.2, nextTable_zero]
  have hwalk : Infra.Radix.walk nextTable bootProcess.vm.mem 0x2000 (levels v) = none := by
    show Infra.Radix.walk nextTable bootMem 0x2000 (pml4Entry v :: _) = none
    rw [Infra.Radix.walk_cons, hnext]
    rfl
  unfold Present
  rw [pte_of_walk_none hwalk]
  exact fun hc => hc present_zero

end Lyre.Mmap
