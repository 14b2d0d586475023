import Lyre.Infra.Run
import Lyre.Properties.Vmm

/-!
# A pagemap is a partial map

What `vmm.c` is for: a pagemap sends a virtual page number to a physical page with flags, or to
nothing. Mapping inserts, changing the protection replaces the flags, unmapping deletes, and each
of the three says whether it found the page in the state it wants.

`run_refines` is the refinement: along every sequence of calls the four-level tables and the
partial map stay in step, call results included.
-/

namespace Lyre.Spec

/-- Virtual page number to physical page and flags. -/
abbrev PageMap := Nat → Option (Nat × Nat)

namespace PageMap

def insertIfAbsent (m : PageMap) (page : Nat) (entry : Nat × Nat) : Bool × PageMap :=
  if m page = none then (true, Function.update m page (some entry)) else (false, m)

def replaceFlags (m : PageMap) (page flags : Nat) : Bool × PageMap :=
  match m page with
  | none => (false, m)
  | some (phys, _) => (true, Function.update m page (some (phys, flags)))

def delete (m : PageMap) (page : Nat) : Bool × PageMap :=
  if m page = none then (false, m) else (true, Function.update m page none)

end PageMap

/-- The calls that change a pagemap. -/
inductive Call
  | map (virt phys flags : Nat)
  | flag (virt flags : Nat)
  | unmap (virt : Nat)

/-- Arguments as the callers give them. -/
def Call.Valid : Call → Prop
  | .map _ phys flags => Vmm.PageAddr phys ∧ Vmm.PageFlags flags
  | .flag _ flags => Vmm.PageFlags flags
  | .unmap _ => True

/-- What the call means for the partial map. -/
def Call.meaning (m : PageMap) : Call → Bool × PageMap
  | .map virt phys flags => m.insertIfAbsent (Vmm.vpn virt) (phys, flags)
  | .flag virt flags => m.replaceFlags (Vmm.vpn virt) flags
  | .unmap virt => m.delete (Vmm.vpn virt)

section

open Vmm Infra

variable {σ : Type} (A : PageAllocator σ)

/-- What the call does to the page tables. -/
def Call.exec (s : State σ) (r : Nat) : Call → Bool × State σ
  | .map virt phys flags => vmmMapPage A s r virt phys flags
  | .flag virt flags => vmmFlagPage A s r virt flags
  | .unmap virt => vmmUnmapPage A s r virt

variable {A} {roots shared : Nat → Prop} {s s' : State σ} {r : Nat}

/-- An entry as the partial map has it. -/
def entryView (entry : Nat) : Option (Nat × Nat) :=
  if entry &&& ptePresent = 0 then none else some (pteGetAddr entry, pteGetFlags entry)

/-- The partial map that the tables below `r` stand for. Page numbers have 36 bits. -/
def view (s : State σ) (r : Nat) : PageMap := fun page =>
  if page < 2 ^ 36 then entryView (pte s r (page * 2 ^ 12)) else none

theorem vpn_mul {page : Nat} (h : page < 2 ^ 36) : vpn (page * 2 ^ 12) = page := by
  unfold vpn
  omega

theorem vpn_lt (virt : Nat) : vpn virt < 2 ^ 36 := Nat.mod_lt _ (by decide)

theorem pte_vpn {virt virt' : Nat} (h : vpn virt = vpn virt') : pte s r virt = pte s r virt' := by
  obtain ⟨h1, h2⟩ := vpn_eq_iff.mp h
  unfold pte
  rw [h1, h2]

theorem view_vpn (s : State σ) (r virt : Nat) : view s r (vpn virt) = entryView (pte s r virt) := by
  unfold view
  rw [if_pos (vpn_lt virt), pte_vpn (vpn_mul (vpn_lt virt))]

theorem view_vpn_eq_none {virt : Nat} : view s r (vpn virt) = none ↔ ¬ Present s r virt := by
  rw [view_vpn]
  simp [entryView, Present]

theorem view_vpn_of_present {virt : Nat} (h : Present s r virt) :
    view s r (vpn virt) = some (pteGetAddr (pte s r virt), pteGetFlags (pte s r virt)) := by
  rw [view_vpn, entryView, if_neg h]

theorem view_of_sameEntries (h : SameEntries roots s s') (hr : roots r) :
    view s' r = view s r := by
  funext page
  unfold view
  rw [h r _ hr]

/-- Replacing the entry of a page updates the map at its number. -/
theorem view_of_put {virt value : Nat} (h : Put roots shared s s' r virt value) (hr : roots r) :
    view s' r = Function.update (view s r) (vpn virt) (entryView value) := by
  funext page
  by_cases hp : page < 2 ^ 36
  · have hmul := vpn_mul hp
    by_cases he : page = vpn virt
    · rw [he, Function.update_self, view_vpn]
      rw [(h r virt hr).1 ⟨rfl, Or.inl rfl⟩]
    · rw [Function.update_of_ne he]
      unfold view
      rw [if_pos hp, if_pos hp, (h r _ hr).2]
      rintro ⟨hv, _⟩
      exact he (by rw [hv, hmul])
  · have he : page ≠ vpn virt := fun he => hp (he ▸ vpn_lt virt)
    rw [Function.update_of_ne he, view, view, if_neg hp, if_neg hp]

theorem entryView_or {phys flags : Nat} (hp : PageAddr phys) (hf : PageFlags flags) :
    entryView (phys ||| flags) = some (phys, flags) := by
  rw [entryView, if_neg (present_or hf.present), pteGetAddr_or hp hf.apart, pteGetFlags_or hp hf]

/-- **One call.** The tables stay a forest, the call returns what the partial map's operation
returns, and the map it leaves is the one that operation leaves. -/
theorem exec_refines {c : Call} (h : Wf A roots shared s) (hr : roots r) (hc : c.Valid)
    (hsup : A.Supplies s.pmm 3) :
    Wf A roots shared (c.exec A s r).2 ∧
      (c.exec A s r).1 = (c.meaning (view s r)).1 ∧
      view (c.exec A s r).2 r = (c.meaning (view s r)).2 := by
  cases c with
  | map virt phys flags =>
    obtain ⟨hp, hf⟩ := hc
    have hne := (vmmMapPage_supply (n := 0) r virt phys flags hsup).1
    rcases vmmMapPage_spec virt phys flags h hr with
      ⟨⟨hres, hwf, _, hsame⟩, hcase⟩ | ⟨⟨hres, hwf, _, hput⟩, habs⟩
    · have hpres : Present s r virt := hcase.resolve_right hne
      have hview : view s r (vpn virt) ≠ none := fun hc => view_vpn_eq_none.mp hc hpres
      refine ⟨hwf, ?_, ?_⟩
      · simpa [Call.exec, Call.meaning, PageMap.insertIfAbsent, hview] using hres
      · simpa [Call.exec, Call.meaning, PageMap.insertIfAbsent, hview] using
          view_of_sameEntries hsame hr
    · have hview : view s r (vpn virt) = none := view_vpn_eq_none.mpr habs
      refine ⟨hwf, ?_, ?_⟩
      · simpa [Call.exec, Call.meaning, PageMap.insertIfAbsent, hview] using hres
      · have hupd := view_of_put hput hr
        rw [entryView_or hp hf] at hupd
        simpa [Call.exec, Call.meaning, PageMap.insertIfAbsent, hview] using hupd
  | flag virt flags =>
    obtain ⟨-, ⟨⟨hres, hwf, _, hsame⟩, habs⟩ | ⟨⟨hres, hwf, _, hput⟩, hpres⟩⟩ :=
      vmmFlagPage_spec virt flags h hr
    · have hview : view s r (vpn virt) = none := view_vpn_eq_none.mpr habs
      refine ⟨hwf, ?_, ?_⟩
      · simpa [Call.exec, Call.meaning, PageMap.replaceFlags, hview] using hres
      · simpa [Call.exec, Call.meaning, PageMap.replaceFlags, hview] using
          view_of_sameEntries hsame hr
    · have hview := view_vpn_of_present hpres
      refine ⟨hwf, ?_, ?_⟩
      · simpa [Call.exec, Call.meaning, PageMap.replaceFlags, hview] using hres
      · have hupd := view_of_put hput hr
        rw [entryView_or (pageAddr_pteGetAddr _) hc] at hupd
        simpa [Call.exec, Call.meaning, PageMap.replaceFlags, hview] using hupd
  | unmap virt =>
    obtain ⟨-, ⟨⟨hres, hwf, _, hsame⟩, habs⟩ | ⟨⟨hres, hwf, _, hput⟩, hpres⟩⟩ :=
      vmmUnmapPage_spec virt h hr
    · have hview : view s r (vpn virt) = none := view_vpn_eq_none.mpr habs
      refine ⟨hwf, ?_, ?_⟩
      · simpa [Call.exec, Call.meaning, PageMap.delete, hview] using hres
      · simpa [Call.exec, Call.meaning, PageMap.delete, hview] using
          view_of_sameEntries hsame hr
    · have hview : view s r (vpn virt) ≠ none := fun hc => view_vpn_eq_none.mp hc hpres
      refine ⟨hwf, ?_, ?_⟩
      · simpa [Call.exec, Call.meaning, PageMap.delete, hview] using hres
      · have hupd := view_of_put hput hr
        simpa [Call.exec, Call.meaning, PageMap.delete, hview, entryView] using hupd

/-! ## Runs -/

/-- The tables and the partial map, side by side. -/
structure Pair (σ : Type) where
  impl : State σ
  spec : PageMap

/-- Both sides make the same call. -/
def PairStep (A : PageAllocator σ) (r : Nat) (c : Pair σ) (a : Call) (c' : Pair σ) : Prop :=
  c' = { impl := (a.exec A c.impl r).2, spec := (a.meaning c.spec).2 }

/-- Calls with valid arguments, made while `pmm_alloc` still has pages for the tables. -/
def PairOk (A : PageAllocator σ) (c : Pair σ) (a : Call) : Prop :=
  a.Valid ∧ A.Supplies c.impl.pmm 3

/--
**The page tables are a partial map.** Start from any pagemap `r` of a well-formed system and
make any sequence of `vmm_map_page`, `vmm_flag_page` and `vmm_unmap_page` calls. In every state
reached the tables stand for the map that insert-if-absent, replace-flags and delete produce,
the next call returns what that operation returns, and `vmm_virt2phys` returns the map's page.
-/
theorem run_refines {s₀ : State σ} {c : Pair σ} (h : Wf A roots shared s₀) (hr : roots r)
    (hrun : Reach (PairStep A r) (PairOk A) { impl := s₀, spec := view s₀ r } c) :
    view c.impl r = c.spec ∧
    (∀ a, PairOk A c a → (a.exec A c.impl r).1 = (a.meaning c.spec).1) ∧
    ∀ virt, vmmVirt2phys A c.impl r virt =
      ((c.spec (vpn virt)).map Prod.fst).getD invalidPhys := by
  have hinv : Wf A roots shared c.impl ∧ view c.impl r = c.spec := by
    refine hrun.invariant (I := fun c => Wf A roots shared c.impl ∧ view c.impl r = c.spec)
      ⟨h, rfl⟩ ?_
    rintro c a c' ⟨hwf, hview⟩ ⟨hv, hsup⟩ rfl
    obtain ⟨hwf', _, hview'⟩ := exec_refines hwf hr hv hsup
    exact ⟨hwf', by rw [hview', hview]⟩
  obtain ⟨hwf, hview⟩ := hinv
  refine ⟨hview, ?_, ?_⟩
  · rintro a ⟨hv, hsup⟩
    rw [(exec_refines hwf hr hv hsup).2.1, hview]
  · intro virt
    rw [vmmVirt2phys_eq, ← hview]
    split
    · next hp => rw [view_vpn_of_present hp]; rfl
    · next hp => rw [view_vpn_eq_none.mpr hp]; rfl

/-- One page of the process of `bootState` mapped and its flags replaced. -/
theorem run_refines_boot : ∃ c : Pair Pmm.State,
    Reach (PairStep Pmm.allocator 0x2000) (PairOk Pmm.allocator)
      { impl := bootState, spec := view bootState 0x2000 } c ∧
    view c.impl 0x2000 = c.spec ∧
    (c.spec (vpn 0x400000)) = some (0x5000, ptePresent ||| pteUser) := by
  have hrun : Reach (PairStep Pmm.allocator 0x2000) (PairOk Pmm.allocator)
      { impl := bootState, spec := view bootState 0x2000 } _ :=
    .tail (.tail .refl (a := .map 0x400000 0x5000 (ptePresent ||| pteWritable))
        ⟨⟨⟨by decide, by decide⟩, by decide, by decide, by decide⟩, by decide⟩ rfl)
      (a := .flag 0x400000 (ptePresent ||| pteUser))
      ⟨⟨by decide, by decide, by decide⟩, by decide⟩ rfl
  exact ⟨_, hrun, (run_refines bootState_wf (Or.inr rfl) hrun).1, by decide⟩

end

end Lyre.Spec
