import Lyre.Properties.MmapRanges
import Lyre.Properties.Pages

/-!
# The pages of a process

A process whose mappings are anonymous and lie in the lower half. Its pagemap, the kernel's and
the shadow pagemaps of its ranges are a forest, and the pages in the shadow pagemaps are data
pages, each in one place (`Sys`). Every call keeps this up.
-/

namespace Lyre.Mmap

open Vmm Infra

section

variable {σ : Type} {A : PageAllocator σ} {s s' : State σ} {pm id b e : Nat}

/-! ## The invariant -/

/-- The global range behind a range. -/
def globalOf (s : State σ) (x : Nat) : GlobalRange := s.globals (s.locals x).global

/-- The shadow pagemap behind a range. -/
def shadowOf (s : State σ) (x : Nat) : Nat := (globalOf s x).shadowPagemap

/-- The pagemaps in play: the kernel's, the process's and those behind its ranges. -/
def Roots (s : State σ) (pm r : Nat) : Prop :=
  r = s.kernelTop ∨ r = pm ∨ ∃ x ∈ s.ranges pm, r = shadowOf s x

/-- What is true of a range in the list. The one local that its global range knows is in the list
as long as it is not freed. -/
structure RangeOk (s : State σ) (pm x : Nat) : Prop where
  pagemap : (s.locals x).pagemap = pm
  anonymous : (s.locals x).flags.anonymous = true
  live : s.localFreed x = false
  global_lt : (s.locals x).global < s.nextId
  shadow_ne : shadowOf s x ≠ pm
  base_dvd : pageSize ∣ (globalOf s x).base
  length_dvd : pageSize ∣ (globalOf s x).length
  low : (globalOf s x).base + (globalOf s x).length ≤ lowEnd
  base_le : (globalOf s x).base ≤ (s.locals x).base
  stop_le : (s.locals x).base + (s.locals x).length ≤ (globalOf s x).base + (globalOf s x).length
  known : ∃ o, (globalOf s x).locals = [o] ∧ o < s.nextId ∧
    (s.localFreed o = false → o ∈ s.ranges pm ∧ (s.locals o).global = (s.locals x).global)

/-- The system as one process sees it. -/
structure Sys (A : PageAllocator σ) (s : State σ) (pm : Nat) : Prop extends Ordered s pm where
  wf : Wf A (Roots s pm) upperHalf s.vm
  fresh : ∀ x, s.nextId ≤ x → s.localFreed x = false
  range : ∀ x ∈ s.ranges pm, RangeOk s pm x
  apart : ApartIf Eq s pm
  inj : ∀ x ∈ s.ranges pm, ∀ y ∈ s.ranges pm, shadowOf s x = shadowOf s y →
    (s.locals x).global = (s.locals y).global
  within : ∀ x ∈ s.ranges pm, ∀ v, v < lowEnd → Present s.vm (shadowOf s x) v →
    (globalOf s x).base ≤ v ∧ v < (globalOf s x).base + (globalOf s x).length
  owned : ∀ x ∈ s.ranges pm, ∀ v, v < lowEnd → Present s.vm (shadowOf s x) v →
    A.Owned s.vm.pmm (pteGetAddr (pte s.vm (shadowOf s x) v))
  data : ∀ x ∈ s.ranges pm, ∀ v, v < lowEnd → Present s.vm (shadowOf s x) v →
    ¬ TablePage (Roots s pm) s.vm (pteGetAddr (pte s.vm (shadowOf s x) v))
  unique : ∀ x ∈ s.ranges pm, ∀ y ∈ s.ranges pm, ∀ v w, v < lowEnd → w < lowEnd →
    Present s.vm (shadowOf s x) v → Present s.vm (shadowOf s y) w →
    pteGetAddr (pte s.vm (shadowOf s x) v) = pteGetAddr (pte s.vm (shadowOf s y) w) →
    (s.locals x).global = (s.locals y).global ∧ v / pageSize = w / pageSize

namespace Sys

theorem root_pm (_h : Sys A s pm) : Roots s pm pm := Or.inr (Or.inl rfl)

theorem root_shadow (_h : Sys A s pm) {x : Nat} (hx : x ∈ s.ranges pm) :
    Roots s pm (shadowOf s x) := Or.inr (Or.inr ⟨x, hx, rfl⟩)

theorem owning (h : Sys A s pm) {x : Nat} (hx : x ∈ s.ranges pm) :
    Owning A (Roots s pm) s.vm (shadowOf s x) :=
  ⟨h.owned x hx, h.data x hx, fun v w hv hw hpv hpw he =>
    (h.unique x hx x hx v w hv hw hpv hpw he).2⟩

theorem has_low (h : Sys A s pm) {x v : Nat} (hx : x ∈ s.ranges pm) (hv : (s.locals x).Has v) :
    v < lowEnd ∧ (globalOf s x).base ≤ v ∧ v < (globalOf s x).base + (globalOf s x).length := by
  have hR := h.range x hx
  have := hR.low
  have := hR.base_le
  have := hR.stop_le
  unfold LocalRange.Has at hv
  omega

end Sys

/-! ## Changes that keep the invariant -/

/-- A range of the list after a turn is a piece of one before, behind the same shadow pagemap. -/
theorem Turn.shadow_parent {ps : List Nat} (t : Turn s s' pm id ps) (hl : Listed s pm)
    (hid : id ∈ s.ranges pm) {x : Nat} (hx : x ∈ s'.ranges pm) :
    ∃ y ∈ s.ranges pm, Piece (s'.locals x) (s.locals y) ∧ globalOf s' x = globalOf s y ∧
      shadowOf s' x = shadowOf s y := by
  obtain ⟨y, hy, hp⟩ := t.parent hl hid hx
  have hg : globalOf s' x = globalOf s y := by
    unfold globalOf
    rw [t.globals, hp.global]
  exact ⟨y, hy, hp, hg, by rw [shadowOf, shadowOf, hg]⟩

/-- What holds of each range still holds after a turn, of the pieces as of the ranges that stay. -/
theorem Sys.range_turn {ps : List Nat} (h : Sys A s pm) (hid : id ∈ s.ranges pm)
    (t : Turn s s' pm id ps) (hdrop : id ∉ ps → s'.localFreed id = true) :
    ∀ x ∈ s'.ranges pm, RangeOk s' pm x := by
  have hl := h.toListed
  intro x hx
  obtain ⟨y, hy, hp, hg, hsh⟩ := t.shadow_parent hl hid hx
  have hR := h.range y hy
  obtain ⟨o, ho, holt, hlive⟩ := hR.known
  refine ⟨by rw [hp.pagemap]; exact hR.pagemap, by rw [hp.flags]; exact hR.anonymous, ?_,
    by rw [hp.global]; exact Nat.lt_of_lt_of_le hR.global_lt t.nextId_le,
    by rw [hsh]; exact hR.shadow_ne, by rw [hg]; exact hR.base_dvd,
    by rw [hg]; exact hR.length_dvd, by rw [hg]; exact hR.low,
    by rw [hg]; exact Nat.le_trans hR.base_le hp.base_le,
    by rw [hg]; exact Nat.le_trans hp.stop_le hR.stop_le,
    o, by rw [hg]; exact ho, Nat.lt_of_lt_of_le holt t.nextId_le, ?_⟩
  · rcases (t.mem x).mp hx with ⟨hx, hne⟩ | hx
    · rw [(t.others x (hl.lt x hx) hne).2]
      exact (h.range x hx).live
    · rcases t.ids x hx with rfl | ⟨hge, _⟩
      · rw [t.kept hx]
        exact (h.range x hid).live
      · rw [t.fresh x hge]
        exact h.fresh x hge
  · intro hfree
    rw [hp.global]
    by_cases hoid : o = id
    · subst hoid
      have hmem : o ∈ ps := by
        by_contra hc
        rw [hdrop hc] at hfree
        simp at hfree
      have hold := hlive (by rw [← t.kept hmem]; exact hfree)
      exact ⟨(t.mem o).mpr (Or.inr hmem), by rw [(t.pieces o hmem).global]; exact hold.2⟩
    · obtain ⟨hlo, hfo⟩ := t.others o holt hoid
      have hold := hlive (by rw [← hfo]; exact hfree)
      exact ⟨(t.mem o).mpr (Or.inl ⟨hold.1, hoid⟩), by rw [hlo]; exact hold.2⟩

/--
A turn of `munmap` or `mprotect` keeps the invariant: it makes no table, and what it leaves in the
shadow pagemaps is as before and still owned. A range that leaves the list is freed.
-/
theorem Sys.turn {ps : List Nat} (h : Sys A s pm) (hid : id ∈ s.ranges pm)
    (t : Turn s s' pm id ps) (hdrop : id ∉ ps → s'.localFreed id = true)
    (hwf : Wf A (Roots s pm) upperHalf s'.vm)
    (htab : ∀ q, TablePage (Roots s pm) s'.vm q → TablePage (Roots s pm) s.vm q)
    (hent : ∀ x ∈ s.ranges pm, ∀ v, v < lowEnd → Present s'.vm (shadowOf s x) v →
      pte s'.vm (shadowOf s x) v = pte s.vm (shadowOf s x) v ∧
        A.Owned s'.vm.pmm (pteGetAddr (pte s.vm (shadowOf s x) v))) : Sys A s' pm := by
  have hl := h.toListed
  have hroots : ∀ r, Roots s' pm r → Roots s pm r := by
    rintro r (hr | hr | ⟨x, hx, hr⟩)
    · exact Or.inl (by rw [hr, t.kernelTop])
    · exact Or.inr (Or.inl hr)
    · obtain ⟨y, hy, _, _, hsh⟩ := t.shadow_parent hl hid hx
      exact Or.inr (Or.inr ⟨y, hy, by rw [hr, hsh]⟩)
  -- an entry that is still there, seen in the old state
  have hold : ∀ {x y v}, y ∈ s.ranges pm → shadowOf s' x = shadowOf s y → v < lowEnd →
      Present s'.vm (shadowOf s' x) v →
      Present s.vm (shadowOf s y) v ∧
        pte s'.vm (shadowOf s' x) v = pte s.vm (shadowOf s y) v := by
    intro x y v hy hsh hv hp
    rw [hsh] at hp ⊢
    have he := (hent y hy v hv hp).1
    unfold Present at hp ⊢
    rw [he] at hp
    exact ⟨hp, he⟩
  refine
    { toOrdered := ⟨t.listed hl hid, by rw [t.anonBase]; exact h.anonBase⟩
      wf := hwf.mono hroots
      fresh := ?_
      range := h.range_turn hid t hdrop
      apart := t.apartIf hl hid (fun _ _ h => h.symm) h.apart
      inj := ?_
      within := ?_
      owned := ?_
      data := ?_
      unique := ?_ }
  · intro x hx
    rw [t.fresh x (Nat.le_trans t.nextId_le hx)]
    exact h.fresh x (Nat.le_trans t.nextId_le hx)
  · intro x hx y hy hxy
    obtain ⟨x', hx', hpx, _, hshx⟩ := t.shadow_parent hl hid hx
    obtain ⟨y', hy', hpy, _, hshy⟩ := t.shadow_parent hl hid hy
    rw [hpx.global, hpy.global]
    exact h.inj x' hx' y' hy' (by rw [← hshx, ← hshy]; exact hxy)
  · intro x hx v hv hp
    obtain ⟨y, hy, _, hg, hsh⟩ := t.shadow_parent hl hid hx
    rw [hg]
    exact h.within y hy v hv (hold hy hsh hv hp).1
  · intro x hx v hv hp
    obtain ⟨y, hy, _, hg, hsh⟩ := t.shadow_parent hl hid hx
    rw [(hold hy hsh hv hp).2]
    exact (hent y hy v hv (by rw [← hsh]; exact hp)).2
  · intro x hx v hv hp ht
    obtain ⟨y, hy, _, hg, hsh⟩ := t.shadow_parent hl hid hx
    obtain ⟨hp', he⟩ := hold hy hsh hv hp
    rw [he] at ht
    exact h.data y hy v hv hp' (htab _ (Infra.Radix.IsTable.mono hroots ht))
  · intro x hx y hy v w hv hw hpv hpw he
    obtain ⟨x', hx', hpx, _, hshx⟩ := t.shadow_parent hl hid hx
    obtain ⟨y', hy', hpy, _, hshy⟩ := t.shadow_parent hl hid hy
    obtain ⟨hpv', hev⟩ := hold hx' hshx hv hpv
    obtain ⟨hpw', hew⟩ := hold hy' hshy hw hpw
    rw [hpx.global, hpy.global]
    exact h.unique x' hx' y' hy' v w hv hw hpv' hpw' (by rw [← hev, ← hew]; exact he)

/-- The ranges are untouched. -/
structure SameRanges (s s' : State σ) (pm : Nat) : Prop where
  ranges : s'.ranges pm = s.ranges pm
  locals : s'.locals = s.locals
  localFreed : s'.localFreed = s.localFreed
  globals : s'.globals = s.globals
  kernelTop : s'.kernelTop = s.kernelTop
  nextId : s.nextId ≤ s'.nextId
  anonBase : pageSize ∣ s'.mmapAnonBase

namespace SameRanges

theorem globalOf (h : SameRanges s s' pm) (x : Nat) : globalOf s' x = Mmap.globalOf s x := by
  rw [Mmap.globalOf, Mmap.globalOf, h.globals, h.locals]

theorem shadowOf (h : SameRanges s s' pm) (x : Nat) : shadowOf s' x = Mmap.shadowOf s x := by
  rw [Mmap.shadowOf, Mmap.shadowOf, h.globalOf]

theorem roots (h : SameRanges s s' pm) : Roots s' pm = Roots s pm := by
  funext r
  simp only [Roots, h.kernelTop, h.ranges, h.shadowOf]

theorem ordered (h : SameRanges s s' pm) (ho : Ordered s pm) : Ordered s' pm :=
  ⟨ho.toListed.of_eq h.ranges (fun _ _ => by rw [h.locals]) h.nextId, h.anonBase⟩

theorem rangeOk (h : SameRanges s s' pm) {x : Nat} (hR : RangeOk s pm x) : RangeOk s' pm x := by
  obtain ⟨o, ho, holt, hlive⟩ := hR.known
  refine ⟨by rw [h.locals]; exact hR.pagemap, by rw [h.locals]; exact hR.anonymous,
    by rw [h.localFreed]; exact hR.live,
    by rw [h.locals]; exact Nat.lt_of_lt_of_le hR.global_lt h.nextId,
    by rw [h.shadowOf]; exact hR.shadow_ne, by rw [h.globalOf]; exact hR.base_dvd,
    by rw [h.globalOf]; exact hR.length_dvd, by rw [h.globalOf]; exact hR.low,
    by rw [h.globalOf, h.locals]; exact hR.base_le,
    by rw [h.globalOf, h.locals]; exact hR.stop_le,
    o, by rw [h.globalOf]; exact ho, Nat.lt_of_lt_of_le holt h.nextId, ?_⟩
  rw [h.localFreed, h.ranges, h.locals]
  exact hlive

end SameRanges

theorem Sys.of_same (h : Sys A s pm) (hs : SameRanges s s' pm)
    (hwf : Wf A (Roots s pm) upperHalf s'.vm) (hkeep : Keeps A (Roots s pm) s.vm s'.vm)
    (hent : ∀ x ∈ s.ranges pm, ∀ v, v < lowEnd →
      pte s'.vm (shadowOf s x) v = pte s.vm (shadowOf s x) v) : Sys A s' pm := by
  have hpres : ∀ x ∈ s.ranges pm, ∀ v, v < lowEnd → Present s'.vm (shadowOf s x) v →
      Present s.vm (shadowOf s x) v := by
    intro x hx v hv hp
    unfold Present at *
    rwa [hent x hx v hv] at hp
  refine
    { toOrdered := hs.ordered h.toOrdered
      wf := by rw [hs.roots]; exact hwf
      fresh := fun x hx => by rw [hs.localFreed]; exact h.fresh x (Nat.le_trans hs.nextId hx)
      range := fun x hx => hs.rangeOk (h.range x (by rwa [hs.ranges] at hx))
      apart := ?_
      inj := ?_
      within := ?_
      owned := ?_
      data := ?_
      unique := ?_ }
  · unfold ApartIf
    rw [hs.ranges, hs.locals]
    exact h.apart
  · rw [hs.ranges, hs.locals]
    simp only [hs.shadowOf]
    exact h.inj
  · intro x hx v hv hp
    rw [hs.ranges] at hx
    rw [hs.shadowOf] at hp
    rw [hs.globalOf]
    exact h.within x hx v hv (hpres x hx v hv hp)
  · intro x hx v hv hp
    rw [hs.ranges] at hx
    rw [hs.shadowOf] at hp ⊢
    rw [hent x hx v hv]
    exact hkeep.owned _ (h.owned x hx v hv (hpres x hx v hv hp))
  · intro x hx v hv hp
    rw [hs.ranges] at hx
    rw [hs.shadowOf] at hp ⊢
    rw [hent x hx v hv, hs.roots]
    exact hkeep.not_table (h.owned x hx v hv (hpres x hx v hv hp))
      (h.data x hx v hv (hpres x hx v hv hp))
  · intro x hx y hy v w hv hw hpv hpw he
    rw [hs.ranges] at hx hy
    rw [hs.shadowOf] at hpv he hpw
    rw [hs.shadowOf] at he
    rw [hent x hx v hv, hent y hy w hw] at he
    rw [hs.locals]
    exact h.unique x hx y hy v w hv hw (hpres x hx v hv hpv) (hpres y hy w hw hpw) he

/-- `errno` and unused numbers. -/
theorem Sys.of_errno (h : Sys A s pm) (hs : SameRanges s s' pm) (hm : s'.vm.mem = s.vm.mem)
    (hp : s'.vm.pmm = s.vm.pmm) : Sys A s' pm := by
  refine h.of_same hs (h.wf.of_eq hm hp) (.of_eq hm hp) fun x _ v _ => ?_
  unfold pte
  rw [hm]

/-! ## Cutting -/

/-- The part of `munmap`'s turn that changes memory: the pages of the snip are unmapped, and when
the range goes as a whole, the pages of its shadow pagemap are given back. -/
theorem munmapSnip_vm (h : Sys A s pm) (hid : id ∈ s.ranges pm) (hS : Snip (s.locals id) b e)
    (hs : munmapSnip A s pm id b e = (true, s')) :
    ∃ vm l, Edited A (Roots s pm) s.vm vm pm b e unmapped ∧ s'.freed = l ++ s.freed ∧
      ((id ∈ s'.ranges pm ∧ l = [] ∧ s'.vm = vm) ∨
        ((b = (s.locals id).base ∧ e = (s.locals id).base + (s.locals id).length) ∧
          s'.localFreed id = true ∧
          Released A (Roots s pm) vm s'.vm (shadowOf s id) (globalOf s id).base
            ((globalOf s id).base + (globalOf s id).length) l)) := by
  have hR := h.range id hid
  have hstop := hS.le_stop
  have hlow : e ≤ lowEnd := by
    have := hR.low
    have := hR.stop_le
    omega
  have hed := unmapPages_edited (A := A) h.wf h.root_pm hS.begin_dvd hS.end_dvd
    (Nat.le_of_lt hS.lt) hlow
  rcases munmapSnip_cases (A := A) pm hS with
    ⟨hb, he, heq⟩ | ⟨_, _, heq⟩ | ⟨_, ⟨_, heq⟩ | ⟨_, heq⟩⟩
  · obtain rfl : dropWhole A (unmapPages A s pm b e) pm id b e = s' := by
      rw [heq] at hs
      exact congrArg Prod.snd hs
    -- unmapping left the shadow pagemap as it was
    have hO : Owning A (Roots s pm) (unmapPages A s pm b e).vm (shadowOf s id) :=
      (h.owning hid).edited hed (h.root_shadow hid) hR.shadow_ne
    obtain ⟨vm, l, hrel, hspec⟩ := releaseShadow_spec
      (s := removeRange (unmapPages A s pm b e) pm id) (g := (s.locals id).global)
      (h.root_shadow hid) hed.wf hO hR.base_dvd hR.length_dvd hR.low
    obtain ⟨o, ho, _, _⟩ := hR.known
    have hone : (s.globals (s.locals id).global).locals.length = 1 := by
      show (globalOf s id).locals.length = 1
      rw [ho]
      rfl
    have hdrop : dropWhole A (unmapPages A s pm b e) pm id b e = freeLocal
        { removeRange (unmapPages A s pm b e) pm id with
          vm, freed := l ++ s.freed } id := by
      show (if (s.globals (s.locals id).global).locals.length = 1 then _ else _) = _
      rw [if_pos hone]
      show freeLocal (if (s.locals id).flags.anonymous = true then _ else _) id = _
      rw [if_pos hR.anonymous]
      exact congrArg (fun x => freeLocal x.2 id) hrel
    rw [hdrop]
    exact ⟨_, l, hed, rfl, Or.inr ⟨⟨hb, he⟩, Function.update_self .., hspec⟩⟩
  · obtain rfl : setLocal (unmapPages A s pm b e) id ((s.locals id).rest b e) = s' := by
      rw [heq] at hs
      exact congrArg Prod.snd hs
    exact ⟨_, [], hed, rfl, Or.inl ⟨hid, rfl, rfl⟩⟩
  · rw [heq] at hs
    simp at hs
  · obtain rfl := congrArg Prod.snd (heq.symm.trans hs)
    refine ⟨_, [], hed, rfl, Or.inl ⟨?_, rfl, rfl⟩⟩
    show id ∈ Function.update s.ranges pm (s.ranges pm ++ [s.nextId]) pm
    rw [Function.update_self]
    exact List.mem_append_left _ hid

theorem Sys.turn_edited {ps : List Nat} {f : Nat → Nat} (h : Sys A s pm) (hid : id ∈ s.ranges pm)
    (t : Turn s s' pm id ps) (hmem : id ∈ s'.ranges pm)
    (hed : Edited A (Roots s pm) s.vm s'.vm pm b e f) : Sys A s' pm := by
  refine h.turn hid t (fun hc => ?_) hed.wf hed.tables fun x hx v hv hp => ?_
  · rcases (t.mem id).mp hmem with ⟨_, hne⟩ | hps
    · exact absurd rfl hne
    · exact absurd hps hc
  · have he := hed.other (h.root_shadow hx) (h.range x hx).shadow_ne hv
    unfold Present at hp
    rw [he] at hp
    exact ⟨he, by rw [hed.pmm]; exact h.owned x hx v hv hp⟩

/-- **A turn of `munmap` keeps the invariant.** -/
theorem Sys.munmapSnip (h : Sys A s pm) (hid : id ∈ s.ranges pm) (hS : Snip (s.locals id) b e)
    (hs : munmapSnip A s pm id b e = (true, s')) : Sys A s' pm := by
  obtain ⟨ps, hcut⟩ := munmapSnip_cut h.toListed hid hS hs
  obtain ⟨vm, l, hed, _, ⟨hmem, _, rfl⟩ | ⟨_, hfreed, hrel⟩⟩ := munmapSnip_vm h hid hS hs
  · exact h.turn_edited hid hcut.toTurn hmem hed
  · refine h.turn hid hcut.toTurn (fun _ => hfreed) hrel.wf
      (fun q hq => hed.tables q (hrel.tables q hq)) ?_
    intro x hx v hv hp
    have he := hed.other (h.root_shadow hx) (h.range x hx).shadow_ne hv
    have heid : ∀ w, w < lowEnd → pte vm (shadowOf s id) w = pte s.vm (shadowOf s id) w :=
      fun w hw => hed.other (h.root_shadow hid) (h.range id hid).shadow_ne hw
    have hlow := (h.range id hid).low
    -- the shadow pagemap that was given back has no entry left
    have hout : ¬ (shadowOf s x = shadowOf s id ∧ (globalOf s id).base ≤ v ∧
        v < (globalOf s id).base + (globalOf s id).length) := by
      rintro ⟨hsh, hin⟩
      unfold Present at hp
      rw [hrel.pte _ v (h.root_shadow hx) hv, if_pos ⟨hsh, hin⟩] at hp
      exact hp (not_present_unmapped _)
    have hpte : pte s'.vm (shadowOf s x) v = pte s.vm (shadowOf s x) v := by
      rw [hrel.pte _ v (h.root_shadow hx) hv, if_neg hout, he]
    have hp' : Present s.vm (shadowOf s x) v := by
      unfold Present at *
      rwa [hpte] at hp
    refine ⟨hpte, (hrel.owned _).mpr ⟨by rw [hed.pmm]; exact h.owned x hx v hv hp', ?_⟩⟩
    -- its pages are not those of another
    intro hin
    obtain ⟨w, h1, h2, hpw, hpe⟩ := (hrel.pages _).mp hin
    have hw : w < lowEnd := by omega
    rw [heid w hw] at hpe
    have hpw' : Present s.vm (shadowOf s id) w := by
      unfold Present at *
      rwa [heid w hw] at hpw
    obtain ⟨hg, hvw⟩ := h.unique x hx id hid v w hv hw hp' hpw' hpe.symm
    have hgx : globalOf s x = globalOf s id := by rw [globalOf, globalOf, hg]
    have hsh : shadowOf s x = shadowOf s id := by rw [shadowOf, shadowOf, hgx]
    exact hout ⟨hsh, by rw [← hgx]; exact h.within x hx v hv hp'⟩

/-- **A turn of `mprotect` keeps the invariant.** -/
theorem Sys.mprotectSnip {prot : Prot} (h : Sys A s pm) (hid : id ∈ s.ranges pm)
    (hS : Snip (s.locals id) b e) (hs : mprotectSnip A s pm id prot b e = some s') :
    Sys A s' pm ∧ Edited A (Roots s pm) s.vm s'.vm pm b e (reflagged (ptFlags prot)) ∧
      s'.freed = s.freed := by
  obtain ⟨ps, hrec⟩ := mprotectSnip_recolor h.toListed hid hS hs
  have hR := h.range id hid
  have hlow : e ≤ lowEnd := by
    have := hR.low
    have := hR.stop_le
    have := hS.le_stop
    omega
  have hed : Edited A (Roots s pm) s.vm s'.vm pm b e (reflagged (ptFlags prot)) := by
    have hed := flagPages_edited (A := A) (ptFlags prot) h.wf h.root_pm hS.begin_dvd
      hS.end_dvd (Nat.le_of_lt hS.lt) hlow
    rcases mprotectSnip_cases (A := A) hS hs with ⟨_, rfl⟩ | ⟨_, rfl⟩ <;> exact hed
  have hfreed : s'.freed = s.freed := by
    rcases mprotectSnip_cases (A := A) hS hs with ⟨_, rfl⟩ | ⟨_, rfl⟩ <;> rfl
  have hmem : id ∈ s'.ranges pm := by
    rcases mprotectSnip_cases (A := A) hS hs with ⟨_, rfl⟩ | ⟨_, rfl⟩ <;>
      simp [pushRange, setLocal, flagPages, hid]
  exact ⟨h.turn_edited hid hrec.toTurn hmem hed, hed, hfreed⟩

/-! ## Mapping -/

theorem foldl_of_fixed {α β : Type} {f : β → α → β} {b : β} : ∀ {l : List α},
    (∀ a ∈ l, f b a = b) → l.foldl f b = b
  | [], _ => rfl
  | a :: l, h => by
    rw [List.foldl_cons, h a List.mem_cons_self]
    exact foldl_of_fixed fun c hc => h c (List.mem_cons_of_mem a hc)

theorem destroyLevel_empty {vm : Vmm.State σ} {level pml start stop : Nat}
    (h : ∀ i, start ≤ i → i < stop → nextTable (vm.mem pml i) = none) :
    destroyLevel A (level + 1) vm pml start stop = Vmm.pmmFree A vm pml := by
  rw [destroyLevel, foldl_of_fixed]
  intro i hi
  rw [List.mem_range'_1] at hi
  simp only [h i hi.1 (by omega)]

/-- The old ranges and their entries, and the entries of the process, are still there. -/
structure Grown (s s' : State σ) (pm : Nat) : Prop where
  ranges : ∀ x ∈ s.ranges pm,
    x ∈ s'.ranges pm ∧ s'.locals x = s.locals x ∧ shadowOf s' x = shadowOf s x
  own : ∀ v, v < lowEnd → pte s'.vm pm v = pte s.vm pm v
  shadow : ∀ x ∈ s.ranges pm, ∀ v, v < lowEnd →
    pte s'.vm (shadowOf s x) v = pte s.vm (shadowOf s x) v
  freed : s'.freed = s.freed

/-- The rest of `mmap` when no range is added: memory is extended. -/
theorem Sys.grown_of_ext (h : Sys A s pm) (hs : SameRanges s s' pm) (hfreed : s'.freed = s.freed)
    (hwf : Wf A (Roots s pm) upperHalf s'.vm) (hext : Ext A (Roots s pm) s.vm s'.vm) :
    Sys A s' pm ∧ Grown s s' pm :=
  ⟨h.of_same hs hwf hext.toKeeps fun _ hx _ _ => hext.pte_eq (h.root_shadow hx),
    fun x hx => ⟨by rw [hs.ranges]; exact hx, by rw [hs.locals], hs.shadowOf x⟩,
    fun _ _ => hext.pte_eq h.root_pm, fun _ hx _ _ => hext.pte_eq (h.root_shadow hx), hfreed⟩

theorem Sys.root_ne (h : Sys A s pm) {r r₀ : Nat} (hr : Roots s pm r)
    (hf : ¬ A.Owned s.vm.pmm r₀) : r ≠ r₀ := by
  rintro rfl
  exact hf (h.wf.owned r (Infra.Radix.IsTable.root hr))

/-- A new range at the end of the list, with a global range of its own. -/
structure Pushed (s s' : State σ) (pm : Nat) (l : LocalRange) (g : GlobalRange) : Prop where
  nextId : s'.nextId = s.nextId + 3
  localFreed : s'.localFreed = s.localFreed
  kernelTop : s'.kernelTop = s.kernelTop
  ranges : s'.ranges pm = s.ranges pm ++ [s.nextId + 2]
  newLocal : s'.locals (s.nextId + 2) = l
  newGlobal : globalOf s' (s.nextId + 2) = g
  global : l.global = s.nextId
  locals : ∀ x < s.nextId, s'.locals x = s.locals x
  globals : ∀ x < s.nextId, s'.globals x = s.globals x

theorem mapped_pushed {base length : Nat} {prot : Prot} {flags : MapFlags} {res : Option Nat}
    {offset shadow : Nat} {vm : Vmm.State σ} (hpm : pm ≠ shadow) :
    Pushed s (mapped s pm base length prot flags res offset shadow vm) pm
      { pagemap := pm, global := s.nextId, base, length, offset, prot, flags }
      { shadowPagemap := shadow, locals := [s.nextId + 2], res, base, length, offset } where
  nextId := rfl
  localFreed := rfl
  kernelTop := rfl
  ranges := by
    have hold : Function.update s.ranges shadow [] pm = s.ranges pm :=
      Function.update_of_ne hpm ..
    exact (Function.update_self ..).trans (congrArg (· ++ [s.nextId + 2]) hold)
  newLocal := Function.update_self ..
  newGlobal := by
    have hlocal : (mapped s pm base length prot flags res offset shadow vm).locals (s.nextId + 2)
        = { pagemap := pm, global := s.nextId, base, length, offset, prot, flags } :=
      Function.update_self ..
    rw [globalOf, hlocal]
    exact Function.update_self ..
  global := rfl
  locals := fun x hx => Function.update_of_ne (by omega) ..
  globals := fun x hx => Function.update_of_ne (Nat.ne_of_lt hx) ..

namespace Pushed

variable {l : LocalRange} {g : GlobalRange} {x : Nat}

theorem mem (p : Pushed s s' pm l g) (hx : x ∈ s'.ranges pm) :
    x ∈ s.ranges pm ∨ x = s.nextId + 2 := by
  rwa [p.ranges, List.mem_append, List.mem_singleton] at hx

theorem mem_old (p : Pushed s s' pm l g) (hx : x ∈ s.ranges pm) : x ∈ s'.ranges pm := by
  rw [p.ranges]
  exact List.mem_append_left _ hx

theorem mem_new (p : Pushed s s' pm l g) : s.nextId + 2 ∈ s'.ranges pm := by
  rw [p.ranges]
  exact List.mem_append_right _ (List.mem_singleton_self _)

theorem shadowOf_new (p : Pushed s s' pm l g) : shadowOf s' (s.nextId + 2) = g.shadowPagemap := by
  rw [shadowOf, p.newGlobal]

theorem globalOf_old (p : Pushed s s' pm l g) (h : Sys A s pm) (hx : x ∈ s.ranges pm) :
    globalOf s' x = globalOf s x := by
  rw [globalOf, p.locals x (h.lt x hx)]
  exact p.globals _ (h.range x hx).global_lt

theorem shadowOf_old (p : Pushed s s' pm l g) (h : Sys A s pm) (hx : x ∈ s.ranges pm) :
    shadowOf s' x = shadowOf s x := by
  rw [shadowOf, shadowOf, p.globalOf_old h hx]

theorem listed (p : Pushed s s' pm l g) (h : Listed s pm) (ht : l.Tidy) : Listed s' pm := by
  have hnext := p.nextId
  refine h.push p.ranges h.nodup (fun _ hx => hx) (by omega) (by omega)
    (fun x hx => p.locals x (h.lt x hx)) ?_
  rw [p.newLocal]
  exact ht

theorem roots (p : Pushed s s' pm l g) (h : Sys A s pm) :
    ∀ r, Roots s' pm r → Roots s pm r ∨ r = g.shadowPagemap := by
  rintro r (hr | hr | ⟨x, hx, hr⟩)
  · exact Or.inl (Or.inl (by rw [hr, p.kernelTop]))
  · exact Or.inl (Or.inr (Or.inl hr))
  · rcases p.mem hx with hx | rfl
    · exact Or.inl (Or.inr (Or.inr ⟨x, hx, by rw [hr, p.shadowOf_old h hx]⟩))
    · exact Or.inr (by rw [hr, p.shadowOf_new])

theorem rangeOk_old (p : Pushed s s' pm l g) (h : Sys A s pm) (hx : x ∈ s.ranges pm) :
    RangeOk s' pm x := by
  have hR := h.range x hx
  have hl := p.locals x (h.lt x hx)
  have hg := p.globalOf_old h hx
  have hnext := p.nextId
  obtain ⟨o, ho, holt, hlive⟩ := hR.known
  exact {
    pagemap := by rw [hl]; exact hR.pagemap
    anonymous := by rw [hl]; exact hR.anonymous
    live := by rw [p.localFreed]; exact hR.live
    global_lt := by
      rw [hl]
      have := hR.global_lt
      omega
    shadow_ne := by rw [p.shadowOf_old h hx]; exact hR.shadow_ne
    base_dvd := by rw [hg]; exact hR.base_dvd
    length_dvd := by rw [hg]; exact hR.length_dvd
    low := by rw [hg]; exact hR.low
    base_le := by rw [hg, hl]; exact hR.base_le
    stop_le := by rw [hg, hl]; exact hR.stop_le
    known := by
      refine ⟨o, by rw [hg]; exact ho, by omega, fun hlo => ?_⟩
      rw [p.localFreed] at hlo
      rw [hl, p.locals o holt]
      exact ⟨p.mem_old (hlive hlo).1, (hlive hlo).2⟩ }

theorem rangeOk_new (p : Pushed s s' pm l g) (h : Sys A s pm) (hpm : l.pagemap = pm)
    (hanon : l.flags.anonymous = true) (hshadow : g.shadowPagemap ≠ pm)
    (hlocals : g.locals = [s.nextId + 2]) (hb : g.base = l.base) (hlen : g.length = l.length)
    (hb' : pageSize ∣ l.base) (hlen' : pageSize ∣ l.length) (hlow : l.base + l.length ≤ lowEnd) :
    RangeOk s' pm (s.nextId + 2) where
  pagemap := by rw [p.newLocal]; exact hpm
  anonymous := by rw [p.newLocal]; exact hanon
  live := by rw [p.localFreed]; exact h.fresh _ (Nat.le_add_right _ _)
  global_lt := by
    have hnext := p.nextId
    rw [p.newLocal, p.global]
    omega
  shadow_ne := by rw [p.shadowOf_new]; exact hshadow
  base_dvd := by rw [p.newGlobal, hb]; exact hb'
  length_dvd := by rw [p.newGlobal, hlen]; exact hlen'
  low := by rw [p.newGlobal, hb, hlen]; exact hlow
  base_le := Nat.le_of_eq (by rw [p.newGlobal, p.newLocal, hb])
  stop_le := Nat.le_of_eq (by rw [p.newGlobal, p.newLocal, hb, hlen])
  known := by
    have hnext := p.nextId
    exact ⟨s.nextId + 2, by rw [p.newGlobal]; exact hlocals, by omega, fun _ => ⟨p.mem_new, rfl⟩⟩

theorem global_ne (p : Pushed s s' pm l g) (h : Sys A s pm) (hx : x ∈ s.ranges pm) :
    (s'.locals x).global ≠ (s'.locals (s.nextId + 2)).global := by
  rw [p.locals x (h.lt x hx), p.newLocal, p.global]
  exact Nat.ne_of_lt (h.range x hx).global_lt

theorem apart (p : Pushed s s' pm l g) (h : Sys A s pm) : ApartIf Eq s' pm := by
  intro x hx y hy hxy hg
  rcases p.mem hx with hx | rfl <;> rcases p.mem hy with hy | rfl
  · rw [p.locals x (h.lt x hx), p.locals y (h.lt y hy)] at hg ⊢
    exact h.apart x hx y hy hxy hg
  · exact absurd hg (p.global_ne h hx)
  · exact absurd hg.symm (p.global_ne h hy)
  · exact absurd rfl hxy

theorem inj (p : Pushed s s' pm l g) (h : Sys A s pm)
    (hfresh : ¬ A.Owned s.vm.pmm g.shadowPagemap) : ∀ x ∈ s'.ranges pm, ∀ y ∈ s'.ranges pm,
    shadowOf s' x = shadowOf s' y → (s'.locals x).global = (s'.locals y).global := by
  intro x hx y hy hsh
  rcases p.mem hx with hx | rfl <;> rcases p.mem hy with hy | rfl
  · rw [p.locals x (h.lt x hx), p.locals y (h.lt y hy)]
    rw [p.shadowOf_old h hx, p.shadowOf_old h hy] at hsh
    exact h.inj x hx y hy hsh
  · rw [p.shadowOf_old h hx, p.shadowOf_new] at hsh
    exact absurd hsh (h.root_ne (h.root_shadow hx) hfresh)
  · rw [p.shadowOf_old h hy, p.shadowOf_new] at hsh
    exact absurd hsh.symm (h.root_ne (h.root_shadow hy) hfresh)
  · rfl

end Pushed

theorem Sys.mapped {base length : Nat} {prot : Prot} {flags : MapFlags} {res : Option Nat}
    {offset shadow : Nat} {vm : Vmm.State σ} (h : Sys A s pm) (hb : pageSize ∣ base)
    (hlen : pageSize ∣ length) (hlow : base + length ≤ lowEnd) (hanon : flags.anonymous = true)
    (hc : Created A (Roots s pm) s.vm vm shadow) :
    Sys A (mapped s pm base length prot flags res offset shadow vm) pm ∧
      Grown s (mapped s pm base length prot flags res offset shadow vm) pm := by
  have hpm : pm ≠ shadow := h.root_ne h.root_pm hc.fresh
  have p : Pushed s (Mmap.mapped s pm base length prot flags res offset shadow vm) pm _ _ :=
    mapped_pushed hpm
  have hvm : (Mmap.mapped s pm base length prot flags res offset shadow vm).vm = vm := rfl
  have hbase : (Mmap.mapped s pm base length prot flags res offset shadow vm).mmapAnonBase
      = s.mmapAnonBase := rfl
  have hfreed : (Mmap.mapped s pm base length prot flags res offset shadow vm).freed = s.freed := rfl
  generalize Mmap.mapped s pm base length prot flags res offset shadow vm = s' at *
  have hpte : ∀ x ∈ s.ranges pm, ∀ v,
      pte s'.vm (shadowOf s x) v = pte s.vm (shadowOf s x) v := by
    intro x hx v
    rw [hvm]
    exact hc.ext.pte_eq (h.root_shadow hx)
  -- nothing is mapped in the new shadow pagemap, and so an entry is one of the old ones
  have hold : ∀ x ∈ s'.ranges pm, ∀ v, v < lowEnd → Present s'.vm (shadowOf s' x) v →
      x ∈ s.ranges pm ∧ Present s.vm (shadowOf s x) v ∧
        pte s'.vm (shadowOf s' x) v = pte s.vm (shadowOf s x) v := by
    intro x hx v hv hp
    rcases p.mem hx with hx | rfl
    · rw [p.shadowOf_old h hx] at hp ⊢
      have hp' := hp
      unfold Present at hp'
      rw [hpte x hx v] at hp'
      exact ⟨hx, hp', hpte x hx v⟩
    · unfold Present at hp
      rw [p.shadowOf_new, hvm, hc.pte_zero v (not_upperHalf_of_low hv)] at hp
      exact absurd present_zero hp
  have hlt : base + length < 2 ^ 64 := Nat.lt_of_le_of_lt hlow (by decide)
  refine ⟨
    { toOrdered := ⟨p.listed h.toListed ⟨hb, hlen, hlt⟩, by rw [hbase]; exact h.anonBase⟩
      wf := by rw [hvm]; exact hc.wf.mono (p.roots h)
      fresh := fun x hx => by
        have hnext := p.nextId
        rw [p.localFreed]
        exact h.fresh x (by omega)
      range := fun x hx => ?_
      apart := p.apart h
      inj := p.inj h hc.fresh
      within := fun x hx v hv hp => ?_
      owned := fun x hx v hv hp => ?_
      data := fun x hx v hv hp ht => ?_
      unique := fun x hx y hy v w hv hw hpv hpw he => ?_ },
    fun x hx => ⟨p.mem_old hx, p.locals x (h.lt x hx), p.shadowOf_old h hx⟩,
    fun v _ => by rw [hvm]; exact hc.ext.pte_eq h.root_pm, fun x hx v _ => hpte x hx v, hfreed⟩
  · rcases p.mem hx with hx | rfl
    · exact p.rangeOk_old h hx
    · exact p.rangeOk_new h rfl hanon hpm.symm rfl rfl rfl hb hlen hlow
  · obtain ⟨hx, hp, _⟩ := hold x hx v hv hp
    rw [p.globalOf_old h hx]
    exact h.within x hx v hv hp
  · obtain ⟨hx, hp, he⟩ := hold x hx v hv hp
    rw [he, hvm]
    exact hc.ext.owned _ (h.owned x hx v hv hp)
  · obtain ⟨hx, hp, he⟩ := hold x hx v hv hp
    rw [he, hvm] at ht
    rcases hc.tables_new _ (Infra.Radix.IsTable.mono (p.roots h) ht) with ht | ht
    · exact h.data x hx v hv hp ht
    · exact hc.fresh (by rw [← ht]; exact h.owned x hx v hv hp)
  · obtain ⟨hx, hpv, hev⟩ := hold x hx v hv hpv
    obtain ⟨hy, hpw, hew⟩ := hold y hy w hw hpw
    rw [hev, hew] at he
    rw [p.locals x (h.lt x hx), p.locals y (h.lt y hy)]
    exact h.unique x hx y hy v w hv hw hpv hpw he

/-- **The second half of `mmap` keeps the invariant**, also where it fails and cleans up. -/
theorem Sys.mmapAt {base length : Nat} {prot : Prot} {flags : MapFlags} {res : Option Nat}
    {offset : Nat} {r : Option Nat} (h : Sys A s pm) (hb : pageSize ∣ base)
    (hlen : pageSize ∣ length) (hlow : base + length ≤ lowEnd) (hanon : flags.anonymous = true)
    (hm : mmapAt A s pm base length prot flags res offset = some (r, s')) :
    Sys A s' pm ∧ Grown s s' pm := by
  have hk : Roots s pm s.kernelTop := Or.inl rfl
  rcases mmapAt_cases hm with ⟨n, e, hn, rfl⟩ | ⟨vm, hvm, rfl⟩ | ⟨shadow, vm, hvm, rfl⟩ |
    ⟨shadow, vm, hvm, rfl⟩
  · exact h.grown_of_ext ⟨rfl, rfl, rfl, rfl, rfl, hn, h.anonBase⟩ rfl (h.wf.of_eq rfl rfl)
      (.of_eq rfl rfl)
  · obtain ⟨hwf, hext⟩ := vmmNewPagemap_none h.wf hk hvm
    exact h.grown_of_ext ⟨rfl, rfl, rfl, rfl, rfl, Nat.le_add_right _ 2, h.anonBase⟩ rfl hwf hext
  · have hc := vmmNewPagemap_some h.wf hk hvm
    have hpm : pm ≠ shadow := h.root_ne h.root_pm hc.fresh
    have hempty : destroyLevel A 4 vm shadow 0 256 = Vmm.pmmFree A vm shadow := by
      refine destroyLevel_empty fun i _ hi => ?_
      rw [hc.top_zero i (by unfold upperHalf; omega)]
      exact nextTable_zero
    -- the page taken for the shadow pagemap goes back
    have hown : A.Owned vm.pmm shadow := hc.wf.owned _ (Infra.Radix.IsTable.root (Or.inr rfl))
    have hnt : ¬ TablePage (Roots s pm) vm shadow :=
      fun ht => hc.fresh (h.wf.owned _ (hc.tables _ ht))
    have hold : Wf A (Roots s pm) upperHalf vm := hc.wf.mono fun _ hr => Or.inl hr
    have hwf := hold.pmmFree hown hnt
    have howned : ∀ q, A.Owned s.vm.pmm q → A.Owned (A.free vm.pmm shadow) q := fun q hq =>
      (A.owned_free hc.wf.alloc hown).mpr ⟨hc.ext.owned q hq, fun he => hc.fresh (he ▸ hq)⟩
    refine h.grown_of_ext ⟨Function.update_of_ne hpm .., rfl, rfl, rfl, rfl, Nat.le_add_right _ 3,
      h.anonBase⟩ rfl ?_ ?_
    · rw [hempty]
      exact hwf
    · rw [hempty]
      exact ⟨⟨howned, hc.ext.tables, fun t ht => Or.inl (hc.tables t ht), hc.ext.data⟩,
        hc.ext.leaf_eq, hc.ext.walk_some⟩
  · exact h.mapped hb hlen hlow hanon (vmmNewPagemap_some h.wf hk hvm)

/-! ## Page faults -/

theorem ptFlags_pageFlags (prot : Prot) : PageFlags (ptFlags prot) := by
  unfold ptFlags
  generalize prot.write = w
  generalize prot.exec = x
  cases w <;> cases x <;> exact ⟨by decide, by decide, by decide⟩

theorem Sys.install {x virt page flags : Nat} {vm : Vmm.State σ} (h : Sys A s pm)
    (hx : x ∈ s.ranges pm) (hhas : (s.locals x).Has virt) (hvirt : pageSize ∣ virt)
    (hwf : Wf A (Roots s pm) upperHalf vm) (hkeep : Keeps A (Roots s pm) s.vm vm)
    (hput : Put (Roots s pm) upperHalf s.vm vm (shadowOf s x) virt (page ||| flags))
    (hflags : PageFlags flags) (hpage : PageAddr page) (hown : A.Owned s.vm.pmm page)
    (hnt : ¬ TablePage (Roots s pm) s.vm page)
    (hnew : ∀ y ∈ s.ranges pm, ∀ v, v < lowEnd → Present s.vm (shadowOf s y) v →
      pteGetAddr (pte s.vm (shadowOf s y) v) ≠ page) : Sys A { s with vm } pm := by
  obtain ⟨hlow, hge, hlt⟩ := h.has_low hx hhas
  have hR := h.range x hx
  have haddr : pteGetAddr (page ||| flags) = page := pteGetAddr_or hpage hflags.apart
  -- an entry is the new one or an old one
  have hent : ∀ y ∈ s.ranges pm, ∀ v, v < lowEnd → Present vm (shadowOf s y) v →
      (shadowOf s y = shadowOf s x ∧ (virt ≤ v ∧ v < virt + pageSize) ∧
        pteGetAddr (pte vm (shadowOf s y) v) = page) ∨
      (Present s.vm (shadowOf s y) v ∧ pte vm (shadowOf s y) v = pte s.vm (shadowOf s y) v) := by
    intro y hy v hv hp
    have he := hput.low hvirt hlow (h.root_shadow hy) hv
    split at he
    · next hin => exact Or.inl ⟨hin.1, hin.2, by rw [he, haddr]⟩
    · next hin =>
      unfold Present at hp
      rw [he] at hp
      exact Or.inr ⟨hp, he⟩
  have hglobal : ∀ y ∈ s.ranges pm, shadowOf s y = shadowOf s x →
      (s.locals y).global = (s.locals x).global := fun y hy hsh => h.inj y hy x hx hsh
  refine
    { toOrdered := h.toOrdered.of_eq rfl (fun _ _ => rfl) (Nat.le_refl _) rfl
      wf := hwf
      fresh := h.fresh
      range := fun y hy => SameRanges.rangeOk (s := s)
        (⟨rfl, rfl, rfl, rfl, rfl, Nat.le_refl _, h.anonBase⟩ : SameRanges s { s with vm } pm)
        (h.range y hy)
      apart := h.apart
      inj := h.inj
      within := ?_
      owned := ?_
      data := ?_
      unique := ?_ }
  · intro y hy v hv hp
    show (globalOf s y).base ≤ v ∧ v < (globalOf s y).base + (globalOf s y).length
    rcases hent y hy v hv hp with ⟨hsh, hin, _⟩ | ⟨hp, _⟩
    · -- the interval of the global range is in whole pages
      have hb := hR.base_dvd
      have hl := hR.length_dvd
      rw [show globalOf s y = globalOf s x by rw [globalOf, globalOf, hglobal y hy hsh]]
      unfold pageSize at *
      omega
    · exact h.within y hy v hv hp
  · intro y hy v hv hp
    show A.Owned vm.pmm (pteGetAddr (pte vm (shadowOf s y) v))
    rcases hent y hy v hv hp with ⟨_, _, he⟩ | ⟨hp, he⟩
    · rw [he]
      exact hkeep.owned _ hown
    · rw [he]
      exact hkeep.owned _ (h.owned y hy v hv hp)
  · intro y hy v hv hp
    show ¬ TablePage (Roots s pm) vm (pteGetAddr (pte vm (shadowOf s y) v))
    rcases hent y hy v hv hp with ⟨_, _, he⟩ | ⟨hp, he⟩
    · rw [he]
      exact hkeep.not_table hown hnt
    · rw [he]
      exact hkeep.not_table (h.owned y hy v hv hp) (h.data y hy v hv hp)
  · intro y hy z hz v w hv hw hpv hpw he
    show (s.locals y).global = (s.locals z).global ∧ _
    change pteGetAddr (pte vm (shadowOf s y) v) = pteGetAddr (pte vm (shadowOf s z) w) at he
    rcases hent y hy v hv hpv with ⟨hsy, hin, hey⟩ | ⟨hpv, hey⟩ <;>
      rcases hent z hz w hw hpw with ⟨hsz, hin', hez⟩ | ⟨hpw, hez⟩
    · rw [hglobal y hy hsy, hglobal z hz hsz]
      refine ⟨rfl, ?_⟩
      unfold pageSize at *
      omega
    · rw [hey, hez] at he
      exact absurd he.symm (hnew z hz w hw hpw)
    · rw [hey, hez] at he
      exact absurd he (hnew y hy v hv hpv)
    · rw [hey, hez] at he
      exact h.unique y hy z hz v w hv hw hpv hpw he

theorem Sys.pmmAlloc (h : Sys A s pm) : Sys A { s with vm := (Vmm.pmmAlloc A s.vm).2 } pm := by
  obtain ⟨hwf, hext⟩ := h.wf.pmmAlloc
  exact h.of_same ⟨rfl, rfl, rfl, rfl, rfl, Nat.le_refl _, h.anonBase⟩ hwf hext.toKeeps
    fun x hx v _ => hext.pte_eq (h.root_shadow hx)

/-- Every page that is mapped in the process is the page that the shadow pagemap of a range there
has for it. -/
def Backed (s : State σ) (pm : Nat) : Prop :=
  ∀ v, v < lowEnd → Present s.vm pm v → ∃ x ∈ s.ranges pm, (s.locals x).Has v ∧
    Present s.vm (shadowOf s x) v ∧
    pteGetAddr (pte s.vm (shadowOf s x) v) = pteGetAddr (pte s.vm pm v)

theorem Grown.backed (h : Grown s s' pm) (hb : Backed s pm) : Backed s' pm := by
  intro v hv hp
  unfold Present at hp
  rw [h.own v hv] at hp
  obtain ⟨x, hx, hhas, hps, he⟩ := hb v hv hp
  obtain ⟨hx', hl, hsh⟩ := h.ranges x hx
  refine ⟨x, hx', by rw [hl]; exact hhas, ?_, ?_⟩
  · unfold Present at *
    rw [hsh, h.shadow x hx v hv]
    exact hps
  · rw [hsh, h.shadow x hx v hv, h.own v hv]
    exact he

theorem has_page_of_has {l : LocalRange} {v : Nat} (h : l.Tidy) (hv : l.Has v) :
    l.Has (v / pageSize * pageSize) := by
  refine h.has_page (Nat.dvd_mul_left _ _) ?_ ?_ hv <;> unfold pageSize <;> omega

/-- The handler on a range that is found: a page is taken, installed in the shadow pagemap, and
in the process if the one local that the global range knows has the address. -/
theorem mmapHandlePf_eq (h : Sys A s pm) {err cr2 : Nat} (herr : err &&& 0x1 = 0)
    {range : Addr2range} (hr : addr2range s pm cr2 = some range) {o : Nat}
    (ho : (globalOf s range.range).locals = [o]) :
    mmapHandlePf A s pm err cr2 =
      if (A.alloc s.vm.pmm).1 = 0 then some (false, { s with vm := (Vmm.pmmAlloc A s.vm).2 })
      else
        match vmmMapPage A (Vmm.pmmAlloc A s.vm).2 (shadowOf s range.range)
          (cr2 / pageSize * pageSize) (A.alloc s.vm.pmm).1 (ptFlags (s.locals range.range).prot) with
        | (false, vm) => some (false, { s with vm })
        | (true, vm) =>
          if s.localFreed o then none
          else if (s.locals o).covers (cr2 / pageSize * pageSize) then
            some ((vmmMapPage A vm (s.locals o).pagemap (cr2 / pageSize * pageSize)
                (A.alloc s.vm.pmm).1 (ptFlags (s.locals range.range).prot)).1,
              { s with vm := (vmmMapPage A vm (s.locals o).pagemap (cr2 / pageSize * pageSize)
                (A.alloc s.vm.pmm).1 (ptFlags (s.locals range.range).prot)).2 })
          else some (true, { s with vm }) := by
  obtain ⟨hid, -, hpage⟩ := addr2range_some hr
  have hanon := (h.range _ hid).anonymous
  have ho' : (s.globals (s.locals range.range).global).locals = [o] := ho
  have hfst : (Vmm.pmmAlloc A s.vm).1 = (A.alloc s.vm.pmm).1 := rfl
  have hsh : (s.globals (s.locals range.range).global).shadowPagemap = shadowOf s range.range := rfl
  rw [mmapHandlePf, if_neg (by rw [herr]; simp), hr]
  simp only [faultPage, hanon, if_true, hpage, hfst]
  split
  · rfl
  · unfold mmapPageInRange
    simp only [ho', hsh]
    rcases vmmMapPage A (Vmm.pmmAlloc A s.vm).2 (shadowOf s range.range)
      (cr2 / pageSize * pageSize) (A.alloc s.vm.pmm).1
      (ptFlags (s.locals range.range).prot) with ⟨_ | _, vm⟩
    · rfl
    · simp only [mapInLocals]
      split
      · rfl
      · split
        · rcases vmmMapPage A vm (s.locals o).pagemap (cr2 / pageSize * pageSize)
            (A.alloc s.vm.pmm).1 (ptFlags (s.locals range.range).prot) with ⟨_ | _, vm'⟩ <;> rfl
        · rfl

/-- The first half of the handler: the page goes into the shadow pagemap, unless that has one. -/
theorem Sys.shadow_step {x virt flags : Nat} (h : Sys A s pm) (hx : x ∈ s.ranges pm)
    (hhas : (s.locals x).Has virt) (hvirt : pageSize ∣ virt) (hflags : PageFlags flags)
    (hne : (A.alloc s.vm.pmm).1 ≠ 0) {ok : Bool} {vm : Vmm.State σ}
    (hm : vmmMapPage A (Vmm.pmmAlloc A s.vm).2 (shadowOf s x) virt (A.alloc s.vm.pmm).1 flags
      = (ok, vm)) :
    Sys A { s with vm } pm ∧
      ((ok = false ∧ SameEntries (Roots s pm) s.vm vm ∧
        (Present s.vm (shadowOf s x) virt ∨
          (walkLevels A true (Vmm.pmmAlloc A s.vm).2 (shadowOf s x) (levels virt)).1 = none)) ∨
      (ok = true ∧ ¬ Present s.vm (shadowOf s x) virt ∧
        Put (Roots s pm) upperHalf s.vm vm (shadowOf s x) virt
          ((A.alloc s.vm.pmm).1 ||| flags))) := by
  have h₁ := h.pmmAlloc
  obtain ⟨hwf₁, hext⟩ := h.wf.pmmAlloc
  have hroots : Roots { s with vm := (Vmm.pmmAlloc A s.vm).2 } pm = Roots s pm := rfl
  have hpres : ∀ y ∈ s.ranges pm, ∀ v, Present (Vmm.pmmAlloc A s.vm).2 (shadowOf s y) v ↔
      Present s.vm (shadowOf s y) v := by
    intro y hy v
    unfold Present
    rw [hext.pte_eq (h.root_shadow hy)]
  rcases vmmMapPage_spec virt (A.alloc s.vm.pmm).1 flags hwf₁
    (h.root_shadow hx) with ⟨⟨hres, hwf, hkeep, hsame⟩, hcase⟩ | ⟨⟨hres, hwf, hkeep, hput⟩, habs⟩
  · rw [hm] at hres hwf hkeep hsame
    refine ⟨h₁.of_same ⟨rfl, rfl, rfl, rfl, rfl, Nat.le_refl _, h.anonBase⟩ hwf hkeep
      fun y hy v _ => hsame _ v (h.root_shadow hy), Or.inl ⟨hres, ?_, ?_⟩⟩
    · intro r v hr
      rw [hsame r v hr, hext.pte_eq hr]
    · exact hcase.imp (hpres x hx virt).mp id
  · rw [hm] at hres hwf hkeep hput
    obtain ⟨hfresh, haddr⟩ := h.wf.fresh_page hne
    refine ⟨h₁.install hx hhas hvirt hwf hkeep hput hflags haddr ?_ ?_ ?_,
      Or.inr ⟨hres, fun hp => habs ((hpres x hx virt).mpr hp), hext.sameEntries.put hput⟩⟩
    · exact (A.owned_alloc h.wf.alloc).mpr (Or.inr ⟨rfl, hne⟩)
    · exact fun ht => hfresh (h.wf.pmmAlloc_tables.mp ht)
    · -- the pages of the shadow pagemaps were owned before
      intro y hy v hv hp he
      have hpte : pte (Vmm.pmmAlloc A s.vm).2 (shadowOf s y) v = pte s.vm (shadowOf s y) v :=
        hext.pte_eq (h.root_shadow hy)
      change pteGetAddr (pte (Vmm.pmmAlloc A s.vm).2 (shadowOf s y) v) = _ at he
      rw [hpte] at he
      exact A.not_owned h.wf.alloc hne
        (he ▸ h.owned y hy v hv ((hpres y hy v).mp hp))

theorem Sys.process_step {virt phys flags : Nat} (h : Sys A s pm) (hvirt : pageSize ∣ virt)
    (hlow : virt < lowEnd) {ok : Bool} {vm : Vmm.State σ}
    (hm : vmmMapPage A s.vm pm virt phys flags = (ok, vm)) :
    Sys A { s with vm } pm ∧
      ((ok = false ∧ SameEntries (Roots s pm) s.vm vm ∧
        (Present s.vm pm virt ∨ (walkLevels A true s.vm pm (levels virt)).1 = none)) ∨
      (ok = true ∧ ¬ Present s.vm pm virt ∧
        Put (Roots s pm) upperHalf s.vm vm pm virt (phys ||| flags))) := by
  rcases vmmMapPage_spec virt phys flags h.wf h.root_pm with
    ⟨⟨hres, hwf, hkeep, hsame⟩, hcase⟩ | ⟨⟨hres, hwf, hkeep, hput⟩, habs⟩
  · rw [hm] at hres hwf hkeep hsame
    exact ⟨h.of_same ⟨rfl, rfl, rfl, rfl, rfl, Nat.le_refl _, h.anonBase⟩ hwf hkeep
      fun y hy v _ => hsame _ v (h.root_shadow hy), Or.inl ⟨hres, hsame, hcase⟩⟩
  · rw [hm] at hres hwf hkeep hput
    refine ⟨h.of_same ⟨rfl, rfl, rfl, rfl, rfl, Nat.le_refl _, h.anonBase⟩ hwf hkeep ?_,
      Or.inr ⟨hres, habs, hput⟩⟩
    intro y hy v hv
    have hlow := hput.low hvirt hlow (h.root_shadow hy) hv
    rwa [if_neg fun hc => (h.range y hy).shadow_ne hc.1] at hlow

theorem Sys.backed_of_same {vm : Vmm.State σ} (h : Sys A s pm)
    (hsame : SameEntries (Roots s pm) s.vm vm) (hb : Backed s pm) : Backed { s with vm } pm :=
  Grown.backed (s := s)
    ⟨fun _ hx => ⟨hx, rfl, rfl⟩, fun v _ => hsame pm v h.root_pm,
      fun _ hx v _ => hsame _ v (h.root_shadow hx), rfl⟩ hb

theorem Sys.backed_of_shadow {x virt value : Nat} {vm : Vmm.State σ} (h : Sys A s pm)
    (hx : x ∈ s.ranges pm) (hvirt : pageSize ∣ virt) (hlow : virt < lowEnd)
    (habs : ¬ Present s.vm (shadowOf s x) virt)
    (hput : Put (Roots s pm) upperHalf s.vm vm (shadowOf s x) virt value) (hb : Backed s pm) :
    Backed { s with vm } pm := by
  intro v hv hp
  have hown : pte vm pm v = pte s.vm pm v := by
    have := hput.low hvirt hlow h.root_pm hv
    rwa [if_neg fun hc => (h.range x hx).shadow_ne hc.1.symm] at this
  change Present vm pm v at hp
  unfold Present at hp
  rw [hown] at hp
  obtain ⟨y, hy, hhas, hps, he⟩ := hb v hv hp
  have hsh : pte vm (shadowOf s y) v = pte s.vm (shadowOf s y) v := by
    have hlow := hput.low hvirt hlow (h.root_shadow hy) hv
    rwa [if_neg] at hlow
    rintro ⟨hsh, h1, h2⟩
    unfold Present at hps
    rw [hsh, pte_page (show v / pageSize = virt / pageSize by unfold pageSize at *; omega)] at hps
    exact habs hps
  refine ⟨y, hy, hhas, ?_, ?_⟩
  · show Present vm (shadowOf s y) v
    unfold Present at *
    rwa [hsh]
  · show pteGetAddr (pte vm (shadowOf s y) v) = pteGetAddr (pte vm pm v)
    rw [hsh, hown]
    exact he

/-- So does mapping in the process what the shadow pagemap of a range there has. -/
theorem Sys.backed_of_process {o virt value : Nat} {vm : Vmm.State σ} (h : Sys A s pm)
    (ho : o ∈ s.ranges pm) (hhas : (s.locals o).Has virt) (hvirt : pageSize ∣ virt)
    (hps : Present s.vm (shadowOf s o) virt)
    (haddr : pteGetAddr (pte s.vm (shadowOf s o) virt) = pteGetAddr value)
    (hput : Put (Roots s pm) upperHalf s.vm vm pm virt value) (hb : Backed s pm) :
    Backed { s with vm } pm := by
  have hlow := (h.has_low ho hhas).1
  have hsh : ∀ y ∈ s.ranges pm, ∀ v, v < lowEnd →
      pte vm (shadowOf s y) v = pte s.vm (shadowOf s y) v := by
    intro y hy v hv
    have := hput.low hvirt hlow (h.root_shadow hy) hv
    rwa [if_neg fun hc => (h.range y hy).shadow_ne hc.1] at this
  intro v hv hp
  have hown := hput.low hvirt hlow h.root_pm hv
  by_cases hin : virt ≤ v ∧ v < virt + pageSize
  · rw [if_pos ⟨rfl, hin⟩] at hown
    have hpage : pte s.vm (shadowOf s o) v = pte s.vm (shadowOf s o) virt :=
      pte_page (by unfold pageSize at *; omega)
    refine ⟨o, ho, ?_, ?_, ?_⟩
    · have hb := (h.tidy o ho).base
      have hl := (h.tidy o ho).length
      show (s.locals o).Has v
      unfold LocalRange.Has pageSize at *
      omega
    · show Present vm (shadowOf s o) v
      unfold Present at *
      rw [hsh o ho v hv, hpage]
      exact hps
    · show pteGetAddr (pte vm (shadowOf s o) v) = pteGetAddr (pte vm pm v)
      rw [hsh o ho v hv, hpage, hown]
      exact haddr
  · rw [if_neg fun hc => hin hc.2] at hown
    change Present vm pm v at hp
    unfold Present at hp
    rw [hown] at hp
    obtain ⟨y, hy, hhas, hps, he⟩ := hb v hv hp
    refine ⟨y, hy, hhas, ?_, ?_⟩
    · show Present vm (shadowOf s y) v
      unfold Present at *
      rwa [hsh y hy v hv]
    · show pteGetAddr (pte vm (shadowOf s y) v) = pteGetAddr (pte vm pm v)
      rw [hsh y hy v hv, hown]
      exact he

/--
**A page fault keeps the invariant**, whatever comes of it, and what is mapped in the process
stays backed.
-/
theorem Sys.fault {err cr2 : Nat} {ok : Bool} (h : Sys A s pm)
    (hm : mmapHandlePf A s pm err cr2 = some (ok, s')) :
    Sys A s' pm ∧ (Backed s pm → Backed s' pm) ∧ s'.freed = s.freed := by
  by_cases herr : err &&& 0x1 = 0
  · cases hr : addr2range s pm cr2 with
    | none =>
      rw [mmapHandlePf, if_neg (by rw [herr]; simp), hr] at hm
      obtain rfl : s = s' := by simpa using congrArg (Option.map Prod.snd) hm
      exact ⟨h, fun hb => hb, rfl⟩
    | some range =>
      obtain ⟨hid, hcov, -⟩ := addr2range_some hr
      have hhas := has_page_of_has (h.tidy _ hid) ((h.tidy _ hid).covers_iff.mp hcov)
      have hvirt : pageSize ∣ cr2 / pageSize * pageSize := Nat.dvd_mul_left _ _
      have hlow := (h.has_low hid hhas).1
      obtain ⟨o, ho, _, hlive⟩ := (h.range _ hid).known
      rw [mmapHandlePf_eq h herr hr ho] at hm
      split at hm
      · -- no page left
        obtain rfl : { s with vm := (Vmm.pmmAlloc A s.vm).2 } = s' := by
          simpa using congrArg (Option.map Prod.snd) hm
        exact ⟨h.pmmAlloc, h.backed_of_same h.wf.pmmAlloc.2.sameEntries, rfl⟩
      · next hne =>
        split at hm
        · next vm hmap =>
          obtain rfl : { s with vm } = s' := by simpa using congrArg (Option.map Prod.snd) hm
          obtain ⟨h₁, ⟨_, hsame, _⟩ | ⟨hc, _⟩⟩ :=
            h.shadow_step hid hhas hvirt (ptFlags_pageFlags _) hne hmap
          · exact ⟨h₁, h.backed_of_same hsame, rfl⟩
          · simp at hc
        · next vm hmap =>
          obtain ⟨h₁, ⟨hc, _⟩ | ⟨_, habs, hput⟩⟩ :=
            h.shadow_step hid hhas hvirt (ptFlags_pageFlags _) hne hmap
          · simp at hc
          have hb₁ : Backed s pm → Backed { s with vm } pm :=
            h.backed_of_shadow hid hvirt hlow habs hput
          split at hm
          · simp at hm
          · next hfreed =>
            obtain ⟨homem, hog⟩ := hlive (by simpa using hfreed)
            split at hm
            · next hocov =>
              -- the page goes into the process as well
              have hohas := (h.tidy o homem).covers_iff.mp hocov
              rw [(h.range o homem).pagemap] at hm
              rcases hmap' : vmmMapPage A vm pm (cr2 / pageSize * pageSize) (A.alloc s.vm.pmm).1
                (ptFlags (s.locals range.range).prot) with ⟨ok', vm'⟩
              rw [hmap'] at hm
              obtain rfl : { s with vm := vm' } = s' := by
                simpa using congrArg (Option.map Prod.snd) hm
              obtain ⟨h₂, ⟨_, hsame, _⟩ | ⟨_, habs', hput'⟩⟩ :=
                h₁.process_step hvirt hlow hmap'
              · exact ⟨h₂, fun hb => h₁.backed_of_same hsame (hb₁ hb), rfl⟩
              · have hsh : shadowOf s o = shadowOf s range.range := by
                  rw [shadowOf, shadowOf, globalOf, globalOf, hog]
                have hnew := hput.low hvirt hlow (h.root_shadow hid) hlow
                rw [if_pos ⟨rfl, Nat.le_refl _, by unfold pageSize; omega⟩, ← hsh] at hnew
                refine ⟨h₂, fun hb => ?_, rfl⟩
                refine h₁.backed_of_process (o := o) homem hohas hvirt ?_ ?_ hput' (hb₁ hb)
                · show pte vm (shadowOf s o) _ &&& ptePresent ≠ 0
                  rw [hnew]
                  exact present_or (ptFlags_pageFlags _).present
                · exact congrArg pteGetAddr hnew
            · obtain rfl : { s with vm } = s' := by simpa using congrArg (Option.map Prod.snd) hm
              exact ⟨h₁, hb₁, rfl⟩
  · rw [mmapHandlePf, if_pos herr] at hm
    obtain rfl : s = s' := by simpa using congrArg (Option.map Prod.snd) hm
    exact ⟨h, fun hb => hb, rfl⟩

end

end Lyre.Mmap
