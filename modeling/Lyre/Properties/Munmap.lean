import Lyre.Properties.Entries
import Lyre.Properties.Frees

/-!
# What `munmap` leaves in its interval

The loop of `munmap` moves its cursor once inside the body and once more behind it. The page behind
a snip is therefore not looked at: harmless where nothing is mapped there, but where another range
begins at that page, the range and its entries stay.

* `Mapped` — the ranges of a pagemap and the tables they show in;
* `munmapSnip_entries` — what one turn does to the entries;
* `munmap_joint` — the page at which two ranges meet is still in a range afterwards;
* `munmap_clears_iff` — the interval is empty after the call just when no two ranges meet in it.
-/

namespace Lyre.Mmap

open Vmm Infra

section

variable {σ : Type} {A : PageAllocator σ} {roots : Nat → Prop} {s s' : State σ}
  {pm id b e addr length : Nat}

/-- The ranges of the pagemap are whole pages and apart. The pagemap and the shadow pagemaps behind
the ranges are different, and their tables are a forest. -/
structure Mapped (roots : Nat → Prop) (s : State σ) (pm : Nat) : Prop where
  listed : Listed s pm
  apart : ApartIf (fun _ _ => True) s pm
  tables : Tables roots s.vm
  pagemap : roots pm
  shadow : ∀ x ∈ s.ranges pm, roots (shadowOf s x)
  shadow_ne : ∀ x ∈ s.ranges pm, shadowOf s x ≠ pm

theorem Mapped.turn {ps : List Nat} (h : Mapped roots s pm) (hid : id ∈ s.ranges pm)
    (t : Turn s s' pm id ps) (htab : Tables roots s'.vm) : Mapped roots s' pm where
  listed := t.listed h.listed hid
  apart := t.apartIf h.listed hid (fun _ _ h => h) h.apart
  tables := htab
  pagemap := h.pagemap
  shadow x hx := by
    obtain ⟨y, hy, -, -, hsh⟩ := t.shadow_parent h.listed hid hx
    rw [hsh]
    exact h.shadow y hy
  shadow_ne x hx := by
    obtain ⟨y, hy, -, -, hsh⟩ := t.shadow_parent h.listed hid hx
    rw [hsh]
    exact h.shadow_ne y hy

theorem Mapped.eq_of_has (h : Mapped roots s pm) {x y v : Nat} (hx : x ∈ s.ranges pm)
    (hy : y ∈ s.ranges pm) (hxv : (s.locals x).Has v) (hyv : (s.locals y).Has v) : x = y := by
  by_contra hne
  exact h.apart x hx y hy hne trivial v ⟨hxv, hyv⟩

/-- The address is in a range. -/
def Covered (s : State σ) (pm v : Nat) : Prop := ∃ x ∈ s.ranges pm, (s.locals x).Has v

theorem Covered.of_turn {ps : List Nat} {v : Nat} (t : Turn s s' pm id ps) (hl : Listed s pm)
    (hid : id ∈ s.ranges pm) (h : Covered s' pm v) : Covered s pm v := by
  obtain ⟨x, hx, hv⟩ := h
  obtain ⟨y, hy, hp⟩ := t.parent hl hid hx
  exact ⟨y, hy, hp.has hv⟩

theorem Covered.cut {ps : List Nat} {v : Nat} (c : Cut s s' pm id b e ps) (hl : Listed s pm)
    (h : Covered s pm v) (hout : ¬ (b ≤ v ∧ v < e)) : Covered s' pm v := by
  obtain ⟨x, hx, hv⟩ := h
  by_cases hxid : x = id
  · subst hxid
    obtain ⟨y, hy, hyv⟩ := c.stays v hv hout
    exact ⟨y, (c.mem y).mpr (Or.inr hy), hyv⟩
  · refine ⟨x, (c.mem x).mpr (Or.inl ⟨hx, hxid⟩), ?_⟩
    rw [(c.others x (hl.lt x hx) hxid).1]
    exact hv

theorem addr2range_eq_none_iff {v : Nat} (hl : Listed s pm) :
    addr2range s pm v = none ↔ ¬ Covered s pm v := by
  constructor
  · rintro h ⟨x, hx, hv⟩
    exact addr2range_none h x hx ((hl.tidy x hx).covers_iff.mpr hv)
  · intro h
    unfold addr2range
    rw [Option.map_eq_none_iff, List.find?_eq_none]
    intro x hx hc
    exact h ⟨x, hx, (hl.tidy x hx).covers_iff.mp hc⟩

/-! ## What a turn does to the entries -/

/-- The entries a turn may change: those of the snip, and those of the shadow pagemap. -/
def TurnEntries (s : State σ) (pm id b e r v : Nat) : Prop :=
  EntryIn pm b e r v ∨ ∃ j < u64 ((globalOf s id).base + (globalOf s id).length),
    SameEntry upperHalf (shadowOf s id) j r v

theorem releasePage_entries {vm : Vmm.State σ} {shadow j : Nat} {acc : Bool × State σ}
    {P : Nat → Nat → Prop} (hr : roots shadow)
    (hP : ∀ r v, SameEntry upperHalf shadow j r v → P r v)
    (hed : Edits roots P vm acc.2.vm) (hsh : Shrinks roots vm acc.2.vm) :
    Edits roots P vm (releasePage A shadow j acc).2.vm ∧
      Shrinks roots vm (releasePage A shadow j acc).2.vm := by
  have hed' := (vmmUnmapPage_edits (A := A) hed.tables hr j).1.mono hP
  have hsh' := vmmUnmapPage_shrinks (A := A) hed.tables hr j
  unfold releasePage
  split
  · exact ⟨hed, hsh⟩
  · simp only
    split
    · exact ⟨hed, hsh⟩
    · split
      · next vm' hu =>
        rw [hu] at hed' hsh'
        exact ⟨(hed.trans hed').of_mem rfl, (hsh.trans hsh').trans (.of_mem rfl)⟩
      · next vm' hu =>
        rw [hu] at hed' hsh'
        exact ⟨(hed.trans hed').of_mem rfl, (hsh.trans hsh').trans (.of_mem rfl)⟩

theorem releaseShadow_entries {g : Nat} (h : Tables roots s.vm)
    (hr : roots (s.globals g).shadowPagemap) :
    Edits roots (fun r v => ∃ j < u64 ((s.globals g).base + (s.globals g).length),
        SameEntry upperHalf (s.globals g).shadowPagemap j r v) s.vm (releaseShadow A s g).2.vm ∧
      Shrinks roots s.vm (releaseShadow A s g).2.vm := by
  unfold releaseShadow
  refine pageLoop_inv (P := fun acc : Bool × State σ =>
      Edits roots (fun r v => ∃ j < _, SameEntry upperHalf (s.globals g).shadowPagemap j r v)
        s.vm acc.2.vm ∧ Shrinks roots s.vm acc.2.vm) _ ?_ _ _ ⟨.refl h, .refl s.vm⟩
  rintro j acc hj ⟨hed, hsh⟩
  exact releasePage_entries hr (fun r v hs => ⟨j, hj, hs⟩) hed hsh

/-- **One turn of `munmap` on the entries.** -/
theorem munmapSnip_entries (h : Mapped roots s pm) (hid : id ∈ s.ranges pm)
    (hS : Snip (s.locals id) b e) (hs : munmapSnip A s pm id b e = (true, s')) :
    Edits roots (TurnEntries s pm id b e) s.vm s'.vm ∧ Shrinks roots s.vm s'.vm ∧
      ∀ v, b ≤ v → v < e → ¬ Present s'.vm pm v := by
  have hlt : e < 2 ^ 64 := Nat.lt_of_le_of_lt hS.le_stop hS.tidy.fits
  have hed : Edits roots (EntryIn pm b e) s.vm (unmapPages A s pm b e).vm :=
    edits_of_loop (fun j vm hvm => (vmmUnmapPage_edits hvm h.pagemap j).1) h.tables hS.begin_dvd
      hS.end_dvd (Nat.le_of_lt hS.lt) hlt
  obtain ⟨hsh, hgone⟩ := unmapLoop_shrinks (A := A) h.tables h.pagemap hS.begin_dvd hS.end_dvd
    (Nat.le_of_lt hS.lt) hlt
  -- a turn that only unmaps the pages of the snip
  have hplain : ∀ s₁ : State σ, s₁.vm = (unmapPages A s pm b e).vm →
      Edits roots (TurnEntries s pm id b e) s.vm s₁.vm ∧ Shrinks roots s.vm s₁.vm ∧
        ∀ v, b ≤ v → v < e → ¬ Present s₁.vm pm v := by
    intro s₁ hvm
    rw [hvm]
    exact ⟨hed.mono fun r v hin => Or.inl hin, hsh, hgone⟩
  rcases munmapSnip_cases (A := A) pm hS with
    ⟨-, -, heq⟩ | ⟨-, -, heq⟩ | ⟨-, ⟨-, heq⟩ | ⟨-, heq⟩⟩
  · rw [heq] at hs
    obtain rfl := congrArg Prod.snd hs
    simp only
    unfold dropWhole
    split
    · split
      · -- the pages of the shadow pagemap go back
        obtain ⟨hrel, hrels⟩ := releaseShadow_entries (A := A)
          (s := removeRange (unmapPages A s pm b e) pm id) (g := (s.locals id).global)
          hed.tables (h.shadow id hid)
        refine ⟨(hed.mono fun r v hin => Or.inl hin).trans (hrel.mono fun r v hin => Or.inr hin),
          hsh.trans hrels, fun v hb he hp => hgone v hb he (hrels.present h.pagemap hp)⟩
      · exact hplain _ rfl
    · exact hplain _ rfl
  · rw [heq] at hs
    obtain rfl := congrArg Prod.snd hs
    exact hplain _ rfl
  · rw [heq] at hs
    simp at hs
  · rw [heq] at hs
    obtain rfl := congrArg Prod.snd hs
    exact hplain _ rfl

theorem Mapped.munmapSnip {ps : List Nat} (h : Mapped roots s pm) (hid : id ∈ s.ranges pm)
    (hS : Snip (s.locals id) b e) (c : Cut s s' pm id b e ps)
    (hs : munmapSnip A s pm id b e = (true, s')) : Mapped roots s' pm :=
  h.turn hid c.toTurn (munmapSnip_entries h hid hS hs).1.tables

theorem munmapSnip_keeps_low {v : Nat} (h : Mapped roots s pm) (hid : id ∈ s.ranges pm)
    (hS : Snip (s.locals id) b e) (hlow : e ≤ lowEnd) (hv : v < lowEnd) (hout : ¬ (b ≤ v ∧ v < e))
    (hs : munmapSnip A s pm id b e = (true, s')) : pte s'.vm pm v = pte s.vm pm v := by
  refine (munmapSnip_entries h hid hS hs).1.keeps pm v h.pagemap ?_
  rintro (⟨j, hj, hbj, hje, hsame⟩ | ⟨j, -, hsame⟩)
  · obtain ⟨-, hjv, hvj⟩ := (sameEntry_low pm pm hj (Nat.lt_of_lt_of_le hje hlow) hv).mp hsame
    have := hS.end_dvd
    unfold pageSize at *
    omega
  · -- an entry of the lower half belongs to one pagemap
    obtain ⟨-, hroot | hup⟩ := hsame.symm
    · exact h.shadow_ne id hid hroot.symm
    · exact not_upperHalf_of_low hv hup

/-! ## The whole call -/

/-- **The rule for `munmap`.** What the loop knows at page `i` survives a page without a range and a
turn that cuts one. The cursor does not wrap, because the ranges or the interval end before the
last page of the address space. -/
theorem munmap_run {P : Nat → State σ → Prop} {ok : Bool} (h : Mapped roots s pm)
    (haddr : pageSize ∣ addr) (hend : addr + alignUp length pageSize < 2 ^ 64)
    (hroom : ∀ i s, P i s → ∀ x ∈ s.ranges pm,
      Fits (s.locals x).base (s.locals x).length ∨ Fits addr (alignUp length pageSize))
    (hskip : ∀ i s, pageSize ∣ i → addr ≤ i → i < addr + alignUp length pageSize →
      Mapped roots s pm → P i s → ¬ Covered s pm i → P (i + pageSize) s)
    (hsnip : ∀ i e s id s' ps, pageSize ∣ i → addr ≤ i → i < addr + alignUp length pageSize →
      Mapped roots s pm → P i s → id ∈ s.ranges pm → Snip (s.locals id) i e →
      e = min ((s.locals id).base + (s.locals id).length) (addr + alignUp length pageSize) →
      Cut s s' pm id i e ps → munmapSnip A s pm id i e = (true, s') → P (e + pageSize) s')
    (hP : P addr s) (hm : munmap A s pm addr length = some (ok, s')) :
    ∃ i s₁, Mapped roots s₁ pm ∧ P i s₁ ∧
      ((ok = true ∧ addr + alignUp length pageSize ≤ i ∧ s' = s₁) ∨
        ok = false ∧ ∃ n e, s₁.nextId ≤ n ∧ s' = setErrno { s₁ with nextId := n } e) := by
  unfold munmap at hm
  split at hm
  · obtain ⟨rfl, rfl⟩ : false = ok ∧ setErrno s .einval = s' := by simpa using hm
    exact ⟨addr, s, h, hP, Or.inr ⟨rfl, s.nextId, .einval, Nat.le_refl _, rfl⟩⟩
  · rw [u64_of_lt hend] at hm
    have hstop := Nat.dvd_add haddr (alignUp_dvd length)
    refine munmapLoop_rule (P := fun i s => addr ≤ i ∧ Mapped roots s pm ∧ P i s)
      (Q := fun ok s' => ∃ i s₁, Mapped roots s₁ pm ∧ P i s₁ ∧
        ((ok = true ∧ addr + alignUp length pageSize ≤ i ∧ s' = s₁) ∨
          ok = false ∧ ∃ n e, s₁.nextId ≤ n ∧ s' = setErrno { s₁ with nextId := n } e))
      hstop (fun _ _ hP => hP.2.1.listed) ?_ ?_ ?_ ?_ haddr ⟨Nat.le_refl _, h, hP⟩ hm
    · rintro i s hi hilt ⟨hai, hM, hP⟩ hnone
      have hnext : i + pageSize ≤ addr + alignUp length pageSize := by
        unfold pageSize at *
        omega
      rw [u64_of_lt (Nat.lt_of_le_of_lt hnext hend)]
      exact ⟨by omega, hM, hskip i s hi hai hilt hM hP fun ⟨x, hx, hv⟩ => hnone x hx hv⟩
    · rintro i e s id s' hi hilt ⟨hai, hM, hP⟩ hid - he hS hm
      obtain ⟨ps, hcut⟩ := munmapSnip_cut hM.listed hid hS hm
      have hie := hS.lt
      have hlt : e + pageSize < 2 ^ 64 := by
        have hfits := hroom i s hP id hid
        unfold Fits at hfits
        omega
      rw [u64_of_lt hlt]
      exact ⟨by omega, hM.munmapSnip hid hS hcut hm,
        hsnip i e s id s' ps hi hai hilt hM hP hid hS he hcut hm⟩
    · rintro i s ⟨-, hM, hP⟩
      exact ⟨i, s, hM, hP, Or.inr ⟨rfl, _, _, Nat.le_succ _, rfl⟩⟩
    · rintro i s hge ⟨-, hM, hP⟩
      exact ⟨i, s, hM, hP, Or.inl ⟨rfl, hge, rfl⟩⟩

/-- The rule for a call that returned true, on an interval before the last page. -/
theorem munmap_rule {P : Nat → State σ → Prop} (h : Mapped roots s pm) (haddr : pageSize ∣ addr)
    (hfits : Fits addr (alignUp length pageSize))
    (hskip : ∀ i s, pageSize ∣ i → addr ≤ i → i < addr + alignUp length pageSize →
      Mapped roots s pm → P i s → ¬ Covered s pm i → P (i + pageSize) s)
    (hsnip : ∀ i e s id s' ps, pageSize ∣ i → addr ≤ i → i < addr + alignUp length pageSize →
      Mapped roots s pm → P i s → id ∈ s.ranges pm → Snip (s.locals id) i e →
      e = min ((s.locals id).base + (s.locals id).length) (addr + alignUp length pageSize) →
      Cut s s' pm id i e ps → munmapSnip A s pm id i e = (true, s') → P (e + pageSize) s')
    (hP : P addr s) (hm : munmap A s pm addr length = some (true, s')) :
    Mapped roots s' pm ∧ ∃ i, addr + alignUp length pageSize ≤ i ∧ P i s' := by
  have hend : addr + alignUp length pageSize < 2 ^ 64 :=
    Nat.lt_of_le_of_lt (Nat.le_add_right ..) hfits
  obtain ⟨i, s₁, hM, hPi, ⟨-, hge, rfl⟩ | ⟨hc, -⟩⟩ :=
    munmap_run h haddr hend (fun _ _ _ _ _ => Or.inr hfits) hskip hsnip hP hm
  · exact ⟨hM, i, hge, hPi⟩
  · simp at hc

theorem munmap_backed {I : Nat → Prop} (h : Mapped roots s pm) (haddr : pageSize ∣ addr)
    (hfits : Fits addr (alignUp length pageSize))
    (hback : ∀ v, I v → Present s.vm pm v → Covered s pm v)
    (hm : munmap A s pm addr length = some (true, s')) :
    ∀ v, I v → Present s'.vm pm v → Covered s' pm v := by
  refine (munmap_rule
    (P := fun _ s => ∀ v, I v → Present s.vm pm v → Covered s pm v) h haddr hfits
    (fun i s _ _ _ _ hP _ => hP) ?_ hback hm).2.elim fun i hi => hi.2
  rintro i e s id s' ps - - - hM hP hid hS - hcut hm v hI hp
  obtain ⟨-, hsh, hgone⟩ := munmapSnip_entries hM hid hS hm
  refine (hP v hI (hsh.present hM.pagemap hp)).cut hcut hM.listed ?_
  exact fun hin => hgone v hin.1 hin.2 hp

theorem munmap_keeps_uncovered {v : Nat} (h : Mapped roots s pm) (haddr : pageSize ∣ addr)
    (hfits : Fits addr (alignUp length pageSize)) (hlow : addr + alignUp length pageSize ≤ lowEnd)
    (hv : v < lowEnd) (hun : ¬ Covered s pm v)
    (hm : munmap A s pm addr length = some (true, s')) : pte s'.vm pm v = pte s.vm pm v := by
  refine (munmap_rule
    (P := fun _ s₁ => ¬ Covered s₁ pm v ∧ pte s₁.vm pm v = pte s.vm pm v) h haddr hfits
    (fun i s _ _ _ _ hP _ => hP) ?_ ⟨hun, rfl⟩ hm).2.elim fun i hi => hi.2.2
  rintro i e s₁ id s₂ ps - - - hM ⟨hun, hpte⟩ hid hS he hcut hm
  refine ⟨fun hc => hun (hc.of_turn hcut.toTurn hM.listed hid), ?_⟩
  rw [← hpte]
  refine munmapSnip_keeps_low hM hid hS (by omega) hv (fun hin => hun ⟨id, hid, ?_⟩) hm
  have := hS.base_le
  have := hS.le_stop
  exact ⟨by omega, by omega⟩

/-! ## Where two ranges meet -/

/-- The first page behind `addr` at which one range ends and another begins. -/
structure Joint (s : State σ) (pm addr q : Nat) : Prop where
  before : Covered s pm (q - 1)
  behind : Covered s pm q
  differ : ∀ z ∈ s.ranges pm, (s.locals z).Has (q - 1) → ¬ (s.locals z).Has q
  first : Unjoined s pm addr q

theorem Joint.cut {q : Nat} {ps : List Nat} (hJ : Joint s pm addr q) (c : Cut s s' pm id b e ps)
    (hl : Listed s pm) (hid : id ∈ s.ranges pm) (hbefore : ¬ (b ≤ q - 1 ∧ q - 1 < e))
    (hbehind : ¬ (b ≤ q ∧ q < e)) : Joint s' pm addr q where
  before := hJ.before.cut c hl hbefore
  behind := hJ.behind.cut c hl hbehind
  differ z hz hv hv' := by
    obtain ⟨y, hy, hp⟩ := c.parent hl hid hz
    exact hJ.differ y hy (hp.has hv) (hp.has hv')
  first := c.unjoined hl hJ.first hid

theorem Joint.last_page {q : Nat} (hJ : Joint s pm addr q) (hl : Listed s pm) (hq : pageSize ∣ q)
    (hpos : 0 < q) :
    ∃ x ∈ s.ranges pm, (s.locals x).Has (q - pageSize) ∧ (s.locals x).Has (q - 1) := by
  obtain ⟨x, hx, hv⟩ := hJ.before
  refine ⟨x, hx, (hl.tidy x hx).has_page ?_ ?_ ?_ hv, hv⟩ <;> unfold pageSize at * <;> omega

/--
**The page behind a snip is not looked at.** The snip that ends where the next range begins moves
the cursor past that range's first page, which stays in the range.
-/
theorem munmap_joint {q : Nat} (h : Mapped roots s pm) (haddr : pageSize ∣ addr)
    (hfits : Fits addr (alignUp length pageSize)) (hq : pageSize ∣ q) (hlo : addr < q)
    (hhi : q < addr + alignUp length pageSize) (hJ : Joint s pm addr q)
    (hm : munmap A s pm addr length = some (true, s')) : Covered s' pm q := by
  -- up to the joint the loop keeps it, and then it has jumped over the page
  refine (munmap_rule
    (P := fun i s => (i < q ∧ Joint s pm addr q) ∨ (q < i ∧ Covered s pm q)) h haddr hfits
    ?_ ?_ (Or.inl ⟨hlo, hJ⟩) hm).2.elim ?_
  rotate_left 2
  · rintro i ⟨hge, hi⟩
    rcases hi with ⟨hlt, -⟩ | ⟨-, hcov⟩
    · omega
    · exact hcov
  · rintro i s hi - - hM (⟨hlt, hJ⟩ | ⟨hgt, hcov⟩) hnone
    · obtain ⟨x, hx, hlast, -⟩ := hJ.last_page hM.listed hq (by omega)
      have hne : i ≠ q - pageSize := fun hc => hnone ⟨x, hx, by rw [hc]; exact hlast⟩
      refine Or.inl ⟨?_, hJ⟩
      unfold pageSize at *
      omega
    · exact Or.inr ⟨by omega, hcov⟩
  · rintro i e s id s' ps hi hai - hM (⟨hlt, hJ⟩ | ⟨hgt, hcov⟩) hid hS he hcut -
    · have hie := hS.lt
      have hbase := hS.base_le
      have hstop := hS.le_stop
      have hed := hS.end_dvd
      rcases Nat.lt_trichotomy e q with heq | heq | heq
      · -- the snip ends before the joint, and not at the page before it
        obtain ⟨x, hx, hlast, hxq⟩ := hJ.last_page hM.listed hq (by omega)
        have hne : e ≠ q - pageSize := by
          intro hc
          have hide : (s.locals id).Has (e - 1) := ⟨by omega, by omega⟩
          have hxe : (s.locals x).Has (e - 1 + 1) := by
            rw [Nat.sub_add_cancel (by omega), hc]
            exact hlast
          obtain rfl := hJ.first id hid x hx (e - 1) hide hxe (by omega) (by omega)
          have := hlast.2
          omega
        refine Or.inl ⟨?_, hJ.cut hcut hM.listed hid (by omega) (by omega)⟩
        unfold pageSize at *
        omega
      · refine Or.inr ⟨by unfold pageSize; omega, hJ.behind.cut hcut hM.listed (by omega)⟩
      · -- one range would have both sides of the joint
        exact absurd ⟨by omega, by omega⟩
          (hJ.differ id hid ⟨by omega, by omega⟩)
    · exact Or.inr ⟨by have := hS.lt; omega, hcov.cut hcut hM.listed (by omega)⟩

theorem unjoined_of_no_joint {stop : Nat} (h : Mapped roots s pm) (haddr : pageSize ∣ addr)
    (hno : ∀ q, pageSize ∣ q → addr < q → q < stop → ¬ Joint s pm addr q) :
    ∀ q ≤ stop, Unjoined s pm addr q
  | 0, _ => fun x _ y _ v _ _ _ hv => by omega
  | q + 1, hq => by
    have ih := unjoined_of_no_joint h haddr hno q (by omega)
    intro x hx y hy v hxv hyv hav hvq
    by_cases hlt : v + 1 < q
    · exact ih x hx y hy v hxv hyv hav hlt
    · obtain rfl : q = v + 1 := by omega
      by_contra hne
      -- `y` begins where `x` ends
      have hbase : (s.locals y).base = v + 1 := by
        by_contra hc
        have hyv' : (s.locals y).Has v := by
          unfold LocalRange.Has at *
          omega
        exact hne (h.eq_of_has hx hy hxv hyv')
      refine hno (v + 1) ?_ (by omega) (by omega) ⟨⟨x, hx, hxv⟩, ⟨y, hy, hyv⟩, ?_, ih⟩
      · rw [← hbase]
        exact (h.listed.tidy y hy).base
      · intro z hz hzv hzq
        have hzx := h.eq_of_has hz hx hzv hxv
        have hzy := h.eq_of_has hz hy hzq hyv
        exact hne (hzx.symm.trans hzy)

/-! ## The interval afterwards -/

/-- No page of the interval is in a range or has a present entry. -/
def Cleared (s : State σ) (pm addr length : Nat) : Prop :=
  ∀ v, pageSize ∣ v → addr ≤ v → v < addr + alignUp length pageSize →
    addr2range s pm v = none ∧ ¬ Present s.vm pm v

/-- The interval lies below the end of the address space, no range in it begins where another
ends, and what is mapped in it belongs to a range. -/
structure Clearable (s : State σ) (pm addr length : Nat) : Prop where
  fits : Fits addr (alignUp length pageSize)
  unjoined : Unjoined s pm addr (addr + alignUp length pageSize)
  backed : ∀ v, pageSize ∣ v → addr ≤ v → v < addr + alignUp length pageSize →
    Present s.vm pm v → Covered s pm v

theorem munmap_alignUp (s : State σ) (pm addr : Nat) (h : alignUp length pageSize ≠ 0) :
    munmap A s pm addr (alignUp length pageSize) = munmap A s pm addr length := by
  have hlen : length ≠ 0 := by
    rintro rfl
    exact h (by decide)
  unfold munmap
  rw [if_neg h, if_neg hlen, alignUp_alignUp]

/--
**`munmap` clears its interval just when nothing in it is joined.** After a call that returned true
no page of the interval is in a range or mapped, if the interval does not reach the end of the
address space, no range in it begins at the page behind another one, and everything mapped in it
belongs to a range. In the lower half, that of user addresses, the interval is cleared only then.
-/
theorem munmap_clears_iff (h : Mapped roots s pm) (haddr : pageSize ∣ addr)
    (hm : munmap A s pm addr length = some (true, s')) :
    (Clearable s pm addr length → Cleared s' pm addr length) ∧
      (addr + alignUp length pageSize ≤ lowEnd → Cleared s' pm addr length →
        Clearable s pm addr length) := by
  constructor
  · rintro ⟨hfits, hun, hback⟩ v hv hav hvs
    have hmapped := munmap_rule (P := fun _ _ => True) h haddr hfits
      (fun _ _ _ _ _ _ _ _ => trivial) (fun _ _ _ _ _ _ _ _ _ _ _ _ _ _ _ _ => trivial) trivial hm
    have hvac : Vacant s' pm addr (addr + alignUp length pageSize) := by
      refine munmap_vacant (A := A) h.listed h.apart haddr (alignUp_dvd length) hfits hun ?_
      rw [munmap_alignUp s pm addr (by omega)]
      exact hm
    have hno : ¬ Covered s' pm v := fun ⟨x, hx, hxv⟩ => hvac x hx v hxv ⟨hav, hvs⟩
    refine ⟨(addr2range_eq_none_iff hmapped.1.listed).mpr hno, fun hp => hno ?_⟩
    exact munmap_backed (I := fun v => pageSize ∣ v ∧ addr ≤ v ∧ v < addr + alignUp length pageSize)
      h haddr hfits (fun v hI => hback v hI.1 hI.2.1 hI.2.2) hm v ⟨hv, hav, hvs⟩ hp
  · intro hlow hclear
    have hfits : Fits addr (alignUp length pageSize) := by
      unfold Fits lowEnd pageSize at *
      omega
    have hmapped := munmap_rule (P := fun _ _ => True) h haddr hfits
      (fun _ _ _ _ _ _ _ _ => trivial) (fun _ _ _ _ _ _ _ _ _ _ _ _ _ _ _ _ => trivial) trivial hm
    refine ⟨hfits, ?_, ?_⟩
    · refine unjoined_of_no_joint h haddr (fun q hq hlo hhi hJ => ?_) _ (Nat.le_refl _)
      have hnone := (hclear q hq (Nat.le_of_lt hlo) hhi).1
      exact (addr2range_eq_none_iff hmapped.1.listed).mp hnone
        (munmap_joint h haddr hfits hq hlo hhi hJ hm)
    · intro v hv hav hvs hp
      by_contra hun
      have hpte := munmap_keeps_uncovered h haddr hfits hlow (by omega) hun hm
      refine (hclear v hv hav hvs).2 ?_
      unfold Present at hp ⊢
      rwa [hpte]

theorem Sys.tables_apart (h : Sys A s pm) (ha : ApartIf (fun _ _ => True) s pm) :
    Mapped (Roots s pm) s pm where
  listed := h.toListed
  apart := ha
  tables := h.wf.forest
  pagemap := h.root_pm
  shadow _ hx := h.root_shadow hx
  shadow_ne x hx := (h.range x hx).shadow_ne

theorem apartIf_of_spans
    (h : (spans s pm).Pairwise fun x y => x.1 + x.2 ≤ y.1 ∨ y.1 + y.2 ≤ x.1) :
    ApartIf (fun _ _ => True) s pm := by
  have hpair : (s.ranges pm).Pairwise fun x y => Apart (s.locals x) (s.locals y) := by
    refine (List.pairwise_map.mp h).imp fun {x y} hxy v hv => ?_
    unfold LocalRange.Has at hv
    omega
  have : Std.Symm fun x y => Apart (s.locals x) (s.locals y) := ⟨fun _ _ h => h.symm⟩
  exact fun x hx y hy hxy _ => hpair.forall hx hy hxy

end

/-- Three pages are mapped, the middle one is touched and unmapped. -/
theorem munmap_clears_iff_boot : ∃ s s',
    munmap Pmm.allocator s 0x2000 0x80000001000 0x1000 = some (true, s') ∧
    Present s.vm 0x2000 0x80000001000 ∧ spans s 0x2000 = [(0x80000000000, 0x3000)] ∧
    spans s' 0x2000 = [(0x80000000000, 0x1000), (0x80000002000, 0x1000)] ∧
    Cleared s' 0x2000 0x80000001000 0x1000 := by
  have hrun : (((Call.mmap 0 0x3000 readWrite (anonFlags false) none 0).exec Pmm.allocator 0x2000
      bootProcess).bind fun s => (Call.fault 0 0x80000001000).exec Pmm.allocator 0x2000 s).map
      (fun s => ((munmap Pmm.allocator s 0x2000 0x80000001000 0x1000).map (fun r =>
          (r.1, spans r.2 0x2000)), spans s 0x2000, decide (Present s.vm 0x2000 0x80000001000)))
      = some (some (true, [(0x80000000000, 0x1000), (0x80000002000, 0x1000)]),
          [(0x80000000000, 0x3000)], true) := by
    decide +kernel
  obtain ⟨s₂, hs, hfacts⟩ := Option.map_eq_some_iff.mp hrun
  obtain ⟨s₁, h₁, h₂⟩ := Option.bind_eq_some_iff.mp hs
  simp only [Prod.mk.injEq, decide_eq_true_eq] at hfacts
  obtain ⟨hres, hspans, hpres⟩ := hfacts
  obtain ⟨⟨ok, s'⟩, hm, hs'⟩ := Option.map_eq_some_iff.mp hres
  simp only [Prod.mk.injEq] at hs'
  obtain ⟨rfl, hspans'⟩ := hs'
  have hreach : Reach (Step Pmm.allocator 0x2000) (fun s c => c.Low s ∧ c.Sole 0x2000 s)
      bootProcess s₂ :=
    .tail (.tail .refl (a := .mmap 0 0x3000 readWrite (anonFlags false) none 0)
      ⟨⟨rfl, show 0x80000000000 + alignUp 0x3000 pageSize ≤ lowEnd by decide⟩,
        fun hc => absurd hc (by decide)⟩ h₁)
      (a := .fault 0 0x80000001000) ⟨trivial, trivial⟩ h₂
  obtain ⟨hsys, hback⟩ := backed_of_run bootProcess_boot bootProcess_empty hreach
  have hmapped := hsys.tables_apart (apartIf_of_spans (by rw [hspans]; decide))
  -- there is one range, so nothing is joined
  have hone : ∀ x ∈ s₂.ranges 0x2000, ∀ y ∈ s₂.ranges 0x2000, x = y := by
    have hlen : (s₂.ranges 0x2000).length = 1 := by
      have := congrArg List.length hspans
      simpa [spans] using this
    obtain ⟨z, hz⟩ := List.length_eq_one_iff.mp hlen
    rw [hz]
    intro x hx y hy
    rw [List.mem_singleton.mp hx, List.mem_singleton.mp hy]
  refine ⟨s₂, s', hm, hpres, hspans, hspans',
    (munmap_clears_iff hmapped (by decide) hm).1 ⟨by unfold Fits; decide, ?_, ?_⟩⟩
  · exact fun x hx y hy _ _ _ _ _ => hone x hx y hy
  · intro v _ _ hv hp
    have hlow : 0x80000001000 + alignUp 0x1000 pageSize ≤ lowEnd := by decide
    obtain ⟨x, hx, hxv, -⟩ := hback v (Nat.lt_of_lt_of_le hv hlow) hp
    exact ⟨x, hx, hxv⟩

/-- Two neighbouring pages are mapped on their own, the second is touched, and both are unmapped
together: the second is still in its range, and its entry is still there. -/
theorem munmap_steps_over_boot : ¬ ∀ s s' addr length, Mapped (Roots s 0x2000) s 0x2000 →
    pageSize ∣ addr → munmap Pmm.allocator s 0x2000 addr length = some (true, s') →
    ∀ v, pageSize ∣ v → addr ≤ v → v < addr + alignUp length pageSize →
      addr2range s' 0x2000 v = none ∧ ¬ Present s'.vm 0x2000 v := by
  intro hall
  have hrun : (runAll (fun s c => Call.exec Pmm.allocator 0x2000 s c)
      [.mmap 0x10000 0x1000 readWrite (anonFlags true) none 0,
        .mmap 0x11000 0x1000 readWrite (anonFlags true) none 0,
        .fault 0 0x11000] bootProcess).map
      (fun s => ((munmap Pmm.allocator s 0x2000 0x10000 0x2000).map (fun r =>
          (r.1, decide (Present r.2.vm 0x2000 0x11000))), spans s 0x2000))
      = some (some (true, true), [(0x10000, 0x1000), (0x11000, 0x1000)]) := by
    decide +kernel
  obtain ⟨s, hs, hfacts⟩ := Option.map_eq_some_iff.mp hrun
  simp only [Prod.mk.injEq] at hfacts
  obtain ⟨hres, hspans⟩ := hfacts
  obtain ⟨⟨ok, s'⟩, hm, hs'⟩ := Option.map_eq_some_iff.mp hres
  simp only [Prod.mk.injEq, decide_eq_true_eq] at hs'
  obtain ⟨rfl, hpres⟩ := hs'
  have hreach : Reach (Step Pmm.allocator 0x2000) (fun _ c => ∀ s : State Pmm.State, c.Low s)
      bootProcess s := by
    refine Reach.of_runAll .refl ?_ hs
    simp only [List.mem_cons, List.not_mem_nil, or_false, forall_eq_or_imp, forall_eq]
    have hlow : ∀ a, a = 0x10000 ∨ a = 0x11000 →
        pageSize ∣ a ∧ a + alignUp 0x1000 pageSize ≤ lowEnd := by
      rintro a (rfl | rfl) <;> decide
    exact ⟨fun s => ⟨rfl, hlow _ (Or.inl rfl)⟩, fun s => ⟨rfl, hlow _ (Or.inr rfl)⟩,
      fun s => trivial⟩
  have hmapped := (sys_of_run bootProcess_boot (hreach.mono fun s c h => h s)).tables_apart
    (apartIf_of_spans (by rw [hspans]; decide))
  exact (hall s s' 0x10000 0x2000 hmapped (by decide) hm 0x11000 (by decide) (by decide)
    (by decide)).2 hpres

end Lyre.Mmap
