import Lyre.Properties.Munmap

/-!
# What `munmap` and `mprotect` leave alone

Both calls cut ranges, move bases and file offsets and append fragments. A page outside the
interval does not see any of it: it is in a range with the same file page, protection, flags and
global range as before, or in none, and its entry is unchanged.

That needs mappings in the lower half, and pages with canonical addresses: above, one entry belongs
to several addresses. It also needs file offsets that are whole pages or not negative:
`offset / PAGE_SIZE` rounds towards zero.

* `Window` — a piece of a range whose offset has moved with its base;
* `Fragments` — the ranges after a turn;
* `interval_frame` — the frame of the two calls.
-/

namespace Lyre.Mmap

open Vmm Infra

/-! ## File pages -/

theorem offsetPage_of_lt {o : Nat} (h : o < 2 ^ 63) : offsetPage o = o / pageSize := by
  have hint : (BitVec.ofNat 64 o).toInt = (o : Int) := by
    rw [BitVec.toInt_ofNat', Int.bmod_def]
    omega
  unfold offsetPage
  rw [hint, Int.tdiv_eq_ediv_of_nonneg (by omega), BitVec.toNat_ofInt]
  unfold pageSize
  omega

theorem offsetPage_of_dvd {o : Nat} (h : 2 ^ 63 ≤ o) (hlt : o < 2 ^ 64) (hd : pageSize ∣ o) :
    offsetPage o = 2 ^ 64 - 2 ^ 52 + o / pageSize := by
  have hint : (BitVec.ofNat 64 o).toInt = (o : Int) - 2 ^ 64 := by
    rw [BitVec.toInt_ofNat', Int.bmod_def]
    omega
  have hdiv : ((o : Int) - 2 ^ 64).tdiv pageSize = ((o / pageSize : Nat) : Int) - 2 ^ 52 := by
    obtain ⟨k, rfl⟩ := hd
    have hk : ((pageSize * k : Nat) : Int) - 2 ^ 64 = pageSize * ((k : Int) - 2 ^ 52) := by
      unfold pageSize
      omega
    rw [hk, Int.mul_tdiv_cancel_left _ (by decide), Nat.mul_div_cancel_left _ (by decide)]
  unfold offsetPage
  rw [hint, hdiv, BitVec.toNat_ofInt]
  unfold pageSize at *
  omega

/-- The file offset of a range is a 64-bit value, and its end does not overflow an `off_t` unless
the offset is negative; then it is in whole pages. -/
structure LocalRange.OffsetOk (l : LocalRange) : Prop where
  lt : l.offset < 2 ^ 64
  whole : l.offset + l.length < 2 ^ 63 ∨ (2 ^ 63 ≤ l.offset ∧ pageSize ∣ l.offset)

/-- `file_page` of an address in a range. -/
def LocalRange.filePage (l : LocalRange) (v : Nat) : Nat :=
  u64 (offsetPage l.offset + sub64 (v / pageSize) (l.base / pageSize))

/-- Moving the base and the offset by the same number of pages does not move the file. -/
theorem filePage_shift {o b d length v : Nat} (ho : o < 2 ^ 64)
    (hok : o + length < 2 ^ 63 ∨ (2 ^ 63 ≤ o ∧ pageSize ∣ o)) (hd : pageSize ∣ d)
    (hdl : d ≤ length) (hbv : b + d ≤ v) (hlow : v < lowEnd) :
    u64 (offsetPage (u64 (o + d)) + sub64 (v / pageSize) ((b + d) / pageSize))
      = u64 (offsetPage o + sub64 (v / pageSize) (b / pageSize)) := by
  have hb : (b + d) / pageSize = b / pageSize + d / pageSize := by
    unfold pageSize at *
    omega
  have hadd : (o + d) / pageSize = o / pageSize + d / pageSize := by
    unfold pageSize at *
    omega
  have hle : b / pageSize + d / pageSize ≤ v / pageSize := by
    rw [← hb]
    exact Nat.div_le_div_right hbv
  have hv : v / pageSize < 2 ^ 64 :=
    Nat.lt_of_le_of_lt (Nat.div_le_self _ _) (Nat.lt_trans hlow (by decide))
  have hlow' : v < 2 ^ 47 := hlow
  rw [hb, sub64_of_le hle hv, sub64_of_le (Nat.le_trans (Nat.le_add_right _ _) hle) hv]
  rcases hok with hok | ⟨hge, hod⟩
  · have hu : u64 (o + d) = o + d := u64_of_lt (by omega)
    rw [hu, offsetPage_of_lt (by omega : o + d < 2 ^ 63), offsetPage_of_lt (by omega : o < 2 ^ 63),
      hadd]
    congr 1
    unfold pageSize at *
    omega
  · rw [offsetPage_of_dvd hge ho hod]
    by_cases hwrap : o + d < 2 ^ 64
    · have hu : u64 (o + d) = o + d := u64_of_lt hwrap
      rw [hu, offsetPage_of_dvd (by omega) hwrap (Nat.dvd_add hod hd), hadd]
      congr 1
      unfold pageSize at *
      omega
    · -- the offset has become positive
      have hu : u64 (o + d) = o + d - 2 ^ 64 := by
        unfold u64
        omega
      rw [hu, offsetPage_of_lt (by omega)]
      unfold u64 pageSize at *
      omega

/-- A piece whose offset has moved with its base. -/
structure Window (l' l : LocalRange) : Prop extends Piece l' l where
  offset : l'.offset = u64 (l.offset + (l'.base - l.base))

theorem Window.filePage {l' l : LocalRange} (h : Window l' l) (hl : l.Tidy) (ho : l.OffsetOk)
    (hlow : l.base + l.length ≤ lowEnd) {v : Nat} (hv : l'.Has v) :
    l'.filePage v = l.filePage v := by
  have hbase := h.base_le
  have hstop := h.stop_le
  have hd : pageSize ∣ l'.base - l.base := Nat.dvd_sub h.tidy.base hl.base
  have hv' := hv.1
  have hlt := hv.2
  have hsum : l'.base = l.base + (l'.base - l.base) := by omega
  have hshift := filePage_shift (b := l.base) (v := v) ho.lt ho.whole hd (by omega) (by omega)
    (by omega)
  unfold LocalRange.filePage
  rw [h.offset, hsum, Nat.add_sub_cancel_left]
  exact hshift

theorem Window.offsetOk {l' l : LocalRange} (h : Window l' l) (ho : l.OffsetOk) (hl : l.Tidy)
    (hlow : l.base + l.length ≤ lowEnd) : l'.OffsetOk := by
  have hbase := h.base_le
  have hstop := h.stop_le
  have hlt := ho.lt
  have hd : pageSize ∣ l'.base - l.base := Nat.dvd_sub h.tidy.base hl.base
  refine ⟨by rw [h.offset]; exact u64_lt _, ?_⟩
  rw [h.offset]
  unfold u64 lowEnd at *
  rcases ho.whole with hok | ⟨hge, hod⟩
  · left
    omega
  · by_cases hwrap : l.offset + (l'.base - l.base) < 2 ^ 64
    · right
      rw [Nat.mod_eq_of_lt hwrap]
      exact ⟨by omega, Nat.dvd_add hod hd⟩
    · left
      omega

namespace Snip

variable {l : LocalRange} {b e : Nat}

theorem after_window (h : Snip l b e) : Window (l.after e) l := ⟨h.after_piece, rfl⟩

theorem before_window (h : Snip l b e) (ho : l.offset < 2 ^ 64) : Window (l.before b) l := by
  refine ⟨h.before_piece, ?_⟩
  simp only [LocalRange.before, Nat.sub_self, Nat.add_zero]
  exact (u64_of_lt ho).symm

theorem rest_window (h : Snip l b e) (ho : l.offset < 2 ^ 64) : Window (l.rest b e) l := by
  unfold LocalRange.rest
  split
  · exact h.after_window
  · exact h.before_window ho

theorem withProt_window (h : Snip l b e) (prot : Prot) : Window (l.withProt prot b e) l :=
  ⟨h.withProt_piece prot, rfl⟩

theorem rest_prot : (l.rest b e).prot = l.prot := by
  unfold LocalRange.rest
  split <;> rfl

end Snip

section

variable {σ : Type} {A : PageAllocator σ} {roots : Nat → Prop} {s s₁ s' : State σ}
  {pm id b e addr length v : Nat} {prot : Prot}

/-! ## What a page sees -/

/-- What `addr2range` tells about an address: file page, protection, flags and global range. -/
def lookup (s : State σ) (pm v : Nat) : Option (Nat × Prot × MapFlags × Nat) :=
  (addr2range s pm v).map fun r =>
    (r.filePage, (s.locals r.range).prot, (s.locals r.range).flags, (s.locals r.range).global)

/-- The same as seen from the range. -/
def LocalRange.view (l : LocalRange) (v : Nat) : Nat × Prot × MapFlags × Nat :=
  (l.filePage v, l.prot, l.flags, l.global)

theorem lookup_eq (s : State σ) (pm v : Nat) : lookup s pm v =
    ((s.ranges pm).find? fun id => (s.locals id).covers v).map fun id => (s.locals id).view v := by
  unfold lookup addr2range
  rw [Option.map_map]
  rfl

theorem lookup_of_has (h : Mapped roots s pm) {x : Nat} (hx : x ∈ s.ranges pm)
    (hv : (s.locals x).Has v) : lookup s pm v = some ((s.locals x).view v) := by
  rw [lookup_eq]
  cases hf : (s.ranges pm).find? fun id => (s.locals id).covers v with
  | none =>
    exact absurd ((h.listed.tidy x hx).covers_iff.mpr hv) (List.find?_eq_none.mp hf x hx)
  | some y =>
    have hy := List.mem_of_find?_eq_some hf
    have hcov := List.find?_some (p := fun id => (s.locals id).covers v) hf
    rw [h.eq_of_has hy hx ((h.listed.tidy y hy).covers_iff.mp hcov) hv]
    rfl

theorem lookup_eq_none (h : Mapped roots s pm) (hv : ¬ Covered s pm v) : lookup s pm v = none := by
  unfold lookup
  rw [(addr2range_eq_none_iff h.listed).mpr hv]
  rfl

theorem lookup_congr (h : Mapped roots s pm) (h' : Mapped roots s' pm)
    (hview : ∀ x ∈ s'.ranges pm, (s'.locals x).Has v →
      ∃ y ∈ s.ranges pm, (s.locals y).Has v ∧ (s'.locals x).view v = (s.locals y).view v)
    (hcov : Covered s pm v → Covered s' pm v) : lookup s' pm v = lookup s pm v := by
  by_cases hc : Covered s' pm v
  · obtain ⟨x, hx, hxv⟩ := hc
    obtain ⟨y, hy, hyv, heq⟩ := hview x hx hxv
    rw [lookup_of_has h' hx hxv, lookup_of_has h hy hyv, heq]
  · rw [lookup_eq_none h' hc, lookup_eq_none h fun hc' => hc (hcov hc')]

/-! ## The ranges after a turn -/

/-- A range after a turn at `[b, e)` is one that was not cut, or a window of the one that was. Only
inside `[b, e)` it may have another protection. -/
def Fragments (s s' : State σ) (pm id b e : Nat) : Prop :=
  ∀ x ∈ s'.ranges pm, (x ∈ s.ranges pm ∧ s'.locals x = s.locals x) ∨
    (Window (s'.locals x) (s.locals id) ∧
      ((s'.locals x).prot = (s.locals id).prot ∨ ∀ v, (s'.locals x).Has v → b ≤ v ∧ v < e))

theorem munmapSnip_fragments (h : Listed s pm) (hid : id ∈ s.ranges pm)
    (hS : Snip (s.locals id) b e) (ho : (s.locals id).offset < 2 ^ 64) (hs : munmapSnip A s pm id b e = (true, s')) :
    Fragments s s' pm id b e := by
  intro x hx
  rcases munmapSnip_cases (A := A) pm hS with
    ⟨hb, he, heq⟩ | ⟨-, -, heq⟩ | ⟨-, ⟨-, heq⟩ | ⟨-, heq⟩⟩
  · rw [heq] at hs
    obtain rfl := congrArg Prod.snd hs
    obtain ⟨hr, hothers, -⟩ := dropWhole_frame (A := A) (unmapPages A s pm b e) pm id b e
    have hmem : x ∈ (s.ranges pm).erase id := by
      have hr' : (dropWhole A (unmapPages A s pm b e) pm id b e).ranges pm
          = (s.ranges pm).erase id := by
        rw [hr]
        exact Function.update_self ..
      rwa [← hr']
    rw [h.nodup.mem_erase_iff] at hmem
    exact Or.inl ⟨hmem.2, (hothers x hmem.1).1⟩
  · rw [heq] at hs
    obtain rfl := congrArg Prod.snd hs
    by_cases hxid : x = id
    · subst hxid
      have hself : (setLocal (unmapPages A s pm b e) x ((s.locals x).rest b e)).locals x
          = (s.locals x).rest b e := Function.update_self ..
      rw [hself]
      exact Or.inr ⟨hS.rest_window ho, Or.inl Snip.rest_prot⟩
    · exact Or.inl ⟨hx, Function.update_of_ne hxid ..⟩
  · rw [heq] at hs
    simp at hs
  · rw [heq] at hs
    obtain rfl := congrArg Prod.snd hs
    have hlt := h.lt id hid
    by_cases hxid : x = id
    · subst hxid
      right
      simp only [setLocal, Function.update_self]
      exact ⟨hS.before_window ho, Or.inl rfl⟩
    · by_cases hxn : x = s.nextId
      · subst hxn
        right
        simp only [setLocal, pushRange, Function.update_of_ne hxid, Function.update_self]
        exact ⟨hS.after_window, Or.inl rfl⟩
      · left
        simp only [setLocal, pushRange, Function.update_of_ne hxid, Function.update_of_ne hxn]
        simp only [setLocal, pushRange, Function.update_self, List.mem_append,
          List.mem_singleton] at hx
        exact ⟨hx.resolve_right hxn, rfl⟩

theorem mprotectSnip_fragments (h : Listed s pm) (hid : id ∈ s.ranges pm)
    (hS : Snip (s.locals id) b e) (ho : (s.locals id).offset < 2 ^ 64)
    (hs : mprotectSnip A s pm id prot b e = some s') : Fragments s s' pm id b e := by
  have hlt := h.lt id hid
  intro x hx
  rcases mprotectSnip_cases (A := A) hS hs with ⟨-, rfl⟩ | ⟨-, rfl⟩
  · by_cases hxn : x = s.nextId
    · subst hxn
      right
      simp only [setLocal, pushRange, Function.update_self]
      exact ⟨hS.withProt_window prot, Or.inr fun v hv => hS.withProt_has.mp hv⟩
    · by_cases hxid : x = id
      · subst hxid
        right
        simp only [setLocal, pushRange, Function.update_of_ne hxn, Function.update_self]
        exact ⟨hS.rest_window ho, Or.inl Snip.rest_prot⟩
      · left
        simp only [setLocal, pushRange, Function.update_of_ne hxid, Function.update_of_ne hxn]
        simp only [setLocal, pushRange, Function.update_self, List.mem_append,
          List.mem_singleton] at hx
        exact ⟨hx.resolve_right hxn, rfl⟩
  · by_cases hxn' : x = s.nextId + 1
    · subst hxn'
      right
      simp only [setLocal, pushRange, Function.update_self]
      exact ⟨hS.withProt_window prot, Or.inr fun v hv => hS.withProt_has.mp hv⟩
    · by_cases hxid : x = id
      · subst hxid
        right
        simp only [setLocal, pushRange, Function.update_of_ne hxn', Function.update_self]
        exact ⟨hS.before_window ho, Or.inl rfl⟩
      · by_cases hxn : x = s.nextId
        · subst hxn
          right
          simp only [setLocal, pushRange, Function.update_of_ne hxn', Function.update_of_ne hxid,
            Function.update_self]
          exact ⟨hS.after_window, Or.inl rfl⟩
        · left
          simp only [setLocal, pushRange, Function.update_of_ne hxid, Function.update_of_ne hxn,
            Function.update_of_ne hxn']
          simp only [setLocal, pushRange, Function.update_self, List.mem_append,
            List.mem_singleton] at hx
          exact ⟨(hx.resolve_right hxn').resolve_right hxn, rfl⟩

/-! ## Mappings of user space -/

/-- The mapping lies in the lower half, with the whole of its global range, and its file offset can
be moved with its base. -/
structure UserRange (s : State σ) (x : Nat) : Prop where
  low : (s.locals x).base + (s.locals x).length ≤ lowEnd
  mapping : (globalOf s x).base + (globalOf s x).length ≤ lowEnd
  offset : (s.locals x).OffsetOk

/-- The ranges of the pagemap are mappings of user space. -/
def User (s : State σ) (pm : Nat) : Prop := ∀ x ∈ s.ranges pm, UserRange s x

theorem User.turn {ps : List Nat} (h : User s pm) (hl : Listed s pm) (hid : id ∈ s.ranges pm)
    (t : Turn s s' pm id ps) (hf : Fragments s s' pm id b e) : User s' pm := by
  intro x hx
  rcases hf x hx with ⟨hx, hsame⟩ | ⟨hw, -⟩
  · have hg : globalOf s' x = globalOf s x := by
      unfold globalOf
      rw [t.globals, hsame]
    have hU := h x hx
    exact ⟨by rw [hsame]; exact hU.low, by rw [hg]; exact hU.mapping,
      by rw [hsame]; exact hU.offset⟩
  · have hg : globalOf s' x = globalOf s id := by
      unfold globalOf
      rw [t.globals, hw.global]
    have hU := h id hid
    exact ⟨Nat.le_trans hw.stop_le hU.low, by rw [hg]; exact hU.mapping,
      hw.offsetOk hU.offset (hl.tidy id hid) hU.low⟩

/-- An address the processor accepts. -/
def Canonical (v : Nat) : Prop := v < lowEnd ∨ (2 ^ 64 - lowEnd ≤ v ∧ v < 2 ^ 64)

/-- A canonical address shares an entry with a page of the lower half only if it lies in that page,
and in one pagemap. -/
theorem Canonical.sameEntry {r r' j : Nat} (hv : Canonical v) (hj : j < lowEnd)
    (h : SameEntry upperHalf r j r' v) : r' = r ∧ j / pageSize = v / pageSize := by
  obtain ⟨hvpn, hroot⟩ := h
  have hpage : j / pageSize = v / pageSize := by
    unfold vpn Canonical lowEnd pageSize at *
    omega
  rcases hroot with hroot | hup
  · exact ⟨hroot.symm, hpage⟩
  · exact absurd hup (not_upperHalf_of_low hj)

/-- The address is seen alike in both states, and its entry is the same. -/
def SeenAlike (s s' : State σ) (pm v : Nat) : Prop :=
  lookup s' pm v = lookup s pm v ∧ pte s'.vm pm v = pte s.vm pm v

theorem SeenAlike.trans (h : SeenAlike s s₁ pm v) (h' : SeenAlike s₁ s' pm v) :
    SeenAlike s s' pm v := ⟨h'.1.trans h.1, h'.2.trans h.2⟩

theorem Fragments.lookup (hf : Fragments s s' pm id b e) (h : Mapped roots s pm)
    (h' : Mapped roots s' pm) (hU : User s pm) (hid : id ∈ s.ranges pm)
    (hcov : Covered s pm v → Covered s' pm v) (hout : ¬ (b ≤ v ∧ v < e)) :
    lookup s' pm v = Mmap.lookup s pm v := by
  refine lookup_congr h h' (fun x hx hv => ?_) hcov
  rcases hf x hx with ⟨hx, hsame⟩ | ⟨hw, hprot⟩
  · rw [hsame] at hv ⊢
    exact ⟨x, hx, hv, rfl⟩
  · have hprot' := hprot.resolve_right fun hin => hout (hin v hv)
    refine ⟨id, hid, hw.has hv, ?_⟩
    have hfile := hw.filePage (h.listed.tidy id hid) (hU id hid).offset (hU id hid).low hv
    unfold LocalRange.view
    rw [hfile, hprot', hw.flags, hw.global]

theorem not_entryIn (hv : Canonical v) (hlow : e ≤ lowEnd) (he : pageSize ∣ e)
    (hout : ¬ (b ≤ v ∧ v < e)) : ¬ EntryIn pm b e pm v := by
  rintro ⟨j, hj, hbj, hje, hsame⟩
  obtain ⟨-, hpage⟩ := hv.sameEntry (Nat.lt_of_lt_of_le hje hlow) hsame
  unfold pageSize at *
  omega

/-- **One turn of `munmap` outside its snip.** -/
theorem munmapSnip_alike {ps : List Nat} (h : Mapped roots s pm) (hU : User s pm)
    (hid : id ∈ s.ranges pm) (hS : Snip (s.locals id) b e) (c : Cut s s' pm id b e ps)
    (hs : munmapSnip A s pm id b e = (true, s')) (hv : Canonical v) (hout : ¬ (b ≤ v ∧ v < e)) :
    SeenAlike s s' pm v := by
  have hRange := hU id hid
  have hf := munmapSnip_fragments h.listed hid hS hRange.offset.lt hs
  refine ⟨hf.lookup h (h.munmapSnip hid hS c hs) hU hid
    (fun hc => hc.cut c h.listed hout) hout, ?_⟩
  refine (munmapSnip_entries h hid hS hs).1.keeps pm v h.pagemap ?_
  rintro (hin | ⟨j, hj, hsame⟩)
  · exact not_entryIn hv (Nat.le_trans hS.le_stop hRange.low) hS.end_dvd hout hin
  · -- an entry of the shadow pagemap is not one of the pagemap
    have hjlow : j < lowEnd := by
      have := hRange.mapping
      rw [u64_of_lt (Nat.lt_of_le_of_lt this (by decide))] at hj
      omega
    exact h.shadow_ne id hid (hv.sameEntry hjlow hsame).1.symm

/-- **One turn of `mprotect` outside its snip.** -/
theorem mprotectSnip_alike {ps : List Nat} (h : Mapped roots s pm) (hU : User s pm)
    (hid : id ∈ s.ranges pm) (hS : Snip (s.locals id) b e) (c : Recolor s s' pm id b e prot ps)
    (hs : mprotectSnip A s pm id prot b e = some s') :
    Mapped roots s' pm ∧ User s' pm ∧
      ∀ v, Canonical v → ¬ (b ≤ v ∧ v < e) → SeenAlike s s' pm v := by
  have hRange := hU id hid
  have hf := mprotectSnip_fragments h.listed hid hS hRange.offset.lt hs
  have hed : Edits roots (EntryIn pm b e) s.vm (flagPages A s pm prot b e).vm :=
    edits_of_loop (fun j vm hvm => vmmFlagPage_edits hvm h.pagemap j _) h.tables hS.begin_dvd
      hS.end_dvd (Nat.le_of_lt hS.lt) (Nat.lt_of_le_of_lt hS.le_stop hS.tidy.fits)
  have hvm : s'.vm = (flagPages A s pm prot b e).vm := by
    rcases mprotectSnip_cases (A := A) hS hs with ⟨-, rfl⟩ | ⟨-, rfl⟩ <;> rfl
  rw [← hvm] at hed
  have hM := h.turn hid c.toTurn hed.tables
  refine ⟨hM, hU.turn h.listed hid c.toTurn hf, fun v hv hout => ⟨?_, ?_⟩⟩
  · refine hf.lookup h hM hU hid ?_ hout
    rintro ⟨x, hx, hxv⟩
    by_cases hxid : x = id
    · subst hxid
      obtain ⟨y, hy, hyv⟩ := c.stays v hxv
      exact ⟨y, (c.mem y).mpr (Or.inr hy), hyv⟩
    · refine ⟨x, (c.mem x).mpr (Or.inl ⟨hx, hxid⟩), ?_⟩
      rw [(c.others x (h.listed.lt x hx) hxid).1]
      exact hxv
  · exact hed.keeps pm v h.pagemap
      (not_entryIn hv (Nat.le_trans hS.le_stop hRange.low) hS.end_dvd hout)

/-! ## The two calls -/

/-- Every address outside the interval is seen alike. -/
def OutsideAlike (s s' : State σ) (pm addr length : Nat) : Prop :=
  ∀ v, Canonical v → ¬ (addr ≤ v ∧ v < addr + alignUp length pageSize) → SeenAlike s s' pm v

/-- The number of the next object and `errno` are not seen. -/
theorem seenAlike_errno (s : State σ) (pm v n : Nat) (e : Errno) :
    SeenAlike s (setErrno { s with nextId := n } e) pm v := ⟨rfl, rfl⟩

theorem munmap_frame {ok : Bool} (h : Mapped roots s pm) (hU : User s pm) (haddr : pageSize ∣ addr)
    (hlt : addr < 2 ^ 64) (hm : munmap A s pm addr length = some (ok, s')) :
    OutsideAlike s s' pm addr length := by
  by_cases hend : addr + alignUp length pageSize < 2 ^ 64
  · have hroom : ∀ (i : Nat) (s₁ : State σ), User s₁ pm ∧ OutsideAlike s s₁ pm addr length →
        ∀ x ∈ s₁.ranges pm, Fits (s₁.locals x).base (s₁.locals x).length ∨
          Fits addr (alignUp length pageSize) := by
      intro i s₁ hP x hx
      have := (hP.1 x hx).low
      left
      unfold Fits lowEnd pageSize at *
      omega
    have hsnip : ∀ i e s₁ id s₂ ps, pageSize ∣ i → addr ≤ i → i < addr + alignUp length pageSize →
        Mapped roots s₁ pm → User s₁ pm ∧ OutsideAlike s s₁ pm addr length → id ∈ s₁.ranges pm →
        Snip (s₁.locals id) i e →
        e = min ((s₁.locals id).base + (s₁.locals id).length) (addr + alignUp length pageSize) →
        Cut s₁ s₂ pm id i e ps → munmapSnip A s₁ pm id i e = (true, s₂) →
        User s₂ pm ∧ OutsideAlike s s₂ pm addr length := by
      rintro i e s₁ id s₂ ps - hai hilt hM ⟨hU, halike⟩ hid hS he hcut hm
      refine ⟨hU.turn hM.listed hid hcut.toTurn
        (munmapSnip_fragments hM.listed hid hS (hU id hid).offset.lt hm), fun v hv hout => ?_⟩
      exact (halike v hv hout).trans (munmapSnip_alike hM hU hid hS hcut hm hv (by omega))
    obtain ⟨i, s₁, -, ⟨-, halike⟩, ⟨-, -, rfl⟩ | ⟨-, n, e, -, rfl⟩⟩ :=
      munmap_run (P := fun _ s₁ => User s₁ pm ∧ OutsideAlike s s₁ pm addr length) h haddr hend
        hroom (fun _ _ _ _ _ _ hP _ => hP) hsnip ⟨hU, fun v _ _ => ⟨rfl, rfl⟩⟩ hm
    · exact halike
    · exact fun v hv hout => (halike v hv hout).trans (seenAlike_errno s₁ pm v n e)
  · -- the end wraps, and the loop does not run
    unfold munmap at hm
    split at hm
    · obtain ⟨-, rfl⟩ : false = ok ∧ setErrno s .einval = s' := by simpa using hm
      exact fun v _ _ => ⟨rfl, rfl⟩
    · have hstop : u64 (addr + alignUp length pageSize) ≤ addr := by
        have : alignUp length pageSize < 2 ^ 64 := u64_lt _
        unfold u64
        omega
      refine munmapLoop_rule (A := A) (P := fun i s₁ => i = addr ∧ s₁ = s)
        (Q := fun _ s₁ => OutsideAlike s s₁ pm addr length)
        (u64_dvd (Nat.dvd_add haddr (alignUp_dvd length))) ?_ ?_ ?_ ?_ ?_ haddr ⟨rfl, rfl⟩ hm
      · rintro i s₁ ⟨-, rfl⟩
        exact h.listed
      · rintro i s₁ - hilt ⟨rfl, -⟩
        omega
      · rintro i e s₁ id s₂ - hilt ⟨rfl, -⟩
        omega
      · rintro i s₁ ⟨-, rfl⟩
        exact fun v _ _ => seenAlike_errno s₁ pm v _ _
      · rintro i s₁ - ⟨-, rfl⟩
        exact fun v _ _ => ⟨rfl, rfl⟩

theorem mprotect_frame {ret : Int} (h : Mapped roots s pm) (hU : User s pm)
    (haddr : pageSize ∣ addr) (hm : mprotect A s pm addr length prot = some (ret, s')) :
    OutsideAlike s s' pm addr length := by
  unfold mprotect at hm
  split at hm
  · obtain ⟨-, rfl⟩ : -1 = ret ∧ setErrno s .einval = s' := by simpa using hm
    exact fun v _ _ => ⟨rfl, rfl⟩
  · rw [Option.map_eq_some_iff] at hm
    obtain ⟨s₁, hm, he⟩ := hm
    obtain rfl : s₁ = s' := congrArg Prod.snd he
    have hstop : u64 (addr + alignUp length pageSize) ≤ addr + alignUp length pageSize :=
      Nat.mod_le ..
    refine mprotectLoop_rule
      (P := fun i s₁ => addr ≤ i ∧ Mapped roots s₁ pm ∧ User s₁ pm ∧
        OutsideAlike s s₁ pm addr length)
      (Q := fun s₁ => OutsideAlike s s₁ pm addr length)
      (u64_dvd (Nat.dvd_add haddr (alignUp_dvd length))) (fun _ _ hP => hP.2.1.listed) ?_ ?_
      (fun _ _ _ hP => hP.2.2.2) haddr ⟨Nat.le_refl _, h, hU, fun v _ _ => ⟨rfl, rfl⟩⟩ hm
    · rintro i s₁ id - - ⟨hai, hM, hU, halike⟩ hid hhas -
      have hlow := (hU id hid).low
      have hi := hhas.2
      rw [u64_of_lt (by unfold lowEnd pageSize at *; omega)]
      exact ⟨by omega, hM, hU, halike⟩
    · rintro i e s₁ id s₂ - hilt ⟨hai, hM, hU, halike⟩ hid - - he hS hm
      obtain ⟨ps, hrec⟩ := mprotectSnip_recolor hM.listed hid hS hm
      obtain ⟨hM', hU', halike'⟩ := mprotectSnip_alike hM hU hid hS hrec hm
      have hlow := (hU id hid).low
      have hie := hS.lt
      have hle := hS.le_stop
      rw [u64_of_lt (by unfold lowEnd pageSize at *; omega)]
      exact ⟨by omega, hM', hU', fun v hv hout =>
        (halike v hv hout).trans (halike' v hv (by omega))⟩

/--
**Both calls leave everything outside their interval alone.** In a pagemap whose ranges are apart
and are mappings of user space, every canonical address outside the interval is in a range with
the same file page, protection, flags and global range as before, or in none, and its entry is
the same.
-/
theorem interval_frame (length : Nat) (h : Mapped roots s pm) (hU : User s pm)
    (haddr : pageSize ∣ addr) (hlt : addr < 2 ^ 64) :
    (∀ ok s', munmap A s pm addr length = some (ok, s') → OutsideAlike s s' pm addr length) ∧
      ∀ prot ret s', mprotect A s pm addr length prot = some (ret, s') →
        OutsideAlike s s' pm addr length :=
  ⟨fun _ _ hm => munmap_frame h hU haddr hlt hm, fun _ _ _ hm => mprotect_frame h hU haddr hm⟩

instance (l : LocalRange) : Decidable l.OffsetOk :=
  decidable_of_iff (l.offset < 2 ^ 64 ∧
      (l.offset + l.length < 2 ^ 63 ∨ (2 ^ 63 ≤ l.offset ∧ pageSize ∣ l.offset)))
    ⟨fun ⟨h, h'⟩ => ⟨h, h'⟩, fun ⟨h, h'⟩ => ⟨h, h'⟩⟩

instance (s : State σ) (x : Nat) : Decidable (UserRange s x) :=
  decidable_of_iff ((s.locals x).base + (s.locals x).length ≤ lowEnd ∧
      (globalOf s x).base + (globalOf s x).length ≤ lowEnd ∧ (s.locals x).OffsetOk)
    ⟨fun ⟨h₁, h₂, h₃⟩ => ⟨h₁, h₂, h₃⟩, fun ⟨h₁, h₂, h₃⟩ => ⟨h₁, h₂, h₃⟩⟩

instance (s : State σ) (pm : Nat) : Decidable (User s pm) :=
  inferInstanceAs (Decidable (∀ x ∈ s.ranges pm, UserRange s x))

instance (s s' : State σ) (pm v : Nat) : Decidable (SeenAlike s s' pm v) :=
  inferInstanceAs (Decidable (_ ∧ _))

end

/-- Of three pages the first two are touched; the middle one is unmapped, or made read-only. -/
theorem interval_frame_boot : ∃ s s₁ s₂,
    munmap Pmm.allocator s 0x2000 0x80000001000 0x1000 = some (true, s₁) ∧
    mprotect Pmm.allocator s 0x2000 0x80000001000 0x1000 ⟨false, false, 1⟩ = some (0, s₂) ∧
    spans s 0x2000 = [(0x80000000000, 0x3000)] ∧
    spans s₁ 0x2000 = [(0x80000000000, 0x1000), (0x80000002000, 0x1000)] ∧
    spans s₂ 0x2000
      = [(0x80000000000, 0x1000), (0x80000002000, 0x1000), (0x80000001000, 0x1000)] ∧
    OutsideAlike s s₁ 0x2000 0x80000001000 0x1000 ∧
    OutsideAlike s s₂ 0x2000 0x80000001000 0x1000 := by
  have hrun : (((Call.mmap 0 0x3000 readWrite (anonFlags false) none 0).exec Pmm.allocator 0x2000
      bootProcess).bind fun s => (Call.fault 0 0x80000000000).exec Pmm.allocator 0x2000 s).map
      (fun s => (decide ((munmap Pmm.allocator s 0x2000 0x80000001000 0x1000).map (fun r =>
          (r.1, spans r.2 0x2000))
            = some (true, [(0x80000000000, 0x1000), (0x80000002000, 0x1000)])),
        decide ((mprotect Pmm.allocator s 0x2000 0x80000001000 0x1000 ⟨false, false, 1⟩).map
          (fun r => (r.1, spans r.2 0x2000)) = some (0,
            [(0x80000000000, 0x1000), (0x80000002000, 0x1000), (0x80000001000, 0x1000)])),
        spans s 0x2000, decide (User s 0x2000)))
      = some (true, true, [(0x80000000000, 0x3000)], true) := by
    decide +kernel
  obtain ⟨s, hs, hfacts⟩ := Option.map_eq_some_iff.mp hrun
  obtain ⟨s₀, h₁, h₂⟩ := Option.bind_eq_some_iff.mp hs
  simp only [Prod.mk.injEq, decide_eq_true_eq] at hfacts
  obtain ⟨hun, hprot, hspans, huser⟩ := hfacts
  obtain ⟨⟨ok, s₁⟩, hm₁, hs₁⟩ := Option.map_eq_some_iff.mp hun
  obtain ⟨⟨ret, s₂⟩, hm₂, hs₂⟩ := Option.map_eq_some_iff.mp hprot
  simp only [Prod.mk.injEq] at hs₁ hs₂
  obtain ⟨rfl, hspans₁⟩ := hs₁
  obtain ⟨rfl, hspans₂⟩ := hs₂
  have hreach : Reach (Step Pmm.allocator 0x2000) (fun s c => c.Low s) bootProcess s :=
    .tail (.tail .refl (a := .mmap 0 0x3000 readWrite (anonFlags false) none 0)
      ⟨rfl, show 0x80000000000 + alignUp 0x3000 pageSize ≤ lowEnd by decide⟩ h₁)
      (a := .fault 0 0x80000000000) trivial h₂
  have hmapped := (sys_of_run bootProcess_boot hreach).tables_apart
    (apartIf_of_spans (by rw [hspans]; decide))
  have hframe := interval_frame (A := Pmm.allocator) 0x1000 hmapped huser
    (show pageSize ∣ 0x80000001000 by decide) (by decide)
  exact ⟨s, s₁, s₂, hm₁, hm₂, hspans, hspans₁, hspans₂, hframe.1 _ _ hm₁, hframe.2 _ _ _ hm₂⟩

/-- A run whose last call is a `munmap` after which some address is not seen alike. -/
theorem seen_otherwise {l : List Call} {addr length v : Nat} (hl : ∀ c ∈ l, c.Aligned)
    (hrun : (runAll (fun s c => Call.exec Pmm.allocator 0x2000 s c) l bootProcess).map (fun s =>
        (decide ((spans s 0x2000).Pairwise fun x y => x.1 + x.2 ≤ y.1 ∨ y.1 + y.2 ≤ x.1),
          (munmap Pmm.allocator s 0x2000 addr length).map fun r =>
            (r.1, decide (SeenAlike s r.2 0x2000 v))))
      = some (true, some (true, false))) : ∃ s s',
    Reach (Step Pmm.allocator 0x2000) (fun _ c => c.Aligned) bootProcess s ∧ Disjoint s 0x2000 ∧
    munmap Pmm.allocator s 0x2000 addr length = some (true, s') ∧ ¬ SeenAlike s s' 0x2000 v := by
  obtain ⟨s, hs, hfacts⟩ := Option.map_eq_some_iff.mp hrun
  simp only [Prod.mk.injEq, decide_eq_true_eq] at hfacts
  obtain ⟨hspans, hres⟩ := hfacts
  obtain ⟨⟨ok, s'⟩, hm, hs'⟩ := Option.map_eq_some_iff.mp hres
  simp only [Prod.mk.injEq, decide_eq_false_iff_not] at hs'
  obtain ⟨rfl, hdiff⟩ := hs'
  refine ⟨s, s', Reach.of_runAll .refl hl hs, ?_, hm, hdiff⟩
  refine (List.pairwise_map.mp hspans).imp fun {x y} hxy v hv => ?_
  unfold LocalRange.Has at hv
  omega

/--
Four ways to reach over the interval: an address `2 ^ 48` above the page that is unmapped; a page
`2 ^ 48` below a range that is; a page of the upper half, whose entry the shadow pagemap shares; and
a file offset of -1, which is rounded towards zero before the cut and up to zero after it.
-/
theorem interval_reaches_over_boot :
    (∃ s s', Reach (Step Pmm.allocator 0x2000) (fun _ c => c.Aligned) bootProcess s ∧
      Disjoint s 0x2000 ∧ munmap Pmm.allocator s 0x2000 0x10000 0x1000 = some (true, s') ∧
      ¬ SeenAlike s s' 0x2000 0x1000000010000) ∧
    (∃ s s', Reach (Step Pmm.allocator 0x2000) (fun _ c => c.Aligned) bootProcess s ∧
      Disjoint s 0x2000 ∧ munmap Pmm.allocator s 0x2000 0x1000000010000 0x1000 = some (true, s') ∧
      ¬ SeenAlike s s' 0x2000 0x10000) ∧
    (∃ s s', Reach (Step Pmm.allocator 0x2000) (fun _ c => c.Aligned) bootProcess s ∧
      Disjoint s 0x2000 ∧
      munmap Pmm.allocator s 0x2000 0xffff800000000000 0x1000 = some (true, s') ∧
      ¬ SeenAlike s s' 0x2000 0xffff800000002000) ∧
    (∃ s s', Reach (Step Pmm.allocator 0x2000) (fun _ c => c.Aligned) bootProcess s ∧
      Disjoint s 0x2000 ∧ munmap Pmm.allocator s 0x2000 0x10000 0x1000 = some (true, s') ∧
      ¬ SeenAlike s s' 0x2000 0x11000) := by
  refine ⟨?_, ?_, ?_, ?_⟩
  · refine seen_otherwise (l := [.mmap 0x10000 0x1000 readWrite (anonFlags true) none 0,
      .fault 0 0x10000]) (by decide) ?_
    decide +kernel
  · refine seen_otherwise (l := [.mmap 0x10000 0x1000 readWrite (anonFlags true) none 0,
      .fault 0 0x10000, .mmap 0x1000000010000 0x1000 readWrite (anonFlags true) none 0])
      (by decide) ?_
    decide +kernel
  · refine seen_otherwise (l := [.mmap 0xffff800000000000 0x3000 readWrite (anonFlags true) none 0,
      .fault 0 0xffff800000002000, .munmap 0xffff800000001000 0x1000]) (by decide) ?_
    decide +kernel
  · refine seen_otherwise (l := [.mmap 0x10000 0x2000 readWrite (anonFlags true) (some 0)
      0xffffffffffffffff]) (by decide) ?_
    decide +kernel

end Lyre.Mmap
