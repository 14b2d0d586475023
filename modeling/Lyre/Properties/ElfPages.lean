import Lyre.Properties.ElfLoad

/-!
# The pages of loaded segments

A segment is to have the pages of its address interval, rounded out, and each of them in the run that
`pmm_alloc` has returned for it. `mmap_range` rounds its start down and its length up once more: a
segment that does not start at a page gets one page more than its interval has, and that page is
mapped to whatever lies behind the run. A segment without a byte gets no run, and one whose bytes are
more than its pages can hold is read over their end.

So `elf_load` does what it is meant to on segments that start at a page, have a byte, and have no more
bytes than their pages can hold, and only on these (`elf_load_pages_iff`).
-/

namespace Lyre.Elf

open Vmm Mmap Infra Infra.Rows

/-! ## What is meant to happen -/

/-- The interval of a segment, rounded out to pages. -/
def Phdr.first (p : Phdr) (loadBase : Nat) : Nat := (p.vaddr + loadBase) / pageSize * pageSize

def Phdr.last (p : Phdr) (loadBase : Nat) : Nat :=
  (p.vaddr + loadBase + p.memsz + (pageSize - 1)) / pageSize * pageSize

def Phdr.Covers (p : Phdr) (loadBase v : Nat) : Prop := p.first loadBase ≤ v ∧ v < p.last loadBase

/-- The segment starts at a page, has a byte, and has no more bytes than its pages can hold. -/
def Phdr.PageSized (p : Phdr) : Prop :=
  pageSize ∣ p.vaddr ∧ 0 < p.memsz ∧ p.filesz ≤ alignUp p.memsz pageSize

instance (p : Phdr) : Decidable p.PageSized := inferInstanceAs (Decidable (_ ∧ _))

section

variable {σ : Type} (A : RunAllocator σ)

/-- Memory for runs of these lengths, each with a shadow pagemap and the tables of its pages. -/
def Provides : σ → List Nat → Prop
  | _, [] => True
  | s, n :: rest =>
    (0 < n → (A.allocRun s n).1 ≠ 0 ∧ A.Supplies (A.allocRun s n).2 (1 + 6 * n)) ∧
      ∀ s', A.Took (A.allocRun s n).2 s' (1 + 6 * n) → Provides s' rest

/-- A file with valid headers, whose segments are apart and lie in pages that are free, and memory to
load it. -/
structure Loadable (s : Mmap.State σ) (pm : Nat) (file : File) (e : Ehdr) (loadBase : Nat) :
    Prop where
  header : file.header = some e
  executable : e.executable = true
  headers : ∀ i < e.phnum, file.phdr (u64 (e.phoff + i * e.phentsize)) ≠ none
  apart : (file.segments e).Pairwise fun p q => ∀ v, p.Covers loadBase v → ¬ q.Covers loadBase v
  free : ∀ p ∈ file.segments e, ∀ v, p.Covers loadBase v → v < lowEnd ∧ ¬ Present s.vm pm v
  heap : ∀ id, s.nextId ≤ id → id < s.nextId + 3 * e.phnum → s.heapOk id = true
  pages : Provides A s.vm.pmm ((file.segments e).map Phdr.pageCount)

/-- The runs that `pmm_alloc` returns to the segments of a file. -/
def elfRuns (s : Mmap.State σ) (pm : Nat) (file : File) (e : Ehdr) (loadBase : Nat) :
    List (Phdr × Nat) :=
  segmentRuns A (some pm) file e loadBase e.phnum 0 (⟨0, 0, 0, 0⟩, none) s

/-- The file has been loaded: every segment has a run of its own, the pages of its interval, and only
these, are mapped to the pages of the run, and its bytes are read into them. -/
structure LoadedTo (s : Mmap.State σ) (pm : Nat) (file : File) (e : Ehdr) (loadBase : Nat)
    (s' : Mmap.State σ) : Prop where
  runs : (elfRuns A s pm file e loadBase).map Prod.fst = file.segments e
  own : (elfRuns A s pm file e loadBase).Pairwise fun r t => ∀ q, InRun r.2 r.1.pageCount q →
    ¬ InRun t.2 t.1.pageCount q
  mapped : ∀ v < lowEnd, Present s'.vm pm v ↔
    Present s.vm pm v ∨ ∃ p ∈ file.segments e, p.Covers loadBase v
  page : ∀ r ∈ elfRuns A s pm file e loadBase, ∀ v, r.1.Covers loadBase v →
    pteGetAddr (pte s'.vm pm v) = r.2 + (v - r.1.first loadBase) / pageSize * pageSize ∧
      InRun r.2 r.1.pageCount (pteGetAddr (pte s'.vm pm v))
  reads : ∀ r ∈ elfRuns A s pm file e loadBase, ∀ k < r.1.filesz,
    r.2 + r.1.misalign + k < r.2 + r.1.pageCount * pageSize

/-- What `elf_load` is meant to do. -/
def LoadsPages (s : Mmap.State σ) (pm : Nat) (file : File) (e : Ehdr) (loadBase : Nat) : Prop :=
  ∃ r s', elfLoad A s (some pm) file loadBase = some (some r, s') ∧
    LoadedTo A s pm file e loadBase s'

end

/-! ## Intervals -/

section

variable {p q : Phdr} {loadBase v : Nat}

/-- The segment is mapped at the address. -/
def Phdr.Maps (p : Phdr) (loadBase v : Nat) : Prop :=
  p.mapBase loadBase ≤ v ∧ v < p.mapBase loadBase + p.mapLength loadBase

/-- The interval of a segment that gets a run: as many user pages as the run has. -/
structure Phdr.Interval (p : Phdr) (loadBase : Nat) : Prop where
  base : p.mapBase loadBase = p.first loadBase
  last : p.first loadBase + p.pageCount * pageSize = p.last loadBase
  low : p.last loadBase ≤ lowEnd
  nonempty : p.first loadBase < p.last loadBase
  small : p.vaddr + loadBase + p.memsz ≤ lowEnd

theorem Phdr.Interval.lt (h : p.Interval loadBase) : p.vaddr + loadBase < 2 ^ 64 := by
  have hsmall := h.small
  have hlowEnd : lowEnd = 2 ^ 47 := rfl
  omega

theorem Phdr.Interval.mapBase_lt (h : p.Interval loadBase) : p.mapBase loadBase < lowEnd := by
  rw [h.base]
  exact Nat.lt_of_lt_of_le h.nonempty h.low

theorem Phdr.not_empty (hn : 0 < p.pageCount) : ¬ (p.memsz = 0 ∧ p.misalign = 0) := by
  rintro ⟨hm, hv⟩
  rw [Phdr.pageCount, hm, hv] at hn
  exact absurd hn (by decide)

theorem Phdr.interval (hbase : pageSize ∣ loadBase)
    (hlow : ∀ v, p.Covers loadBase v → v < lowEnd) (hne : ¬ (p.memsz = 0 ∧ p.misalign = 0)) :
    p.Interval loadBase := by
  have hlowEnd : lowEnd = 2 ^ 47 := rfl
  have hlt : p.first loadBase < p.last loadBase := by
    unfold Phdr.first Phdr.last Phdr.misalign pageSize at *
    omega
  have hend : p.last loadBase - 1 < lowEnd := hlow _ ⟨by omega, by omega⟩
  have hsmall : p.vaddr + loadBase + p.memsz ≤ lowEnd := by
    unfold Phdr.first Phdr.last pageSize at *
    omega
  have hcount : p.pageCount = (p.memsz + p.misalign + 4095) / 4096 := by
    unfold Phdr.pageCount divRoundup u64 Phdr.misalign pageSize
    omega
  refine ⟨?_, ?_, by omega, hlt, hsmall⟩
  · unfold Phdr.mapBase rangeBase
    rw [u64_of_lt (by omega)]
    rfl
  · rw [hcount]
    unfold Phdr.first Phdr.last Phdr.misalign pageSize at *
    omega

/-- Where a segment is mapped: its interval, and one page more unless it starts at a page. -/
theorem Phdr.Interval.maps_iff (h : p.Interval loadBase) (hbase : pageSize ∣ loadBase) :
    p.Maps loadBase v ↔ p.first loadBase ≤ v ∧
      v < p.last loadBase + if p.misalign = 0 then 0 else pageSize := by
  have hlow := h.low
  have hlast := h.last
  have hlowEnd : lowEnd = 2 ^ 47 := rfl
  obtain ⟨-, hlength⟩ := Phdr.range_eq (p := p) hbase h.lt
    (show 0 + p.pageCount * pageSize ≤ 2 ^ 52 by omega)
  unfold Phdr.Maps
  have hsucc := Nat.add_one_mul p.pageCount pageSize
  rw [h.base, hlength]
  split <;> omega

theorem Phdr.Interval.maps (h : p.Interval loadBase) (hbase : pageSize ∣ loadBase)
    (hv : p.Covers loadBase v) : p.Maps loadBase v := by
  rw [h.maps_iff hbase]
  obtain ⟨hle, hlt⟩ := hv
  refine ⟨hle, ?_⟩
  split <;> omega

theorem Phdr.Interval.maps_aligned (h : p.Interval loadBase) (hbase : pageSize ∣ loadBase)
    (hp : p.misalign = 0) : p.Maps loadBase v ↔ p.Covers loadBase v := by
  rw [h.maps_iff hbase, if_pos hp, Nat.add_zero, Phdr.Covers]

end

/-! ## What the loop has done -/

section

variable {σ : Type} {A : RunAllocator σ} {roots : Nat → Prop} {s s₁ s' : Mmap.State σ} {file : File}
  {contents : Nat → BitVec 8} {pm loadBase : Nat} {runs : List (Phdr × Nat)} {e : Ehdr}

theorem SegmentLoaded.present {p : Phdr} {phys v : Nat}
    (h : SegmentLoaded A roots pm loadBase contents s s₁ p phys) (hpm : roots pm)
    (hlow : p.mapBase loadBase < lowEnd) :
    (p.Maps loadBase v → ¬ Present s.vm pm v) ∧
      (v < lowEnd → (Present s₁.vm pm v ↔ Present s.vm pm v ∨ p.Maps loadBase v)) := by
  obtain ⟨-, habs, hgets⟩ := h.mapped hlow
  refine ⟨fun hv => habs v hv.1 hv.2, fun hv => ?_⟩
  unfold Present
  rw [hgets pm v hpm hv]
  split
  · next hin =>
    exact ⟨fun _ => Or.inr hin.2, fun _ => present_or (ptFlags_present _)⟩
  · next hout =>
    exact ⟨Or.inl, fun hc => hc.resolve_right fun hm => hout ⟨List.mem_singleton_self pm, hm⟩⟩

theorem Loads.present_iff (h : Loads A roots pm loadBase contents s runs s') (hpm : roots pm)
    (hlow : ∀ r ∈ runs, r.1.mapBase loadBase < lowEnd) {v : Nat} (hv : v < lowEnd) :
    Present s'.vm pm v ↔ Present s.vm pm v ∨ ∃ r ∈ runs, r.1.Maps loadBase v := by
  induction h with
  | done s => simp
  | other same _ _ ih => rw [ih hlow, same]
  | segment hl _ ih =>
    have hlow₁ := hlow _ List.mem_cons_self
    rw [ih fun r hr => hlow r (List.mem_cons_of_mem _ hr), (hl.present hpm hlow₁).2 hv, or_assoc]
    simp only [List.mem_cons, exists_eq_or_imp]

theorem Loads.absent (h : Loads A roots pm loadBase contents s runs s') (hpm : roots pm)
    (hlow : ∀ r ∈ runs, r.1.mapBase loadBase < lowEnd) {v : Nat} :
    ∀ r ∈ runs, r.1.Maps loadBase v → ¬ Present s.vm pm v := by
  induction h with
  | done s => exact fun r hr => absurd hr List.not_mem_nil
  | other same _ _ ih =>
    rw [← same]
    exact ih hlow
  | segment hl _ ih =>
    intro r hr hv hp
    have hlow₁ := hlow _ List.mem_cons_self
    rcases List.mem_cons.mp hr with rfl | hr
    · exact (hl.present hpm hlow₁).1 hv hp
    · exact ih (fun r hr => hlow r (List.mem_cons_of_mem _ hr)) r hr hv
        (hl.maintains.present pm v hpm hpm hp)

theorem Loads.apart (h : Loads A roots pm loadBase contents s runs s') (hpm : roots pm)
    (hlow : ∀ r ∈ runs, r.1.mapBase loadBase < lowEnd) :
    runs.Pairwise fun r t => ∀ v, r.1.Maps loadBase v → ¬ t.1.Maps loadBase v := by
  induction h with
  | done s => exact .nil
  | other _ _ _ ih => exact ih hlow
  | segment hl hrest ih =>
    have hlow₁ := hlow _ List.mem_cons_self
    have hlow' := fun r hr => hlow r (List.mem_cons_of_mem _ hr)
    refine .cons (fun t ht v hv hv' => ?_) (ih hlow')
    have hin : v < lowEnd := Nat.lt_of_lt_of_le hv.2 (hl.mapped hlow₁).1.fits
    exact hrest.absent hpm hlow' t ht hv' (((hl.present hpm hlow₁).2 hin).mpr (Or.inr hv))

theorem Loads.apart' (h : Loads A roots pm loadBase contents s runs s') (hpm : roots pm)
    (hlow : ∀ r ∈ runs, r.1.mapBase loadBase < lowEnd) {r t : Phdr × Nat} {v : Nat} (hr : r ∈ runs)
    (ht : t ∈ runs) (hne : r ≠ t) (hv : r.1.Maps loadBase v) : ¬ t.1.Maps loadBase v := by
  have : Std.Symm fun r t : Phdr × Nat => ∀ v, r.1.Maps loadBase v → ¬ t.1.Maps loadBase v :=
    ⟨fun _ _ hab v hb ha => hab v ha hb⟩
  exact (h.apart hpm hlow).forall hr ht hne v hv

theorem Loads.low (h : Loads A roots pm loadBase contents s runs s')
    (hlow : ∀ r ∈ runs, r.1.mapBase loadBase < lowEnd) {v : Nat} :
    ∀ r ∈ runs, r.1.Maps loadBase v → v < lowEnd := by
  induction h with
  | done s => exact fun r hr => absurd hr List.not_mem_nil
  | other _ _ _ ih => exact ih hlow
  | segment hl _ ih =>
    intro r hr hv
    have hlow₁ := hlow _ List.mem_cons_self
    rcases List.mem_cons.mp hr with rfl | hr
    · exact Nat.lt_of_lt_of_le hv.2 (hl.mapped hlow₁).1.fits
    · exact ih (fun r hr => hlow r (List.mem_cons_of_mem _ hr)) r hr hv

theorem Loads.not_inRun (h : Loads A roots pm loadBase contents s runs s') {q : Nat}
    (hq : A.Owned s.vm.pmm q) (ht : ¬ TablePage roots s.vm q) :
    ∀ r ∈ runs, ¬ InRun r.2 r.1.pageCount q := by
  induction h with
  | done s => exact fun r hr => absurd hr List.not_mem_nil
  | other same _ _ ih => exact ih (by rwa [same]) (by rwa [same])
  | segment hl _ ih =>
    intro r hr hin
    rcases List.mem_cons.mp hr with rfl | hr
    · exact hl.new q hin hq
    · obtain ⟨hq', ht'⟩ := hl.maintains.data q hq ht
      exact ih hq' ht' r hr hin

theorem Loads.own (h : Loads A roots pm loadBase contents s runs s') :
    runs.Pairwise fun r t => ∀ q, InRun r.2 r.1.pageCount q → ¬ InRun t.2 t.1.pageCount q := by
  induction h with
  | done s => exact .nil
  | other _ _ _ ih => exact ih
  | segment hl hrest ih =>
    exact .cons (fun t ht q hq => hrest.not_inRun (hl.used q hq).1 (hl.used q hq).2 t ht) ih

/-! ## Segments that start at a page -/

theorem Phdr.Interval.pages {p : Phdr} (h : p.Interval loadBase) : 0 < p.pageCount := by
  have hlast := h.last
  have hlt := h.nonempty
  refine Nat.pos_of_ne_zero fun h0 => ?_
  rw [h0, Nat.zero_mul] at hlast
  omega

theorem Phdr.PageSized.misalign {p : Phdr} (h : p.PageSized) : p.misalign = 0 :=
  Nat.mod_eq_zero_of_dvd h.1

theorem Phdr.Interval.fits_iff {p : Phdr} (h : p.Interval loadBase) (hp : p.misalign = 0) :
    p.Fits ↔ p.filesz ≤ alignUp p.memsz pageSize := by
  have hsmall := h.small
  have hlowEnd : lowEnd = 2 ^ 47 := rfl
  have hround : alignUp p.memsz pageSize = p.pageCount * pageSize := by
    unfold Phdr.pageCount alignUp divRoundup u64 pageSize
    omega
  rw [Phdr.Fits, hp, Nat.zero_add, hround]

/-- **A segment that starts at a page, with memory and pages that are free**, is loaded. -/
theorem loadSegment_succeeds {p : Phdr} (hA : A.Sized) (h : Ready A.toPageAllocator roots s)
    (hpm : roots pm) (hfile : file.Exact contents) (hbase : pageSize ∣ loadBase)
    (hp : p.misalign = 0) (hi : p.Interval loadBase)
    (hfree : ∀ v, p.Covers loadBase v → ¬ Present s.vm pm v)
    (hheap : ∀ id, s.nextId ≤ id → id < s.nextId + 3 → s.heapOk id = true)
    (hne : (A.allocRun s.vm.pmm p.pageCount).1 ≠ 0)
    (hsup : A.Supplies (A.allocRun s.vm.pmm p.pageCount).2 (1 + 6 * p.pageCount)) :
    ∃ s₁, loadSegment A s (some pm) file loadBase p = some (true, s₁) ∧
      s₁.nextId = s.nextId + 3 ∧ s₁.heapOk = s.heapOk ∧
      A.Took (A.allocRun s.vm.pmm p.pageCount).2 s₁.vm.pmm (1 + 6 * p.pageCount) := by
  have hn := hi.pages
  have hlow := hi.low
  have hlast := hi.last
  have halloc : pmmAllocRun A s p.pageCount = (some (A.allocRun s.vm.pmm p.pageCount).1,
      (pmmAllocRun A s p.pageCount).2) := by
    simp only [pmmAllocRun, hne, if_false]
  obtain ⟨-, -, hend⟩ := pmmAllocRun_placed hA.toPlacing hn h.wf.alloc halloc
  obtain ⟨-, -, hext, -⟩ := pmmAllocRun_ext hA.toLawful hn h.wf halloc
  have hkept := pmmAllocRun_maintains hA.toLawful hn h halloc
  have hpmm : (pmmAllocRun A s p.pageCount).2.vm.pmm = (A.allocRun s.vm.pmm p.pageCount).2 ∧
      (pmmAllocRun A s p.pageCount).2.nextId = s.nextId ∧
      (pmmAllocRun A s p.pageCount).2.heapOk = s.heapOk := by
    simp only [pmmAllocRun, hne, if_false, and_self]
  obtain ⟨hpmm, hnext, hheapOk⟩ := hpmm
  have hfirst : p.first loadBase = p.vaddr + loadBase := by
    rw [← hi.base, ← (Phdr.range_eq hbase hi.lt hend).1, hp, Nat.add_zero]
  have hwin : LowPages (p.vaddr + loadBase) (p.pageCount * pageSize) := by
    rw [← hfirst]
    exact ⟨Nat.dvd_mul_left _ _, Nat.dvd_mul_left _ _, hlast ▸ hlow⟩
  obtain ⟨s₂, hmap, hnext₂, hheap₂, htook⟩ := mmapRange_maps (k := p.pageCount)
    (A.allocRun s.vm.pmm p.pageCount).1 p.prot anonymous hkept.ready hpm hwin rfl
    ⟨by rw [hnext, hheapOk]; exact hheap, by rw [hpmm]; exact hsup⟩ fun v hv hv' hpres => by
      unfold Present at hpres
      rw [hext.pte_eq hpm] at hpres
      exact hfree v ⟨hfirst ▸ hv, by omega⟩ hpres
  unfold loadSegment
  simp only [← Phdr.misalign.eq_def, ← Phdr.pageCount.eq_def]
  rw [halloc]
  simp only
  rw [u64_of_placed hend, u64_of_lt hi.lt, hmap]
  simp only [readInto, hfile p.offset p.filesz]
  exact ⟨_, rfl, by rw [← hnext, ← hnext₂], by rw [← hheapOk, ← hheap₂], by rw [← hpmm]; exact htook⟩

variable (A pm loadBase) in
theorem loadPhdr_other {p : Phdr} (acc : Loaded) (hfile : file.Exact contents)
    (hp : p.type ≠ ptLoad) (hheap : s.heapOk s.nextId = true) : ∃ acc' s₁,
      loadPhdr A s (some pm) file loadBase p acc = some (some acc', s₁) ∧ s₁.vm = s.vm ∧
      s.nextId ≤ s₁.nextId ∧ s₁.nextId ≤ s.nextId + 1 ∧ s₁.heapOk = s.heapOk := by
  unfold loadPhdr
  rw [if_neg hp]
  split
  · exact ⟨_, s, rfl, rfl, Nat.le_refl _, Nat.le_succ _, rfl⟩
  · split
    · rw [heapAlloc_ok hheap, hfile]
      exact ⟨_, _, rfl, rfl, Nat.le_succ _, Nat.le_refl _, rfl⟩
    · exact ⟨_, s, rfl, rfl, Nat.le_refl _, Nat.le_succ _, rfl⟩

/-- What is left of a file can be loaded: `k` program headers from `i` on. -/
structure Rest (A : RunAllocator σ) (s : Mmap.State σ) (pm : Nat) (file : File) (e : Ehdr)
    (loadBase i k : Nat) : Prop where
  headers : ∀ j, i ≤ j → j < i + k → file.phdr (u64 (e.phoff + j * e.phentsize)) ≠ none
  segments : ∀ p ∈ file.segmentsFrom e i k, p.Fits ∧ p.misalign = 0 ∧ p.Interval loadBase
  apart : (file.segmentsFrom e i k).Pairwise fun p q =>
    ∀ v, p.Covers loadBase v → ¬ q.Covers loadBase v
  free : ∀ p ∈ file.segmentsFrom e i k, ∀ v, p.Covers loadBase v → ¬ Present s.vm pm v
  heap : ∀ id, s.nextId ≤ id → id < s.nextId + 3 * k → s.heapOk id = true
  pages : Provides A s.vm.pmm ((file.segmentsFrom e i k).map Phdr.pageCount)

theorem Rest.turn {p : Phdr} {i k : Nat} (acc : Loaded) (hr : Rest A s pm file e loadBase i (k + 1))
    (hp : file.phdr (u64 (e.phoff + i * e.phentsize)) = some p) (hA : A.Sized)
    (h : Ready A.toPageAllocator roots s) (hpm : roots pm) (hfile : file.Exact contents)
    (hbase : pageSize ∣ loadBase) : ∃ acc' s₁,
      loadPhdr A s (some pm) file loadBase p acc = some (some acc', s₁) ∧
      Ready A.toPageAllocator roots s₁ ∧ Rest A s₁ pm file e loadBase (i + 1) k := by
  obtain ⟨hheaders, hsegs, hapart, hfree, hheap, hpages⟩ := hr
  have hheaders' : ∀ j, i + 1 ≤ j → j < i + 1 + k →
      file.phdr (u64 (e.phoff + j * e.phentsize)) ≠ none :=
    fun j hj hj' => hheaders j (by omega) (by omega)
  rw [segmentsFrom_succ hp] at hsegs hapart hfree hpages
  by_cases htype : p.type = ptLoad
  · rw [if_pos htype, List.singleton_append] at hsegs hapart hfree hpages
    obtain ⟨hfits, hmis, hi⟩ := hsegs p List.mem_cons_self
    obtain ⟨hmem, hrest⟩ := hpages
    obtain ⟨hne, hsup⟩ := hmem hi.pages
    obtain ⟨s₁, hseg, hnext, hheapOk, htook⟩ := loadSegment_succeeds hA h hpm hfile hbase hmis hi
      (hfree p List.mem_cons_self) (fun id hid hid' => hheap id hid (by omega)) hne hsup
    obtain ⟨phys, hloaded⟩ := loadSegment_loaded hA h hpm hfile hfits hseg
    have hlow := hi.mapBase_lt
    refine ⟨acc, s₁, ?_, hloaded.maintains.ready, hheaders',
      fun q hq => hsegs q (List.mem_cons_of_mem _ hq), hapart.of_cons, fun q hq v hv hpres => ?_,
      fun id hid hid' => ?_, hrest _ htook⟩
    · rw [loadPhdr, if_pos htype, hseg]
      rfl
    · -- the page belongs to the segment that has been loaded, or it was mapped before
      have hv' : v < lowEnd :=
        Nat.lt_of_lt_of_le hv.2 (hsegs q (List.mem_cons_of_mem _ hq)).2.2.low
      rcases ((hloaded.present hpm hlow).2 hv').mp hpres with hold | hnew
      · exact hfree q (List.mem_cons_of_mem _ hq) v hv hold
      · exact (List.pairwise_cons.mp hapart).1 q hq v ((hi.maps_aligned hbase hmis).mp hnew) hv
    · rw [hheapOk]
      exact hheap id (by omega) (by omega)
  · rw [if_neg htype, List.nil_append] at hsegs hapart hfree hpages
    obtain ⟨acc', s₁, hturn, hvm, hle, hle', hheapOk⟩ := loadPhdr_other A pm loadBase acc hfile htype (hheap s.nextId (Nat.le_refl _) (by omega))
    refine ⟨acc', s₁, hturn, ?_, hheaders', hsegs, hapart, ?_, fun id hid hid' => ?_, ?_⟩
    · rcases loadPhdr_cases hturn with ⟨hc, -⟩ | ⟨-, rfl | rfl⟩
      · exact absurd hc htype
      · exact h
      · exact (h.heapAlloc rfl).ready
    · rw [hvm]
      exact hfree
    · rw [hheapOk]
      exact hheap id (by omega) (by omega)
    · rw [hvm]
      exact hpages

theorem Rest.loads (hA : A.Sized) (hpm : roots pm) (hfile : file.Exact contents)
    (hbase : pageSize ∣ loadBase) : ∀ {k i : Nat} {acc : Loaded} {s : Mmap.State σ},
    Ready A.toPageAllocator roots s → Rest A s pm file e loadBase i k →
    ∃ r s', loadPhdrs A (some pm) file e loadBase k i acc s = some (some r, s')
  | 0, i, acc, s, _, _ => ⟨acc, s, rfl⟩
  | k + 1, i, acc, s, h, hr => by
    obtain ⟨p, hp⟩ := Option.ne_none_iff_exists'.mp
      (hr.headers i (Nat.le_refl i) (Nat.lt_add_of_pos_right (Nat.succ_pos k)))
    obtain ⟨acc', s₁, hturn, h₁, hr₁⟩ := hr.turn acc hp hA h hpm hfile hbase
    rw [loadPhdrs, hp]
    simp only [hturn]
    exact Rest.loads hA hpm hfile hbase h₁ hr₁

/-! ## When a file is loaded as it is meant to be -/

theorem segmentRuns_pages {pagemap : Option Nat} (hA : A.Sized) : ∀ {k i : Nat} {acc : Loaded}
    {s : Mmap.State σ}, ∀ r ∈ segmentRuns A pagemap file e loadBase k i acc s, 0 < r.1.pageCount
  | 0, _, _, _, r, hr => absurd hr List.not_mem_nil
  | k + 1, i, acc, s, r, hr => by
    rw [segmentRuns] at hr
    split at hr
    · exact absurd hr List.not_mem_nil
    · next p hp =>
      rcases List.mem_append.mp hr with hrun | hrest
      · unfold phdrRun at hrun
        split at hrun
        · obtain ⟨phys, hphys, rfl⟩ := List.mem_map.mp hrun
          refine Nat.pos_of_ne_zero fun h0 => ?_
          simp only [h0, pmmAllocRun, hA.none_run, if_true] at hphys
          simp at hphys
        · exact absurd hrun List.not_mem_nil
      · split at hrest
        · exact segmentRuns_pages hA r hrest
        · exact absurd hrest List.not_mem_nil

theorem elfLoad_loads {r : Loaded} (hA : A.Sized) (h : Ready A.toPageAllocator roots s)
    (hpm : roots pm) (hfile : file.Exact contents) (hheader : file.header = some e)
    (hfits : ∀ p ∈ file.segments e, p.Fits)
    (hload : elfLoad A s (some pm) file loadBase = some (some r, s')) :
    Loads A roots pm loadBase contents s (elfRuns A s pm file e loadBase) s' ∧
      (elfRuns A s pm file e loadBase).map Prod.fst = file.segments e := by
  obtain ⟨-, acc, hloop⟩ := elfLoad_true hheader hload
  exact loadPhdrs_loads hA hpm hfile h hfits hloop

theorem Loadable.interval (hd : Loadable A s pm file e loadBase) (hbase : pageSize ∣ loadBase)
    {p : Phdr} (hp : p ∈ file.segments e) (hne : ¬ (p.memsz = 0 ∧ p.misalign = 0)) :
    p.Interval loadBase :=
  Phdr.interval hbase (fun v hv => (hd.free p hp v hv).1) hne

/-- **Only if**: a file that is loaded as it is meant to be has no other segments. -/
theorem LoadsPages.pageSized (hA : A.Sized) (h : Ready A.toPageAllocator roots s) (hpm : roots pm)
    (hfile : file.Exact contents) (hbase : pageSize ∣ loadBase)
    (hd : Loadable A s pm file e loadBase) (hl : LoadsPages A s pm file e loadBase) :
    ∀ p ∈ file.segments e, p.PageSized := by
  obtain ⟨r, s', hload, hto⟩ := hl
  have hrun : ∀ p ∈ file.segments e, ∃ phys, (p, phys) ∈ elfRuns A s pm file e loadBase := by
    intro p hp
    rw [← hto.runs] at hp
    obtain ⟨⟨q, phys⟩, hq, rfl⟩ := List.mem_map.mp hp
    exact ⟨phys, hq⟩
  have hne : ∀ p ∈ file.segments e, ¬ (p.memsz = 0 ∧ p.misalign = 0) := fun p hp => by
    obtain ⟨phys, hq⟩ := hrun p hp
    exact Phdr.not_empty (segmentRuns_pages hA (p, phys) hq)
  have hint : ∀ p ∈ file.segments e, p.Interval loadBase := fun p hp =>
    hd.interval hbase hp (hne p hp)
  have hfits : ∀ p ∈ file.segments e, p.Fits := by
    intro p hp
    obtain ⟨phys, hq⟩ := hrun p hp
    have hreads := hto.reads _ hq
    have hpages := Nat.le_mul_of_pos_left pageSize (hint p hp).pages
    have hmis : p.misalign < pageSize := Nat.mod_lt _ (by decide)
    unfold Phdr.Fits
    rcases Nat.eq_zero_or_pos p.filesz with h0 | hpos
    · omega
    · have := hreads (p.filesz - 1) (by simp only; omega)
      simp only at this
      omega
  obtain ⟨hloads, hmap⟩ := elfLoad_loads hA h hpm hfile hd.header hfits hload
  have hmem : ∀ r ∈ elfRuns A s pm file e loadBase, r.1 ∈ file.segments e := fun r hr =>
    hmap ▸ List.mem_map_of_mem hr
  have hlow : ∀ r ∈ elfRuns A s pm file e loadBase, r.1.mapBase loadBase < lowEnd :=
    fun r hr => (hint r.1 (hmem r hr)).mapBase_lt
  intro p hp
  obtain ⟨phys, hq⟩ := hrun p hp
  have hi := hint p hp
  -- the page behind the interval is mapped as well
  have hmis : p.misalign = 0 := by
    by_contra hmis
    have hextra : p.Maps loadBase (p.last loadBase) := by
      rw [hi.maps_iff hbase, if_neg hmis]
      exact ⟨Nat.le_of_lt hi.nonempty, Nat.lt_add_of_pos_right (by decide)⟩
    have hin := hloads.low hlow _ hq hextra
    have hpres := (hloads.present_iff hpm hlow hin).mpr (Or.inr ⟨_, hq, hextra⟩)
    rcases (hto.mapped _ hin).mp hpres with hold | ⟨t, ht, hcov⟩
    · exact hloads.absent hpm hlow _ hq hextra hold
    · obtain ⟨phys', hq'⟩ := hrun t ht
      have hmaps := (hint t ht).maps hbase hcov
      have hsame : (p, phys) = (t, phys') := by
        by_contra hdiff
        exact hloads.apart' hpm hlow hq hq' hdiff hextra hmaps
      obtain ⟨rfl, -⟩ := Prod.mk.inj hsame
      exact absurd hcov.2 (Nat.lt_irrefl _)
  refine ⟨Nat.dvd_of_mod_eq_zero hmis, Nat.pos_of_ne_zero fun h0 => hne p hp ⟨h0, hmis⟩, ?_⟩
  exact (hi.fits_iff hmis).mp (hfits p hp)

/-- **If**: segments that start at a page and fit are loaded as they are meant to be. -/
theorem Loadable.loadsPages (hd : Loadable A s pm file e loadBase) (hA : A.Sized)
    (h : Ready A.toPageAllocator roots s) (hpm : roots pm) (hfile : file.Exact contents)
    (hbase : pageSize ∣ loadBase) (hsegs : ∀ p ∈ file.segments e, p.PageSized) :
    LoadsPages A s pm file e loadBase := by
  have hint : ∀ p ∈ file.segments e, p.Interval loadBase := fun p hp =>
    hd.interval hbase hp fun hc => Nat.ne_of_gt (hsegs p hp).2.1 hc.1
  have hfits : ∀ p ∈ file.segments e, p.Fits := fun p hp =>
    ((hint p hp).fits_iff (hsegs p hp).misalign).mpr (hsegs p hp).2.2
  have hrest : Rest A s pm file e loadBase 0 e.phnum :=
    ⟨fun j _ hj => hd.headers j (by omega), fun p hp => ⟨hfits p hp, (hsegs p hp).misalign, hint p hp⟩,
      hd.apart, fun p hp v hv => (hd.free p hp v hv).2, hd.heap, hd.pages⟩
  obtain ⟨acc, s', hloop⟩ : ∃ acc s', loadPhdrs A (some pm) file e loadBase e.phnum 0
      (⟨0, 0, 0, 0⟩, none) s = some (some acc, s') := Rest.loads hA hpm hfile hbase h hrest
  obtain ⟨r, hload⟩ : ∃ r, elfLoad A s (some pm) file loadBase = some (some r, s') := by
    unfold elfLoad
    rw [hd.header]
    simp only [hd.executable, if_true, hloop, Option.map_some]
    exact ⟨_, rfl⟩
  obtain ⟨hloads, hmap⟩ := elfLoad_loads hA h hpm hfile hd.header hfits hload
  have hmem : ∀ r ∈ elfRuns A s pm file e loadBase, r.1 ∈ file.segments e := fun r hr =>
    hmap ▸ List.mem_map_of_mem hr
  have hlow : ∀ r ∈ elfRuns A s pm file e loadBase, r.1.mapBase loadBase < lowEnd :=
    fun r hr => (hint r.1 (hmem r hr)).mapBase_lt
  refine ⟨r, s', hload, hmap, hloads.own, fun v hv => ?_, fun r hr v hv => ?_, fun r hr k hk => ?_⟩
  · rw [hloads.present_iff hpm hlow hv, ← hmap]
    simp only [List.mem_map, exists_exists_and_eq_and]
    refine or_congr Iff.rfl (exists_congr fun r => and_congr_right fun hr => ?_)
    exact (hint r.1 (hmem r hr)).maps_aligned hbase (hsegs r.1 (hmem r hr)).misalign
  · have hi := hint r.1 (hmem r hr)
    have hlast := hi.last
    have hle := hv.1
    have hlt := hv.2
    have hk : v - r.1.first loadBase < r.1.pageCount * pageSize := by omega
    obtain ⟨haddr, hentry⟩ := ((hloads.placed hpm r hr).run (hlow r hr)).entry_at hk
    rw [hi.base, Nat.add_sub_cancel' hv.1] at hentry
    rw [hentry, pteGetAddr_or haddr (ptFlags_pageFlags _).apart]
    exact ⟨rfl, _, Nat.div_lt_of_lt_mul (by rwa [Nat.mul_comm]), rfl⟩
  · have := hfits r.1 (hmem r hr)
    unfold Phdr.Fits at this
    omega

/--
**Which files are loaded as they are meant to be**: of those with valid headers, whose segments are
apart and lie in pages that are free, the ones whose segments start at a page, have a byte, and have no
more bytes than their pages can hold.
-/
theorem elf_load_pages_iff (hA : A.Sized) (h : Ready A.toPageAllocator roots s) (hpm : roots pm)
    (hfile : file.Exact contents) (hbase : pageSize ∣ loadBase)
    (hd : Loadable A s pm file e loadBase) :
    LoadsPages A s pm file e loadBase ↔ ∀ p ∈ file.segments e, p.PageSized :=
  ⟨LoadsPages.pageSized hA h hpm hfile hbase hd, hd.loadsPages hA h hpm hfile hbase⟩

end

/-! ## Two programs -/

theorem bootProcess_ready : Ready Pmm.allocator bootRoots bootProcess :=
  ⟨bootState_wf, Or.inl rfl, fun _ _ => rfl⟩

theorem fileOf_phdr (p : Phdr) :
    (fileOf [p]).phdr (u64 ((ehdrOf [p]).phoff + 0 * (ehdrOf [p]).phentsize)) = some p := by
  show (if 56 ∣ 64 - 64 then [p][(64 - 64) / 56]? else none) = some p
  rw [if_pos (by decide)]
  rfl

theorem fileOf_segments {p : Phdr} (h : p.type = ptLoad) :
    (fileOf [p]).segments (ehdrOf [p]) = [p] := by
  show (fileOf [p]).segmentsFrom (ehdrOf [p]) 0 (0 + 1) = [p]
  rw [segmentsFrom_succ (fileOf_phdr p), if_pos h]
  rfl

theorem fileOf_loadable {p : Phdr} (h : p.type = ptLoad) (hlow : p.last 0 ≤ lowEnd)
    (hmem : (Pmm.runs.allocRun bootPmm p.pageCount).1 ≠ 0 ∧
      Pmm.allocator.Supplies (Pmm.runs.allocRun bootPmm p.pageCount).2 (1 + 6 * p.pageCount)) :
    Loadable Pmm.runs bootProcess 0x2000 (fileOf [p]) (ehdrOf [p]) 0 where
  header := rfl
  executable := by
    show (ehdrOf [p]).executable = true
    rfl
  headers i hi := by
    obtain rfl : i = 0 := Nat.lt_one_iff.mp hi
    rw [fileOf_phdr]
    exact Option.some_ne_none p
  apart := by
    rw [fileOf_segments h]
    exact List.pairwise_singleton _ _
  free q hq v hv := by
    rw [fileOf_segments h, List.mem_singleton] at hq
    subst hq
    have hin : v < lowEnd := Nat.lt_of_lt_of_le hv.2 hlow
    exact ⟨hin, bootProcess_empty v hin⟩
  heap _ _ _ := rfl
  pages := by
    rw [fileOf_segments h]
    exact ⟨fun _ => hmem, fun _ _ => trivial⟩

/-- A program that starts at a page. -/
theorem elf_load_pages_fileOf : LoadsPages Pmm.runs bootProcess 0x2000
    (fileOf [dataSegment 0x400000 8 0x1800]) (ehdrOf [dataSegment 0x400000 8 0x1800]) 0 := by
  have hd : Loadable Pmm.runs bootProcess 0x2000 (fileOf [dataSegment 0x400000 8 0x1800])
      (ehdrOf [dataSegment 0x400000 8 0x1800]) 0 :=
    fileOf_loadable rfl (by decide) (by decide +kernel)
  exact (elf_load_pages_iff Pmm.runs_sized bootProcess_ready (Or.inr rfl) (fileOf_exact _)
    (Nat.dvd_zero _) hd).mpr (by decide)

/-- A program that does not: its interval is one page, and two are mapped. -/
theorem misaligned_maps_more :
    Loadable Pmm.runs bootProcess 0x2000 (fileOf [dataSegment 0x400123 8 24])
      (ehdrOf [dataSegment 0x400123 8 24]) 0 ∧
    (dataSegment 0x400123 8 24).last 0 = 0x401000 ∧
    (∃ r s', elfLoad Pmm.runs bootProcess (some 0x2000) (fileOf [dataSegment 0x400123 8 24]) 0
      = some (some r, s') ∧ Present s'.vm 0x2000 0x401000) ∧
    ¬ LoadsPages Pmm.runs bootProcess 0x2000 (fileOf [dataSegment 0x400123 8 24])
      (ehdrOf [dataSegment 0x400123 8 24]) 0 := by
  have hd : Loadable Pmm.runs bootProcess 0x2000 (fileOf [dataSegment 0x400123 8 24])
      (ehdrOf [dataSegment 0x400123 8 24]) 0 :=
    fileOf_loadable rfl (by decide) (by decide +kernel)
  have hrun : (elfLoad Pmm.runs bootProcess (some 0x2000) (fileOf [dataSegment 0x400123 8 24]) 0).map
      (fun r => (r.1.isSome, decide (Present r.2.vm 0x2000 0x401000))) = some (true, true) := by
    decide +kernel
  obtain ⟨⟨r, s'⟩, hload, he⟩ := Option.map_eq_some_iff.mp hrun
  obtain ⟨hr, hpres⟩ := Prod.mk.inj he
  obtain ⟨r, rfl⟩ := Option.isSome_iff_exists.mp hr
  refine ⟨hd, by decide, ⟨r, s', hload, of_decide_eq_true hpres⟩, fun hc => ?_⟩
  have hsized := hc.pageSized Pmm.runs_sized bootProcess_ready (Or.inr rfl) (fileOf_exact _)
    (Nat.dvd_zero _) hd
  exact absurd (hsized (dataSegment 0x400123 8 24) (by decide)) (by decide)

end Lyre.Elf
