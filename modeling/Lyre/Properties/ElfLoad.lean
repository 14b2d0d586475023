import Lyre.Lib.Elf
import Lyre.Spec.UserMemory

/-!
# Loaded segments

A segment gets a run of pages from `pmm_alloc`, which `mmap_range` maps, and its bytes are read into
the run through the kernel's own view of the memory. `SegmentLoaded` says what this comes to, and
`Loads` follows the loop over the program headers from segment to segment.

User code finds the bytes of the file and zeros behind them, with the permissions of the segment
(`elf_load_contents`), as long as no segment of the file has more bytes than its pages can hold: what
such a segment has too many goes to the pages behind, whoever has them.
-/

namespace Lyre.Elf

open Vmm Mmap Infra Infra.Rows

/-! ## Segments -/

def Phdr.misalign (p : Phdr) : Nat := p.vaddr % pageSize

def Phdr.pageCount (p : Phdr) : Nat := divRoundup (u64 (p.memsz + p.misalign)) pageSize

/-- The bytes of the file end in the pages that the segment gets. -/
def Phdr.Fits (p : Phdr) : Prop := p.misalign + p.filesz ≤ p.pageCount * pageSize

instance (p : Phdr) : Decidable p.Fits := inferInstanceAs (Decidable (_ ≤ _))

/-- The interval that `mmap_range` maps for a segment. -/
def Phdr.mapBase (p : Phdr) (loadBase : Nat) : Nat := rangeBase (u64 (p.vaddr + loadBase))

def Phdr.mapLength (p : Phdr) (loadBase : Nat) : Nat :=
  rangeLength (u64 (p.vaddr + loadBase)) (p.pageCount * pageSize)

/-- The bytes in the pages of a segment. -/
def Phdr.image (p : Phdr) (contents : Nat → BitVec 8) (k : Nat) : BitVec 8 :=
  if p.misalign ≤ k ∧ k < p.misalign + p.filesz then contents (p.offset + (k - p.misalign)) else 0

/-- `read` returns exactly the bytes that it is asked for. -/
def File.Exact (file : File) (contents : Nat → BitVec 8) : Prop :=
  ∀ offset n, file.read offset n = some (n, fun k => contents (offset + k))

/-- The segments among `k` program headers from `i` on. -/
def File.segmentsFrom (file : File) (h : Ehdr) (i k : Nat) : List Phdr :=
  ((List.range' i k).filterMap fun i => file.phdr (u64 (h.phoff + i * h.phentsize))).filter
    fun p => p.type = ptLoad

/-- The segments of a file, in the order of its program headers. -/
def File.segments (file : File) (h : Ehdr) : List Phdr := file.segmentsFrom h 0 h.phnum

theorem u64_of_placed {phys n : Nat} (h : phys + n * pageSize ≤ 2 ^ 52) :
    u64 (n * pageSize) = n * pageSize := u64_of_lt (by omega)

section

variable {σ : Type} {A : RunAllocator σ} {roots : Nat → Prop} {s s₁ s' : Mmap.State σ} {file : File}
  {contents : Nat → BitVec 8} {pm loadBase phys : Nat} {p : Phdr}

/-- What loading a segment has done. -/
structure SegmentLoaded (A : RunAllocator σ) (roots : Nat → Prop) (pm loadBase : Nat)
    (contents : Nat → BitVec 8) (s s' : Mmap.State σ) (p : Phdr) (phys : Nat) : Prop where
  pages : 0 < p.pageCount
  alloc : (pmmAllocRun A s p.pageCount).1 = some phys
  maintains : Maintains A.toPageAllocator roots roots s s'
  dvd : pageSize ∣ phys
  fits : phys + p.pageCount * pageSize ≤ 2 ^ 52
  new : ∀ q, InRun phys p.pageCount q → ¬ A.Owned s.vm.pmm q
  used : ∀ q, InRun phys p.pageCount q → A.Owned s'.vm.pmm q ∧ ¬ TablePage roots s'.vm q
  holds : ∀ k < p.pageCount * pageSize,
    bytes pageSize s'.vm.mem (phys + k) = p.image contents k
  mapped : p.mapBase loadBase < lowEnd →
    LowPages (p.mapBase loadBase) (p.mapLength loadBase) ∧
    (∀ v, p.mapBase loadBase ≤ v → v < p.mapBase loadBase + p.mapLength loadBase →
      ¬ Present s.vm pm v) ∧
    Gets roots [pm] s.vm s'.vm (p.mapBase loadBase) (p.mapBase loadBase + p.mapLength loadBase)
      (rangeEntry (p.mapBase loadBase) phys p.prot)

theorem store_run {mem : Mem} {n a count t : Nat} {f : Nat → BitVec 8} (hphys : pageSize ∣ phys)
    (ha : phys ≤ a) (hcount : a + count ≤ phys + n * pageSize) (ht : ¬ InRun phys n t) (i : Nat) :
    store pageSize mem a count f t i = mem t i := by
  refine store_row (by decide) fun hdvd => ?_
  rcases inRun_or_apart (n := n) hphys hdvd with hin | hlo | hhi
  · exact absurd hin ht
  · exact Or.inl (Nat.le_trans hlo ha)
  · exact Or.inr (Nat.le_trans hcount hhi)

theorem inRun_row {n k : Nat} (hphys : pageSize ∣ phys) (hk : k < n * pageSize) :
    InRun phys n ((phys + k) / pageSize * pageSize) := by
  obtain ⟨q, rfl⟩ := hphys
  refine ⟨k / pageSize, Nat.div_lt_of_lt_mul (by rwa [Nat.mul_comm]), ?_⟩
  rw [Nat.mul_add_div (by decide), Nat.add_mul, Nat.mul_comm pageSize]

/-- **Loading a segment** whose bytes fit its pages. -/
theorem loadSegment_loaded (hA : A.Sized) (h : Ready A.toPageAllocator roots s) (hpm : roots pm)
    (hfile : file.Exact contents) (hfits : p.Fits)
    (hl : loadSegment A s (some pm) file loadBase p = some (true, s')) :
    ∃ phys, SegmentLoaded A roots pm loadBase contents s s' p phys := by
  unfold loadSegment at hl
  simp only [← Phdr.misalign.eq_def, ← Phdr.pageCount.eq_def] at hl
  split at hl
  · simp at hl
  · next phys s₁ halloc =>
    have hn : 0 < p.pageCount := by
      refine Nat.pos_of_ne_zero fun h0 => ?_
      simp only [h0, pmmAllocRun, hA.none_run, if_true] at halloc
      simp at halloc
    obtain ⟨-, hdvd, hend⟩ := pmmAllocRun_placed hA.toPlacing hn h.wf.alloc halloc
    have hnew := pmmAllocRun_new hA.toLawful hn h.wf.alloc halloc
    obtain ⟨⟨vm₁, rfl⟩, -, hext, hrun⟩ := pmmAllocRun_ext hA.toLawful hn h.wf halloc
    have hkept := pmmAllocRun_maintains hA.toLawful hn h halloc
    rw [u64_of_placed hend] at hl
    split at hl
    · simp at hl
    · simp at hl
    · next s₂ hmap =>
      have hmaps := mmapRange_maintains hkept.ready hpm hmap
      have hused : ∀ q, InRun phys p.pageCount q →
          A.Owned s₂.vm.pmm q ∧ ¬ TablePage roots s₂.vm q :=
        fun q hq => hmaps.data q (hrun phys rfl q hq).1 (hrun phys rfl q hq).2
      have hzero : ∀ q, InRun phys p.pageCount q → ∀ i, s₂.vm.mem q i = 0 := fun q hq i => by
        rw [hmaps.contents q (hrun phys rfl q hq).1 (hrun phys rfl q hq).2]
        obtain ⟨k, hk, rfl⟩ := hq
        exact pmmAllocRun_zero halloc (Nat.le_add_right _ _)
          (Nat.add_lt_add_left (Nat.mul_lt_mul_of_pos_right hk (by decide)) _) i
      rw [readInto, hfile] at hl
      obtain ⟨-, rfl⟩ := Prod.mk.inj (Option.some.inj hl)
      have hrows : ∀ t, ¬ InRun phys p.pageCount t → ∀ i,
          store pageSize s₂.vm.mem (phys + p.misalign) p.filesz (fun k => contents (p.offset + k)) t i
            = s₂.vm.mem t i :=
        fun t ht => store_run hdvd (Nat.le_add_right _ _)
          (by rw [Nat.add_assoc]; exact Nat.add_le_add_left hfits phys) ht
      have htables : ∀ t, TablePage roots s₂.vm t → ∀ i,
          store pageSize s₂.vm.mem (phys + p.misalign) p.filesz (fun k => contents (p.offset + k)) t i
            = s₂.vm.mem t i :=
        fun t ht => hrows t fun hin => (hused t hin).2 ht
      refine ⟨phys, hn, by rw [halloc], (hkept.trans hmaps fun _ hr _ => hr).write_run hnew
        (fun q hq => (hused q hq).2) hrows, hdvd, hend, hnew, fun q hq => ⟨(hused q hq).1, fun ht =>
          (hused q hq).2 ((Radix.isTable_congr htables).mp ht)⟩, fun k hk => ?_, fun hlow => ?_⟩
      · refine (congrFun (bytes_store (by decide) (by decide)) (phys + k)).trans ?_
        rw [Bytes.put, Phdr.image, bytes_zero (hzero _ (inRun_row hdvd hk)), Nat.add_assoc,
          Nat.add_sub_add_left]
        simp only [Nat.add_le_add_iff_left, Nat.add_lt_add_iff_left]
      · have hlength : p.mapLength loadBase ≤ 2 ^ 60 := by
          unfold Phdr.mapLength rangeLength rangeBase alignDown alignUp divRoundup u64 pageSize at *
          omega
        have hwin := mmapRange_low hkept.ready hpm hlow hlength hmap
        obtain ⟨habs, hgets⟩ := mmapRange_gets hkept.ready hpm hwin hmap
        refine ⟨hwin, fun v hv hv' hp => habs v hv hv' (hkept.present pm v hpm hpm hp),
          fun r v hr hv => ?_⟩
        have hold : pte vm₁ r v = pte s.vm r v := hext.pte_eq hr
        rw [← hold]
        exact (pte_congr hr htables).trans (hgets r v hr hv)

theorem Phdr.range_eq (hbase : pageSize ∣ loadBase) (hlt : p.vaddr + loadBase < 2 ^ 64)
    (hend : phys + p.pageCount * pageSize ≤ 2 ^ 52) :
    p.mapBase loadBase + p.misalign = p.vaddr + loadBase ∧ p.mapLength loadBase =
      if p.misalign = 0 then p.pageCount * pageSize else (p.pageCount + 1) * pageSize := by
  unfold Phdr.mapBase Phdr.mapLength Phdr.misalign rangeLength rangeBase
  rw [u64_of_lt hlt]
  unfold alignDown alignUp divRoundup u64
  generalize p.pageCount = n at *
  unfold pageSize at *
  refine ⟨by omega, ?_⟩
  split <;> omega

end

/-! ## The loop over the program headers -/

section

variable {σ : Type} (A : RunAllocator σ)

/-- The run that `pmm_alloc` returns for a program header. -/
def phdrRun (s : Mmap.State σ) (p : Phdr) : List (Phdr × Nat) :=
  if p.type = ptLoad then (pmmAllocRun A s p.pageCount).1.toList.map fun phys => (p, phys) else []

/-- The runs that `pmm_alloc` returns to the segments, in the order in which it is called. -/
def segmentRuns (pagemap : Option Nat) (file : File) (h : Ehdr) (loadBase : Nat) :
    Nat → Nat → Loaded → Mmap.State σ → List (Phdr × Nat)
  | 0, _, _, _ => []
  | k + 1, i, acc, s =>
    match file.phdr (u64 (h.phoff + i * h.phentsize)) with
    | none => []
    | some phdr =>
      phdrRun A s phdr ++
        match loadPhdr A s pagemap file loadBase phdr acc with
        | some (some acc, s) => segmentRuns pagemap file h loadBase k (i + 1) acc s
        | _ => []

/-- From one state to another, the segments have been loaded one after the other, each to its run. -/
inductive Loads (roots : Nat → Prop) (pm loadBase : Nat) (contents : Nat → BitVec 8) :
    Mmap.State σ → List (Phdr × Nat) → Mmap.State σ → Prop
  | done (s : Mmap.State σ) : Loads roots pm loadBase contents s [] s
  | other {s s₁ s' : Mmap.State σ} {runs : List (Phdr × Nat)} (same : s₁.vm = s.vm)
      (maintains : Maintains A.toPageAllocator roots roots s s₁)
      (rest : Loads roots pm loadBase contents s₁ runs s') :
      Loads roots pm loadBase contents s runs s'
  | segment {s s₁ s' : Mmap.State σ} {p : Phdr} {phys : Nat} {runs : List (Phdr × Nat)}
      (loaded : SegmentLoaded A roots pm loadBase contents s s₁ p phys)
      (rest : Loads roots pm loadBase contents s₁ runs s') :
      Loads roots pm loadBase contents s ((p, phys) :: runs) s'

end

section

variable {σ : Type} {A : RunAllocator σ} {roots : Nat → Prop} {s s₁ s' : Mmap.State σ} {file : File}
  {contents : Nat → BitVec 8} {pm loadBase phys : Nat} {p : Phdr} {e : Ehdr}

/-- One turn of the loop loads a segment, or it leaves the memory as it is. -/
theorem loadPhdr_cases {pagemap : Option Nat} {acc acc' : Loaded}
    (hl : loadPhdr A s pagemap file loadBase p acc = some (some acc', s₁)) :
    (p.type = ptLoad ∧ loadSegment A s pagemap file loadBase p = some (true, s₁)) ∨
      (p.type ≠ ptLoad ∧ (s₁ = s ∨ s₁ = (heapAlloc s).2)) := by
  unfold loadPhdr at hl
  split at hl
  · next htype =>
    obtain ⟨⟨ok, s₂⟩, hseg, hl⟩ := Option.map_eq_some_iff.mp hl
    obtain ⟨hok, rfl⟩ := Prod.mk.inj hl
    cases ok with
    | false => simp at hok
    | true => exact Or.inl ⟨htype, hseg⟩
  · next htype =>
    refine Or.inr ⟨htype, ?_⟩
    split at hl
    · exact Or.inl (Prod.mk.inj (Option.some.inj hl)).2.symm
    · split at hl
      · split at hl
        · simp at hl
        · next heap =>
          refine Or.inr ?_
          rw [heap]
          exact (Prod.mk.inj (Option.some.inj hl)).2.symm
      · exact Or.inl (Prod.mk.inj (Option.some.inj hl)).2.symm

theorem segmentsFrom_succ {i k : Nat} (hp : file.phdr (u64 (e.phoff + i * e.phentsize)) = some p) :
    file.segmentsFrom e i (k + 1) =
      (if p.type = ptLoad then [p] else []) ++ file.segmentsFrom e (i + 1) k := by
  rw [File.segmentsFrom, List.range'_succ, List.filterMap_cons, hp]
  simp only [List.filter_cons, decide_eq_true_eq]
  split <;> rfl

/-- **The loop**, in a file whose segments fit their pages. -/
theorem loadPhdrs_loads (hA : A.Sized) (hpm : roots pm) (hfile : file.Exact contents) :
    ∀ {k i : Nat} {acc : Loaded} {s s' : Mmap.State σ} {r : Loaded},
    Ready A.toPageAllocator roots s → (∀ p ∈ file.segmentsFrom e i k, p.Fits) →
    loadPhdrs A (some pm) file e loadBase k i acc s = some (some r, s') →
    Loads A roots pm loadBase contents s (segmentRuns A (some pm) file e loadBase k i acc s) s' ∧
      (segmentRuns A (some pm) file e loadBase k i acc s).map Prod.fst = file.segmentsFrom e i k
  | 0, i, acc, s, s', r, _, _, hl => by
    obtain ⟨-, rfl⟩ := Prod.mk.inj (Option.some.inj hl)
    exact ⟨.done s, rfl⟩
  | k + 1, i, acc, s, s', r, h, hfits, hl => by
    rw [loadPhdrs] at hl
    split at hl
    · simp at hl
    · next p hp =>
      rw [segmentsFrom_succ hp] at hfits ⊢
      have hrest : ∀ p ∈ file.segmentsFrom e (i + 1) k, p.Fits :=
        fun q hq => hfits q (List.mem_append_right _ hq)
      split at hl
      · simp at hl
      · simp at hl
      · next acc' s₁ hturn =>
        have hruns : segmentRuns A (some pm) file e loadBase (k + 1) i acc s =
            phdrRun A s p ++ segmentRuns A (some pm) file e loadBase k (i + 1) acc' s₁ := by
          rw [segmentRuns, hp]
          simp only [hturn]
        rw [hruns, List.map_append, phdrRun]
        rcases loadPhdr_cases hturn with ⟨htype, hseg⟩ | ⟨htype, hs₁⟩
        · obtain ⟨phys, hloaded⟩ := loadSegment_loaded hA h hpm hfile
            (hfits p (List.mem_append_left _ (by rw [if_pos htype]; exact List.mem_singleton_self p)))
            hseg
          obtain ⟨hloads, hmap⟩ :=
            loadPhdrs_loads hA hpm hfile hloaded.maintains.ready hrest hl
          rw [if_pos htype, if_pos htype, hloaded.alloc, hmap]
          exact ⟨.segment hloaded hloads, rfl⟩
        · have hm : s₁.vm = s.vm ∧ Maintains A.toPageAllocator roots roots s s₁ := by
            rcases hs₁ with rfl | rfl
            · exact ⟨rfl, h.of_same rfl rfl rfl h.unfreed⟩
            · exact ⟨rfl, h.heapAlloc rfl⟩
          obtain ⟨hloads, hmap⟩ := loadPhdrs_loads hA hpm hfile hm.2.ready hrest hl
          rw [if_neg htype, if_neg htype, hmap]
          exact ⟨.other hm.1 hm.2 hloads, rfl⟩

theorem Loads.maintains {runs : List (Phdr × Nat)} (h : Loads A roots pm loadBase contents s runs s')
    (hs : Ready A.toPageAllocator roots s) : Maintains A.toPageAllocator roots roots s s' := by
  induction h with
  | done s => exact hs.of_same rfl rfl rfl hs.unfreed
  | other _ hm _ ih => exact hm.trans (ih hm.ready) fun _ hr _ => hr
  | segment hl _ ih => exact hl.maintains.trans (ih hl.maintains.ready) fun _ hr _ => hr

/-! ## What user code finds -/

theorem Phdr.pages_le (hend : phys + p.pageCount * pageSize ≤ 2 ^ 52) :
    p.pageCount * pageSize ≤ p.mapLength loadBase := by
  unfold Phdr.mapLength rangeLength rangeBase alignDown alignUp divRoundup u64
  generalize p.pageCount = n at *
  unfold pageSize at *
  omega

/-- The run of a segment, at any time after it has been loaded. -/
structure Placed (A : RunAllocator σ) (roots : Nat → Prop) (pm loadBase : Nat)
    (contents : Nat → BitVec 8) (s : Mmap.State σ) (p : Phdr) (phys : Nat) : Prop where
  run : p.mapBase loadBase < lowEnd →
    MappedRun s.vm pm (p.mapBase loadBase) phys (p.pageCount * pageSize) (ptFlags p.prot)
  used : ∀ q, InRun phys p.pageCount q → A.Owned s.vm.pmm q ∧ ¬ TablePage roots s.vm q
  dvd : pageSize ∣ phys
  fits : phys + p.pageCount * pageSize ≤ 2 ^ 52
  holds : ∀ k < p.pageCount * pageSize, bytes pageSize s.vm.mem (phys + k) = p.image contents k

theorem SegmentLoaded.placed (h : SegmentLoaded A roots pm loadBase contents s s' p phys)
    (hpm : roots pm) : Placed A roots pm loadBase contents s' p phys where
  run hlow := by
    obtain ⟨hwin, -, hgets⟩ := h.mapped hlow
    exact Gets.run hwin hgets hpm h.dvd (Phdr.pages_le h.fits) h.fits
  used := h.used
  dvd := h.dvd
  fits := h.fits
  holds := h.holds

theorem Placed.kept (h : Placed A roots pm loadBase contents s p phys) (hpm : roots pm)
    (hm : Maintains A.toPageAllocator roots roots s s') :
    Placed A roots pm loadBase contents s' p phys where
  run hlow := hm.run hpm (h.run hlow)
  used q hq := hm.data q (h.used q hq).1 (h.used q hq).2
  dvd := h.dvd
  fits := h.fits
  holds k hk := by
    rw [← h.holds k hk]
    refine bytes_congr fun i => ?_
    obtain ⟨howned, hnot⟩ := h.used _ (inRun_row h.dvd hk)
    exact hm.contents _ howned hnot i

theorem Loads.placed {runs : List (Phdr × Nat)} (h : Loads A roots pm loadBase contents s runs s')
    (hpm : roots pm) : ∀ r ∈ runs, Placed A roots pm loadBase contents s' r.1 r.2 := by
  induction h with
  | done s => exact fun r hr => absurd hr List.not_mem_nil
  | other _ _ _ ih => exact ih
  | segment hl hrest ih =>
    intro r hr
    rcases List.mem_cons.mp hr with rfl | hr
    · exact (hl.placed hpm).kept hpm (hrest.maintains hl.maintains.ready)
    · exact ih r hr

/-- What user code finds of a segment: the bytes of the file, zeros behind them, and the permissions
of the segment. -/
structure Shown (s : Vmm.State σ) (pm loadBase : Nat) (contents : Nat → BitVec 8) (p : Phdr) :
    Prop where
  file : ∀ k < p.filesz, userByte s pm (p.vaddr + loadBase + k) = some (contents (p.offset + k))
  zero : ∀ k, p.filesz ≤ k → k < p.memsz → userByte s pm (p.vaddr + loadBase + k) = some 0
  write : ∀ k < p.memsz, (pte s pm (p.vaddr + loadBase + k) &&& pteWritable ≠ 0 ↔
    p.flags &&& pfW ≠ 0)
  exec : ∀ k < p.memsz, (pte s pm (p.vaddr + loadBase + k) &&& pteNx = 0 ↔ p.flags &&& pfX ≠ 0)

theorem Phdr.memsz_le (hend : p.memsz + p.misalign < 2 ^ 63) :
    p.misalign + p.memsz ≤ p.pageCount * pageSize := by
  unfold Phdr.pageCount divRoundup u64
  generalize p.misalign = m at *
  unfold pageSize
  omega

theorem Placed.userByte (h : Placed A roots pm loadBase contents s p phys)
    (hlow : p.mapBase loadBase < lowEnd) {k : Nat} (hk : k < p.pageCount * pageSize) :
    userByte s.vm pm (p.mapBase loadBase + k) = some (p.image contents k) := by
  unfold Vmm.userByte
  rw [(h.run hlow).userPhys hk, Option.map_some, h.holds k hk]

theorem Placed.shown (h : Placed A roots pm loadBase contents s p phys)
    (hbase : pageSize ∣ loadBase) (hsize : p.filesz ≤ p.memsz)
    (huser : p.vaddr + loadBase + p.memsz ≤ lowEnd) : Shown s.vm pm loadBase contents p := by
  rcases Nat.eq_zero_or_pos p.memsz with h0 | hpos
  · refine ⟨fun k hk => ?_, fun k _ hk => ?_, fun k hk => ?_, fun k hk => ?_⟩ <;> omega
  have hlowEnd : lowEnd = 2 ^ 47 := rfl
  have hmis : p.misalign < 4096 := Nat.mod_lt _ (by decide)
  obtain ⟨haddr, -⟩ := Phdr.range_eq hbase (by omega) h.fits
  have hmem := Phdr.memsz_le (p := p) (by omega)
  have hlow : p.mapBase loadBase < lowEnd := by omega
  have hat : ∀ k, p.vaddr + loadBase + k = p.mapBase loadBase + (p.misalign + k) := fun k => by
    omega
  have hrun := h.run hlow
  refine ⟨fun k hk => ?_, fun k hk hk' => ?_, fun k hk => ?_, fun k hk => ?_⟩
  · rw [hat, h.userByte hlow (by omega), Phdr.image, if_pos ⟨Nat.le_add_right _ _, by omega⟩,
      Nat.add_sub_cancel_left]
  · rw [hat, h.userByte hlow (by omega), Phdr.image, if_neg (by omega)]
  · rw [hat, hrun.and_flag (by omega) (by decide), ptFlags_write, Phdr.prot, bne_iff_ne]
  · rw [hat, hrun.and_flag (by omega) (by decide), ptFlags_exec, Phdr.prot, bne_iff_ne]

/-- A call that returns true has read the header and gone through the loop. -/
theorem elfLoad_true {r : Loaded} (hheader : file.header = some e)
    (hl : elfLoad A s (some pm) file loadBase = some (some r, s')) :
    e.executable = true ∧ ∃ acc,
      loadPhdrs A (some pm) file e loadBase e.phnum 0 (⟨0, 0, 0, 0⟩, none) s = some (some acc, s') := by
  unfold elfLoad at hl
  rw [hheader] at hl
  simp only at hl
  split at hl
  · next hexec =>
    obtain ⟨⟨acc, s₁⟩, hloop, hl⟩ := Option.map_eq_some_iff.mp hl
    obtain ⟨hacc, rfl⟩ := Prod.mk.inj hl
    cases acc with
    | none => simp at hacc
    | some acc => exact ⟨hexec, acc, hloop⟩
  · simp at hl

/--
**What a program finds in its segments.** When `elf_load` returns true, and no segment has more bytes
than its pages can hold, user code finds each segment as the file says: its bytes, zeros up to
`p_memsz`, and its permissions.
-/
theorem elf_load_contents {r : Loaded} (hA : A.Sized) (h : Ready A.toPageAllocator roots s)
    (hpm : roots pm) (hfile : file.Exact contents) (hbase : pageSize ∣ loadBase)
    (hheader : file.header = some e) (hfits : ∀ p ∈ file.segments e, p.Fits)
    (hload : elfLoad A s (some pm) file loadBase = some (some r, s')) :
    ∀ p ∈ file.segments e, p.filesz ≤ p.memsz → p.vaddr + loadBase + p.memsz ≤ lowEnd →
      Shown s'.vm pm loadBase contents p := by
  intro p hp hsize huser
  obtain ⟨-, acc, hloop⟩ := elfLoad_true hheader hload
  obtain ⟨hloads, hruns⟩ := loadPhdrs_loads hA hpm hfile h hfits hloop
  rw [File.segments, ← hruns] at hp
  obtain ⟨run, hrun, rfl⟩ := List.mem_map.mp hp
  exact (hloads.placed hpm run hrun).shown hbase hsize huser

end

/-! ## Two programs -/

/-- A machine whose next page is the last one. -/
def lastPage : Mmap.State Pmm.State :=
  { bootProcess with vm := { bootState with pmm := { bootPmm with lastUsedIndex := 1023 } } }

/-- A file with the program headers of a list, all of whose bytes are `1`. -/
def ehdrOf (phdrs : List Phdr) : Ehdr :=
  ⟨elfMag ++ [elfClass64, elfData2Lsb, 1, 0], emX8664, 0x400000, 64, 56, phdrs.length⟩

def fileOf (phdrs : List Phdr) : File where
  header := some (ehdrOf phdrs)
  phdr offset := if 56 ∣ offset - 64 then phdrs[(offset - 64) / 56]? else none
  read _ n := some (n, fun _ => 1)

theorem fileOf_exact (phdrs : List Phdr) : (fileOf phdrs).Exact fun _ => 1 := fun _ _ => rfl

/-- A segment that is writable. -/
def dataSegment (vaddr filesz memsz : Nat) : Phdr := ⟨ptLoad, pfW, vaddr, 0, filesz, memsz⟩

theorem lastPage_ready : Ready Pmm.allocator bootRoots lastPage where
  wf := by
    refine (bootState_wf.frame { bootState with pmm := { bootPmm with lastUsedIndex := 1023 } }
      ?_ (fun _ hq => hq) fun _ _ _ => rfl).1
    exact { cursor := by decide, zero := by decide, addressable := by decide }
  kernel := Or.inl rfl
  unfreed _ _ := rfl

/-- A program with some bytes of data and zeros behind them. -/
theorem elf_load_contents_fileOf : ∃ r s',
    elfLoad Pmm.runs lastPage (some 0x2000)
      (fileOf [dataSegment 0x400123 8 24, dataSegment 0x500000 0 0x2000]) 0 = some (some r, s') ∧
    Shown s'.vm 0x2000 0 (fun _ => 1) (dataSegment 0x400123 8 24) := by
  have hrun : (elfLoad Pmm.runs lastPage (some 0x2000)
      (fileOf [dataSegment 0x400123 8 24, dataSegment 0x500000 0 0x2000]) 0).map
      (fun r => r.1.isSome) = some true := by decide +kernel
  obtain ⟨⟨r, s'⟩, hload, hr⟩ := Option.map_eq_some_iff.mp hrun
  obtain ⟨r, rfl⟩ := Option.isSome_iff_exists.mp hr
  exact ⟨r, s', hload, elf_load_contents Pmm.runs_sized lastPage_ready (Or.inr rfl) (fileOf_exact _)
    (Nat.dvd_zero _) rfl (by decide) hload _ (by decide) (by decide) (by decide)⟩

/-- The second segment has two megabytes of bytes for its one page. They end in the page of the first
one, where user code finds a byte that should be zero. -/
theorem surplus_overwrites : ∃ r s',
    elfLoad Pmm.runs lastPage (some 0x2000)
      (fileOf [dataSegment 0x400000 0 1, dataSegment 0x402000 0x200000 1]) 0
        = some (some r, s') ∧
    userByte s'.vm 0x2000 0x400000 = some 1 ∧
    ¬ ∀ p ∈ (fileOf [dataSegment 0x400000 0 1, dataSegment 0x402000 0x200000 1]).segments
        (ehdrOf [dataSegment 0x400000 0 1, dataSegment 0x402000 0x200000 1]),
      p.filesz ≤ p.memsz → p.vaddr + 0 + p.memsz ≤ lowEnd →
        Shown s'.vm 0x2000 0 (fun _ => 1) p := by
  have hrun : (elfLoad Pmm.runs lastPage (some 0x2000)
      (fileOf [dataSegment 0x400000 0 1, dataSegment 0x402000 0x200000 1]) 0).map
      (fun r => (r.1.isSome, userByte r.2.vm 0x2000 0x400000)) = some (true, some 1) := by
    decide +kernel
  obtain ⟨⟨r, s'⟩, hload, he⟩ := Option.map_eq_some_iff.mp hrun
  obtain ⟨hr, hbyte⟩ := Prod.mk.inj he
  obtain ⟨r, rfl⟩ := Option.isSome_iff_exists.mp hr
  refine ⟨r, s', hload, hbyte, fun hc => ?_⟩
  have hshown := hc (dataSegment 0x400000 0 1) (by decide) (by decide) (by decide)
  have hzero := hshown.zero 0 (Nat.le_refl _) (by decide)
  exact absurd (hbyte.symm.trans hzero) (by decide)

end Lyre.Elf
