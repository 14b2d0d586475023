import Lyre.Properties.SlabSteps

/-!
# The functions of the heap

`Inv` says that the heap is in order: there are free lists such that everything has its place and
memory says so. Each function of `mm/slab.c` keeps it, with the live blocks and the pages of the
slabs changed as they should be.
-/

namespace Lyre.Slabs

open Infra.Bytes

/-- The heap is in order. -/
def Inv (st : State) (pages : List (Nat × Nat)) (live : List Block) : Prop :=
  ∃ free, Layout pages live free ∧ Stored slabCount st pages live free

variable {pages : List (Nat × Nat)} {live live' : List Block}
  {free : Nat → List Nat} {st : State} {b : Block} {i n p x page size : Nat} {l : List Nat}

theorem Inv.perm (h : Inv st pages live) (hp : live.Perm live') : Inv st pages live' := by
  obtain ⟨free, hl, hs⟩ := h
  exact ⟨free, hl.perm hp, hs.perm hp⟩

/-! ## Slabs -/

theorem Stored.take (h : Stored slabCount st pages live free) (hl : Layout pages live free)
    (hi : i < slabCount) (hf : free i = x :: l) (hsize : size ≤ entSizeOf i) :
    Stored slabCount
      { setSlab st i { st.slabs i with firstFree := read st.mem x 8 } with
        mem := fill st.mem x (entSizeOf i) }
      pages (⟨x, size, .slab i⟩ :: live) (Function.update free i l) := by
  have hchain := h.chain i hi
  rw [hf] at hchain
  have hs := (h.setFirst (i := i) hchain.2.2).cons_small (b := ⟨x, size, .slab i⟩) rfl
  exact hs.of_sameOff (Nat.le_refl _) (fill_sameOff _ _ _)
    ((hl.take hi hf hsize).clear List.mem_cons_self)

theorem places_eq (p i : Nat) : ∃ l, places p i = (p + entSizeOf i) :: l := by
  unfold places
  rw [List.range_succ_eq_map, List.map_cons, Nat.zero_add, Nat.one_mul]
  exact ⟨_, rfl⟩

/-- `alloc_from_slab`, if the list is not empty. -/
theorem take_inv (hl : Layout pages live free) (h : Stored slabCount st pages live free)
    (hi : i < slabCount) (hne : free i ≠ []) (hsize : size ≤ entSizeOf i) :
    (st.slabs i).firstFree ≠ 0 ∧
      Inv { setSlab st i { st.slabs i with firstFree := read st.mem (st.slabs i).firstFree 8 } with
        mem := fill st.mem (st.slabs i).firstFree (entSizeOf i) }
        pages (⟨(st.slabs i).firstFree, size, .slab i⟩ :: live) := by
  obtain ⟨x, l, hf⟩ := List.exists_cons_of_ne_nil hne
  have hchain := h.chain i hi
  rw [hf] at hchain
  obtain ⟨hfirst, hx, -⟩ := hchain
  rw [hfirst]
  exact ⟨hx, _, hl.take hi hf hsize, h.take hl hi hf hsize⟩

/-- `alloc_from_slab` hands out a block of zeros. -/
theorem allocFromSlab_inv (h : Inv st pages live) (hi : i < slabCount)
    (hsize : size ≤ entSizeOf i)
    (hpage : (st.slabs i).firstFree = 0 → Fresh pages live page 1) :
    (allocFromSlab st i page).1 ≠ 0 ∧
      Inv (allocFromSlab st i page).2
        (if (st.slabs i).firstFree = 0 then (page, i) :: pages else pages)
        (⟨(allocFromSlab st i page).1, size, .slab i⟩ :: live) ∧
      ∀ k < entSizeOf i,
        (allocFromSlab st i page).2.mem ((allocFromSlab st i page).1 + k) = 0 := by
  obtain ⟨free, hl, hs⟩ := h
  have hent := hs.entSize i hi
  have hchain := hs.chain i hi
  unfold allocFromSlab
  by_cases hfirst : (st.slabs i).firstFree = 0
  · -- `create_slab` first
    have hempty : free i = [] := by
      cases hfi : free i with
      | nil => rfl
      | cons x l =>
        rw [hfi] at hchain
        exact absurd (hchain.1.symm.trans hfirst) hchain.2.1
    have hf := hpage hfirst
    have hl' := hl.cons_page hf hi hempty
    have hs' := hs.cons_page hl hf hi (Nat.le_refl _) fun j hj => Or.inr hj
    have hent' := hs'.entSize i hi
    have hne : Function.update free i (places page i) i ≠ [] := by
      obtain ⟨l, hp⟩ := places_eq page i
      rw [Function.update_self, hp]
      exact List.cons_ne_nil _ _
    obtain ⟨hx, hinv⟩ := take_inv hl' hs' hi hne hsize
    simp only [if_pos hfirst, hent, setSlab, Function.update_self, hent']
    refine ⟨hx, ?_, fun k hk => fill_zero (Nat.le_add_right _ _) (Nat.add_lt_add_left hk _)⟩
    simpa only [setSlab, hent'] using hinv
  · have hne : free i ≠ [] := by
      intro hempty
      rw [hempty] at hchain
      exact hfirst hchain
    obtain ⟨hx, hinv⟩ := take_inv hl hs hi hne hsize
    simp only [if_neg hfirst, setSlab, Function.update_self, hent]
    refine ⟨hx, ?_, fun k hk => fill_zero (Nat.le_add_right _ _) (Nat.add_lt_add_left hk _)⟩
    simpa only [setSlab, hent] using hinv

/-- `free_in_slab` puts a block in front of the free list. -/
theorem freeInSlab_inv (h : Inv st pages (b :: live)) (ho : b.owner = .slab i) :
    Inv (freeInSlab st i b.addr) pages live := by
  obtain ⟨free, hl, hs⟩ := h
  have hi := (hl.small b List.mem_cons_self i ho).1
  have hpos := (entSizeOf_bounds hi).1
  have hslot := hl.slot_of_live List.mem_cons_self ho
  obtain ⟨p, hp, hge, hle⟩ := hslot.bounds
  have hlt : (st.slabs i).firstFree < 2 ^ 64 := by
    have hchain := hs.chain i hi
    cases hf : free i with
    | nil =>
      rw [hf] at hchain
      exact hchain ▸ Nat.two_pow_pos 64
    | cons x l =>
      rw [hf] at hchain
      obtain ⟨q, hq, -, hle⟩ := (hl.slot i hi x
        (List.mem_append_left _ (hf ▸ List.mem_cons_self))).bounds
      have := (hl.page _ hq).1.fits
      rw [hchain.1]
      omega
  have hx : b.addr ≠ 0 := by omega
  have hlen : entSizeOf i = b.owner.length := by rw [ho, Owner.length]
  have hclear : Clear pages live free b.addr 8 :=
    (hl.clear List.mem_cons_self).tail.mono (Nat.le_refl _) (by omega)
  have hs' := hs.tail.of_sameOff (Nat.le_refl _)
    (write_sameOff st.mem b.addr 8 (st.slabs i).firstFree) hclear
  have hpush := (hs.chain i hi).push hx hlt fun y hy => hclear.node i hi y hy
  unfold freeInSlab
  rw [if_neg hx]
  exact ⟨_, hl.give ho, hs'.setFirst hpush⟩

/-! ## `slab_alloc` -/

/-- Who serves a block of that size. -/
def ownerFor (st : State) (size : Nat) : Owner :=
  match slabFor st size with
  | some i => .slab i
  | none => .pages (divRoundup size pageSize)

/-- The pages of the slabs after `slab_alloc`, which may give `page` to one of them. -/
def pagesAfter (st : State) (pages : List (Nat × Nat)) (size page : Nat) : List (Nat × Nat) :=
  match slabFor st size with
  | some i => if (st.slabs i).firstFree = 0 then (page, i) :: pages else pages
  | none => pages

/-- What `pmm.c` returns, if `slab_alloc` asks for it, is not in use. Large blocks may be
refused. -/
def PageOk (st : State) (pages : List (Nat × Nat)) (live : List Block) (size page : Nat) : Prop :=
  match slabFor st size with
  | some i => (st.slabs i).firstFree = 0 → Fresh pages live page 1
  | none => page = 0 ∨ Fresh pages live page (divRoundup size pageSize + 1)

theorem PageOk.perm (h : PageOk st pages live size page) (hp : live.Perm live') :
    PageOk st pages live' size page := by
  unfold PageOk at *
  cases hfor : slabFor st size with
  | some i =>
    rw [hfor] at h
    exact fun h0 => (h h0).perm hp
  | none =>
    rw [hfor] at h
    exact h.imp_right fun hf => hf.perm hp

theorem slabFor_some (h : Inv st pages live) (hi : slabFor st size = some i) :
    i < slabCount ∧ size ≤ entSizeOf i := by
  obtain ⟨free, -, hs⟩ := h
  have hlt := List.mem_range.mp (List.mem_of_find?_eq_some hi)
  have hle := List.find?_some hi
  rw [decide_eq_true_iff, hs.entSize i hlt] at hle
  exact ⟨hlt, hle⟩

/-- A large block: the run is zeroed, and its first page gets the metadata. -/
theorem largeAlloc_inv (h : Inv st pages live) (hsize : size + 2 * pageSize < 2 ^ 64)
    (hn : divRoundup size pageSize = n) (hf : Fresh pages live page (n + 1)) :
    let mem := write (write (fill st.mem page ((n + 1) * pageSize)) page 8 n) (page + 8) 8 size
    Inv { st with mem } pages (⟨page + pageSize, size, .pages n⟩ :: live) ∧
      ∀ k < n * pageSize, mem (page + pageSize + k) = 0 := by
  intro mem
  obtain ⟨free, hl, hs⟩ := h
  have hlt : n < 2 ^ 64 := hn ▸ Nat.lt_of_le_of_lt (Nat.div_le_self _ _) (u64_lt _)
  have hfill := fill_sameOff st.mem page ((n + 1) * pageSize)
  have hpages := write_sameOff (fill st.mem page ((n + 1) * pageSize)) page 8 n
  have hsizes : SameOff _ mem (page + 8) 8 := write_sameOff _ _ _ _
  have hrun : n * pageSize + pageSize = (n + 1) * pageSize := (Nat.succ_mul n pageSize).symm
  have hpage : pageSize = 4096 := rfl
  have hmeta : SameOff (fill st.mem page ((n + 1) * pageSize)) mem page 16 :=
    hpages.trans' hsizes ⟨Nat.le_refl _, by omega⟩ ⟨by omega, by omega⟩
  have hsame : SameOff st.mem mem page ((n + 1) * pageSize) :=
    hfill.trans' hmeta ⟨Nat.le_refl _, Nat.le_refl _⟩ ⟨Nat.le_refl _, by omega⟩
  refine ⟨⟨free, hl.cons_large hf hn hsize, ?_⟩, fun k hk => ?_⟩
  · refine (hs.of_sameOff (Nat.le_refl _) hsame (hf.clear hl)).cons_large rfl ?_ ?_
    · rw [Nat.add_sub_cancel, read_sameOff hsizes (by unfold Apart; omega), read_write]
      exact Nat.mod_eq_of_lt hlt
    · rw [Nat.add_sub_cancel]
      exact (read_write _ _ _ _).trans (Nat.mod_eq_of_lt (by omega))
  · rw [hmeta _ (by omega)]
    exact fill_zero (by omega) (by omega)

/-- **`slab_alloc`** keeps the heap in order and hands out zeros. -/
theorem slabAlloc_inv (h : Inv st pages live) (hsize : size + 2 * pageSize < 2 ^ 64)
    (hpage : PageOk st pages live size page) :
    ((slabAlloc st size page).1 = 0 → (slabAlloc st size page).2 = st) ∧
      ((slabAlloc st size page).1 ≠ 0 →
        Inv (slabAlloc st size page).2 (pagesAfter st pages size page)
          (⟨(slabAlloc st size page).1, size, ownerFor st size⟩ :: live) ∧
        ∀ k < (ownerFor st size).length,
          (slabAlloc st size page).2.mem ((slabAlloc st size page).1 + k) = 0) := by
  unfold PageOk at hpage
  unfold slabAlloc pagesAfter ownerFor
  cases hfor : slabFor st size with
  | some i =>
    rw [hfor] at hpage
    obtain ⟨hi, hle⟩ := slabFor_some h hfor
    obtain ⟨hne, hinv, hzero⟩ := allocFromSlab_inv h hi hle hpage
    exact ⟨fun h0 => absurd h0 hne, fun _ => ⟨hinv, hzero⟩⟩
  | none =>
    rw [hfor] at hpage
    dsimp only
    split
    · exact ⟨fun _ => rfl, fun hne => absurd rfl hne⟩
    · next hne =>
      refine ⟨fun h0 => absurd (Nat.eq_zero_of_add_eq_zero_right h0) hne, fun _ => ?_⟩
      exact largeAlloc_inv h hsize rfl (hpage.resolve_left hne)

/-! ## `slab_free` -/

/-- What `slab_free` does with a block. -/
def Owner.freed (addr : Nat) : Owner → Freed
  | .slab i => .inSlab i
  | .pages n => .pages (addr - pageSize) (n + 1)

/-- A block of a slab is not page-aligned, and its header is at the beginning of its page. -/
theorem Inv.small_header (h : Inv st pages live) (hb : b ∈ live) (ho : b.owner = .slab i) :
    b.addr ≠ 0 ∧ b.addr % 4096 ≠ 0 ∧ read st.mem (b.addr - b.addr % 4096) 8 = i := by
  obtain ⟨free, hl, hs⟩ := h
  have hpos := (entSizeOf_bounds (hl.small b hb i ho).1).1
  obtain ⟨p, hp, hge, hle⟩ := (hl.slot_of_live hb ho).bounds
  obtain ⟨q, hq⟩ := (hl.page _ hp).1.aligned
  have hread := hs.header _ hp
  unfold pageSize at hq hle
  dsimp only at hq hread
  have hheader : b.addr - b.addr % 4096 = p := by omega
  refine ⟨by omega, by omega, ?_⟩
  rw [hheader, hread]

theorem Inv.large_metadata (h : Inv st pages live) (hb : b ∈ live) (ho : b.owner = .pages n) :
    b.addr ≠ 0 ∧ b.addr % 4096 = 0 ∧ read st.mem (b.addr - pageSize) 8 = n ∧
      read st.mem (b.addr - pageSize + 8) 8 = b.size ∧ divRoundup b.size pageSize = n ∧
      n + 1 < 2 ^ 64 := by
  obtain ⟨free, hl, hs⟩ := h
  have hlarge := hl.large b hb n ho
  obtain ⟨hpages, hsize⟩ := hs.metadata b hb n ho
  obtain ⟨q, hq⟩ := hlarge.run.aligned
  have hne := hlarge.run.ne_zero
  have hfits := hlarge.run.fits
  have hbehind := hlarge.behind
  unfold pageSize at hq hne hfits hbehind
  refine ⟨by omega, by omega, hpages, hsize, hlarge.count, by omega⟩

/-- **`slab_free` recovers who serves a block from its address.** -/
theorem slabFree_freed (h : Inv st pages live) (hb : b ∈ live) :
    (slabFree st b.addr).1 = b.owner.freed b.addr := by
  unfold slabFree
  cases ho : b.owner with
  | slab i =>
    obtain ⟨hne, hmod, hread⟩ := h.small_header hb ho
    rw [if_neg hne, if_neg hmod, hread, Owner.freed]
  | pages n =>
    obtain ⟨hne, hmod, hread, -, -, hlt⟩ := h.large_metadata hb ho
    rw [if_neg hne, if_pos hmod, hread, u64_of_lt hlt, Owner.freed]

/-- `slab_free` keeps the heap in order. -/
theorem slabFree_inv (h : Inv st pages (b :: live)) : Inv (slabFree st b.addr).2 pages live := by
  unfold slabFree
  cases ho : b.owner with
  | slab i =>
    obtain ⟨hne, hmod, hread⟩ := h.small_header List.mem_cons_self ho
    rw [if_neg hne, if_neg hmod, hread]
    exact freeInSlab_inv h ho
  | pages n =>
    obtain ⟨hne, hmod, -⟩ := h.large_metadata List.mem_cons_self ho
    rw [if_neg hne, if_pos hmod]
    obtain ⟨free, hl, hs⟩ := h
    exact ⟨free, hl.tail, hs.tail⟩

/-! ## `slab_realloc` -/

theorem Layout.size_le (h : Layout pages live free) (hb : b ∈ live) :
    b.size ≤ b.owner.length := by
  cases ho : b.owner with
  | slab i => exact (h.small b hb i ho).2
  | pages n =>
    have hlarge := h.large b hb n ho
    have hcount := hlarge.count
    have hbound := hlarge.bound
    unfold divRoundup u64 pageSize at hcount
    unfold pageSize at hbound
    change b.size ≤ n * 4096
    omega

theorem Inv.of_sameOff (h : Inv st pages live) (hb : b ∈ live) {mem : Mem} {a k : Nat}
    (hs : SameOff st.mem mem a k) (ha : b.addr ≤ a) (hk : a + k ≤ b.addr + b.owner.length) :
    Inv { st with mem } pages live := by
  obtain ⟨free, hl, hst⟩ := h
  exact ⟨free, hl, hst.of_sameOff (Nat.le_refl _) hs ((hl.clear hb).mono ha hk)⟩

/-- `slab_realloc` does not move the block. -/
def Block.keeps (b : Block) (newSize : Nat) : Bool :=
  match b.owner with
  | .slab i => newSize ≤ entSizeOf i
  | .pages n => divRoundup newSize pageSize = n

variable {newSize : Nat}

theorem Inv.resize_large (h : Inv st pages (b :: live)) (ho : b.owner = .pages n)
    (hn : divRoundup newSize pageSize = n) (hsize : newSize + 2 * pageSize < 2 ^ 64) :
    Inv { st with mem := write st.mem (b.addr - pageSize + 8) 8 newSize } pages
      ({ b with size := newSize } :: live) := by
  obtain ⟨-, -, hpages, -⟩ := h.large_metadata List.mem_cons_self ho
  obtain ⟨free, hl, hs⟩ := h
  have hw := write_sameOff st.mem (b.addr - pageSize + 8) 8 newSize
  have hclear : Clear pages live free (b.addr - pageSize + 8) 8 :=
    ((hl.fresh ho).clear hl.tail).mono (by omega) (by unfold pageSize; omega)
  have hl' := hl.resize newSize (fun i hi => nomatch ho.symm.trans hi) fun k hk =>
    ⟨hn.trans (Owner.pages.inj (ho.symm.trans hk)), hsize⟩
  refine ⟨free, hl', (hs.tail.of_sameOff (Nat.le_refl _) hw hclear).cons_large ho ?_ ?_⟩
  · rw [← hpages]
    exact read_sameOff hw (Or.inr (Nat.le_refl _))
  · exact (read_write _ _ _ _).trans (Nat.mod_eq_of_lt (by omega))

theorem Inv.resize_small (h : Inv st pages (b :: live)) (ho : b.owner = .slab i)
    (hle : newSize ≤ entSizeOf i) : Inv st pages ({ b with size := newSize } :: live) := by
  obtain ⟨free, hl, hs⟩ := h
  have hl' := hl.resize newSize
    (fun j hj => Owner.slab.inj (ho.symm.trans hj) ▸ hle) fun k hk => nomatch ho.symm.trans hk
  exact ⟨free, hl', hs.tail.cons_small ho⟩

/-- `slab_realloc` keeps a block. -/
theorem slabRealloc_keeps (page : Nat) (h : Inv st pages (b :: live)) (hk : b.keeps newSize)
    (hsize : newSize + 2 * pageSize < 2 ^ 64) :
    (slabRealloc st b.addr newSize page).1 = b.addr ∧
      Inv (slabRealloc st b.addr newSize page).2 pages ({ b with size := newSize } :: live) := by
  unfold Block.keeps at hk
  unfold slabRealloc
  cases ho : b.owner with
  | slab i =>
    rw [ho] at hk
    obtain ⟨hne, hmod, hread⟩ := h.small_header List.mem_cons_self ho
    have hle := of_decide_eq_true hk
    have hent : (st.slabs i).entSize = entSizeOf i := by
      obtain ⟨free, hl, hs⟩ := h
      exact hs.entSize i (hl.small b List.mem_cons_self i ho).1
    simp only [if_neg hne, if_neg hmod, hread, hent, if_neg (Nat.not_lt.mpr hle)]
    exact ⟨trivial, ho ▸ h.resize_small ho hle⟩
  | pages n =>
    rw [ho] at hk
    have hn := of_decide_eq_true hk
    obtain ⟨hne, hmod, -, hread, hcount, -⟩ := h.large_metadata List.mem_cons_self ho
    simp only [if_neg hne, if_pos hmod, hread, hcount, hn, if_true]
    exact ⟨trivial, ho ▸ h.resize_large ho hn hsize⟩

theorem Inv.copy {b' : Block} {k : Nat} (h : Inv st pages (b' :: b :: live))
    (hk : k ≤ b'.owner.length) :
    Inv { st with mem := copy st.mem b'.addr b.addr k } pages (b :: b' :: live) := by
  have hcopy := h.of_sameOff List.mem_cons_self (copy_sameOff st.mem b'.addr b.addr k)
    (Nat.le_refl _) (Nat.add_le_add_left hk _)
  exact hcopy.perm (List.Perm.swap b b' live)

theorem Inv.entSize (h : Inv st pages live) (hi : i < slabCount) :
    (st.slabs i).entSize = entSizeOf i := by
  obtain ⟨free, -, hs⟩ := h
  exact hs.entSize i hi

theorem Inv.lt_slabCount (h : Inv st pages live) (hb : b ∈ live) (ho : b.owner = .slab i) :
    i < slabCount := by
  obtain ⟨free, hl, -⟩ := h
  exact (hl.small b hb i ho).1

theorem Inv.size_le (h : Inv st pages live) (hb : b ∈ live) : b.size ≤ b.owner.length := by
  obtain ⟨free, hl, -⟩ := h
  exact hl.size_le hb

/-- `slab_realloc` moves a block. -/
theorem slabRealloc_moves (h : Inv st pages (b :: live)) (hk : ¬ b.keeps newSize)
    (hsize : newSize + 2 * pageSize < 2 ^ 64)
    (hpage : PageOk st pages (b :: live) newSize page) :
    ((slabRealloc st b.addr newSize page).1 = 0 →
        (slabRealloc st b.addr newSize page).2 = st) ∧
      ((slabRealloc st b.addr newSize page).1 ≠ 0 →
        Inv (slabRealloc st b.addr newSize page).2 (pagesAfter st pages newSize page)
          (⟨(slabRealloc st b.addr newSize page).1, newSize, ownerFor st newSize⟩ :: live)) := by
  obtain ⟨hnull, hsome⟩ := slabAlloc_inv h hsize hpage
  unfold Block.keeps at hk
  unfold slabRealloc
  generalize slabAlloc st newSize page = r at *
  obtain ⟨newAddr, st'⟩ := r
  dsimp only at hnull hsome
  cases ho : b.owner with
  | slab i =>
    rw [ho] at hk
    have hi := h.lt_slabCount List.mem_cons_self ho
    have hlt : entSizeOf i < newSize := Nat.not_le.mp fun hle => hk (decide_eq_true hle)
    obtain ⟨hne, hmod, hread⟩ := h.small_header List.mem_cons_self ho
    simp only [if_neg hne, if_neg hmod, hread, h.entSize hi, if_pos hlt]
    split
    · next h0 => exact ⟨fun _ => hnull h0, fun hne => absurd rfl hne⟩
    · next h0 =>
      refine ⟨fun h0' => absurd h0' h0, fun _ => ?_⟩
      obtain ⟨hinv, -⟩ := hsome h0
      have hle : newSize ≤ (ownerFor st newSize).length := hinv.size_le List.mem_cons_self
      have hk : (st'.slabs i).entSize ≤ (ownerFor st newSize).length := by
        rw [hinv.entSize hi]
        omega
      exact freeInSlab_inv (hinv.copy hk) ho
  | pages n =>
    rw [ho] at hk
    obtain ⟨hne, hmod, -, hread, hcount, -⟩ := h.large_metadata List.mem_cons_self ho
    have hn : ¬ n = divRoundup newSize pageSize := fun he => hk (decide_eq_true he.symm)
    simp only [if_neg hne, if_pos hmod, hread, hcount, if_neg hn]
    split
    · next h0 => exact ⟨fun _ => hnull h0, fun hne => absurd rfl hne⟩
    · next h0 =>
      refine ⟨fun h0' => absurd h0' h0, fun _ => ?_⟩
      obtain ⟨hinv, -⟩ := hsome h0
      have hle : newSize ≤ (ownerFor st newSize).length := hinv.size_le List.mem_cons_self
      refine slabFree_inv (hinv.copy ?_)
      change _ ≤ (ownerFor st newSize).length
      split <;> omega

end Lyre.Slabs
