import Lyre.Properties.SlabOps

/-!
# What an allocation leaves of the blocks before it

`slab_alloc` does not touch live blocks. Of a block that has just been freed it leaves everything,
or nothing of its beginning: a slab hands out the same block again and clears it, and so does
`pmm.c` with pages that it hands out again. A page that becomes a page of a slab is not cleared.
-/

namespace Lyre.Slabs

open Infra.Bytes

variable {pages : List (Nat × Nat)} {live : List Block} {st : State} {b : Block}
  {i n page size : Nat}

/-! ## Who serves a size -/

/-- Who serves blocks of a size, after `slab_init`. -/
def serve (size : Nat) : Owner :=
  match (List.range slabCount).find? fun i => size ≤ entSizeOf i with
  | some i => .slab i
  | none => .pages (divRoundup size pageSize)

theorem slabFor_eq (h : Inv st pages live) (size : Nat) :
    slabFor st size = (List.range slabCount).find? fun i => size ≤ entSizeOf i := by
  unfold slabFor
  rw [← List.head?_filter, ← List.head?_filter]
  refine congrArg _ (List.filter_congr fun i hi => ?_)
  rw [h.entSize (List.mem_range.mp hi)]

theorem ownerFor_eq (h : Inv st pages live) (size : Nat) : ownerFor st size = serve size := by
  have hfor := slabFor_eq h size
  cases hi : slabFor st size with
  | some i =>
    rw [hi] at hfor
    simp only [ownerFor, serve, hi, ← hfor]
  | none =>
    rw [hi] at hfor
    simp only [ownerFor, serve, hi, ← hfor]

theorem serve_pages (h : serve size = .pages n) : divRoundup size pageSize = n := by
  unfold serve at h
  split at h
  · cases h
  · exact Owner.pages.inj h

/-! ## What is changed -/

/-- `slab_alloc` writes to the block, or to the page that a slab gets: to its header and behind it,
but not to the rest of the place that the header takes. -/
inductive Touched (st : State) (size page : Nat) (x : Nat) : Prop
  /-- A block of the free list. -/
  | block (i : Nat) (hi : slabFor st size = some i) (hfree : (st.slabs i).firstFree ≠ 0)
      (hx : (st.slabs i).firstFree ≤ x ∧ x < (st.slabs i).firstFree + entSizeOf i)
  /-- A new page of a slab. -/
  | page (i : Nat) (hi : slabFor st size = some i) (hfree : (st.slabs i).firstFree = 0)
      (hx : page ≤ x ∧ x < page + pageSize) (hx' : x < page + 8 ∨ page + entSizeOf i ≤ x)
  /-- A run of pages. -/
  | run (hi : slabFor st size = none)
      (hx : page ≤ x ∧ x < page + (divRoundup size pageSize + 1) * pageSize)

theorem createSlab_touches (st : State) (hi : i < slabCount) (hp : PageRun page 1) {x : Nat}
    (hx : ¬ (page ≤ x ∧ x < page + pageSize ∧ (x < page + 8 ∨ page + entSizeOf i ≤ x))) :
    (createSlab st i (entSizeOf i) page).mem x = st.mem x := by
  obtain ⟨hpos, hdvd, hhalf⟩ := entSizeOf_bounds hi
  have hbound := lastPlace_bound hi
  have hfits := hp.fits
  rw [Nat.add_mul] at hbound
  rw [createSlab_mem_eq st hi page]
  obtain ⟨hsame, -⟩ := linkBlocks_spec (write st.mem page 8 i) (page + entSizeOf i) (lastPlace i)
    hdvd hpos (by rw [Nat.add_mul]; omega)
  rw [write_sameOff _ _ _ _ x (by omega), hsame x (by omega), write_sameOff _ _ _ _ x (by omega)]

theorem slabAlloc_mem (h : Inv st pages live) (hpage : PageOk st pages live size page) {x : Nat}
    (hx : ¬ Touched st size page x) : (slabAlloc st size page).2.mem x = st.mem x := by
  unfold slabAlloc
  unfold PageOk at hpage
  cases hfor : slabFor st size with
  | some i =>
    rw [hfor] at hpage
    obtain ⟨hi, -⟩ := slabFor_some h hfor
    have hent := h.entSize hi
    dsimp only
    unfold allocFromSlab
    by_cases hfree : (st.slabs i).firstFree = 0
    · have hf := hpage hfree
      have hnot : ¬ (page ≤ x ∧ x < page + pageSize ∧ (x < page + 8 ∨ page + entSizeOf i ≤ x)) :=
        fun hin => hx (.page i hfor hfree ⟨hin.1, hin.2.1⟩ hin.2.2)
      have hcreate := createSlab_touches st hi hf.run hnot
      have hfirst : (createSlab st i (entSizeOf i) page).slabs i =
          ⟨page + entSizeOf i, entSizeOf i⟩ := by
        unfold createSlab
        simp only [Function.update_self, alignUp_entSizeOf hi]
      obtain ⟨-, -, hhalf⟩ := entSizeOf_bounds hi
      simp only [if_pos hfree, hent, setSlab, hfirst, Function.update_self]
      rw [fill_sameOff _ _ _ x (by omega), hcreate]
    · have hnot : ¬ ((st.slabs i).firstFree ≤ x ∧ x < (st.slabs i).firstFree + entSizeOf i) :=
        fun hin => hx (.block i hfor hfree hin)
      simp only [if_neg hfree, hent, setSlab, Function.update_self]
      exact fill_sameOff _ _ _ x hnot
  | none =>
    have hnot : ¬ (page ≤ x ∧ x < page + (divRoundup size pageSize + 1) * pageSize) :=
      fun hin => hx (.run hfor hin)
    rw [Nat.add_mul] at hnot
    unfold pageSize at hnot
    dsimp only
    split
    · rfl
    · dsimp only
      rw [write_sameOff _ _ _ _ x (by omega), write_sameOff _ _ _ _ x (by omega),
        fill_sameOff _ _ _ x (by rw [Nat.add_mul]; unfold pageSize; omega)]

/-! ## Live blocks -/

theorem Fresh.apart_block {free : Nat → List Nat} {p : Nat} (hf : Fresh pages live p n)
    (hl : Layout pages live free) (hb : b ∈ live) :
    Apart p (n * pageSize) b.addr b.owner.length := by
  cases ho : b.owner with
  | slab i =>
    obtain ⟨q, hq, hge, hle⟩ := (hl.slot_of_live hb ho).bounds
    exact (hf.pages _ hq).mono (Nat.le_refl _) (Nat.le_refl _) (by omega) hle
  | pages k => exact (hl.large b hb k ho).apart (hf.runs b hb k ho)

theorem chain_head {mem : Mem} {a : Nat} {l : List Nat} (h : Chain mem a l) (ha : a ≠ 0) :
    a ∈ l := by
  cases l with
  | nil => exact absurd h ha
  | cons x l =>
    rw [h.1]
    exact List.mem_cons_self

/-- `pmm.c` has returned something where `slab_alloc` does. -/
theorem run_ne_zero (hi : slabFor st size = none) (hne : (slabAlloc st size page).1 ≠ 0) :
    page ≠ 0 := by
  rintro rfl
  unfold slabAlloc at hne
  rw [hi] at hne
  exact hne rfl

theorem fresh_of_ne (hpage : PageOk st pages live size page) (hi : slabFor st size = none)
    (hne : (slabAlloc st size page).1 ≠ 0) :
    page ≠ 0 ∧ Fresh pages live page (divRoundup size pageSize + 1) := by
  have hne' := run_ne_zero hi hne
  unfold PageOk at hpage
  rw [hi] at hpage
  exact ⟨hne', hpage.resolve_left hne'⟩

/-- **Live blocks are not touched.** -/
theorem slabAlloc_live (h : Inv st pages live) (hpage : PageOk st pages live size page)
    (hne : (slabAlloc st size page).1 ≠ 0) (hb : b ∈ live) {k : Nat} (hk : k < b.owner.length) :
    (slabAlloc st size page).2.mem (b.addr + k) = st.mem (b.addr + k) := by
  refine slabAlloc_mem h hpage fun ht => ?_
  obtain ⟨free, hl, hs⟩ := id h
  cases ht with
  | block i hi hfree hx =>
    have hlt := (slabFor_some h hi).1
    have hap := hl.block_apart_free hb hlt (chain_head (hs.chain i hlt) hfree)
    unfold Apart at hap
    omega
  | page i hi hfree hx _ =>
    unfold PageOk at hpage
    rw [hi] at hpage
    have hap := (hpage hfree).apart_block hl hb
    unfold Apart at hap
    omega
  | run hi hx =>
    have hap := (fresh_of_ne hpage hi hne).2.apart_block hl hb
    unfold Apart at hap
    omega

/-! ## A block that has just been freed -/

/-- The block is at the head of the free list of its slab, or its pages have gone back to
`pmm.c`. -/
structure JustFreed (st : State) (pages : List (Nat × Nat)) (live : List Block) (b : Block) :
    Prop where
  slab : ∀ i, b.owner = .slab i → i < slabCount ∧ b.addr ≠ 0 ∧ (st.slabs i).firstFree = b.addr
  pages : ∀ n, b.owner = .pages n → pageSize ≤ b.addr ∧ Fresh pages live (b.addr - pageSize) (n + 1)

theorem slabFree_justFreed (h : Inv st pages (b :: live)) :
    JustFreed (slabFree st b.addr).2 pages live b := by
  refine ⟨fun i ho => ?_, fun n ho => ?_⟩
  · obtain ⟨hne, hmod, hread⟩ := h.small_header List.mem_cons_self ho
    refine ⟨h.lt_slabCount List.mem_cons_self ho, hne, ?_⟩
    unfold slabFree
    rw [if_neg hne, if_neg hmod, hread]
    dsimp only
    unfold freeInSlab
    rw [if_neg hne]
    unfold setSlab
    dsimp only
    rw [Function.update_self]
  · obtain ⟨free, hl, -⟩ := h
    exact ⟨(hl.large b List.mem_cons_self n ho).behind, hl.fresh ho⟩

/-- `slab_free` writes a link to the first 8 bytes at most. -/
theorem slabFree_mem (h : Inv st pages (b :: live)) {x : Nat}
    (hx : ¬ (b.addr ≤ x ∧ x < b.addr + 8)) : (slabFree st b.addr).2.mem x = st.mem x := by
  unfold slabFree
  cases ho : b.owner with
  | slab i =>
    obtain ⟨hne, hmod, hread⟩ := h.small_header List.mem_cons_self ho
    rw [if_neg hne, if_neg hmod]
    dsimp only
    unfold freeInSlab
    rw [if_neg hne]
    exact write_sameOff _ _ _ _ x hx
  | pages n =>
    obtain ⟨hne, hmod, -⟩ := h.large_metadata List.mem_cons_self ho
    rw [if_neg hne, if_pos hmod]

/-- The next block is of another slab, or on pages that do not reach over the beginning of the
block that was freed. -/
def Spares (b : Block) (size page : Nat) : Prop :=
  match b.owner, serve size with
  | .slab i, .slab j => i ≠ j
  | .pages _, .pages n => ¬ (page ≤ b.addr ∧ b.addr < page + (n + 1) * pageSize)
  | _, _ => True

theorem entSizeOf_of_lt (hi : i < slabCount) (h : 32 < entSizeOf i) : 48 ≤ entSizeOf i := by
  have hall : ∀ i < slabCount, 32 < entSizeOf i → 48 ≤ entSizeOf i := by decide
  exact hall i hi h

theorem serve_some (h : Inv st pages live) (hi : slabFor st size = some i) :
    serve size = .slab i := by
  rw [← ownerFor_eq h, ownerFor, hi]

theorem serve_none (h : Inv st pages live) (hi : slabFor st size = none) :
    serve size = .pages (divRoundup size pageSize) := by
  rw [← ownerFor_eq h, ownerFor, hi]

theorem not_spares (h : Inv st pages live) (hspare : ¬ Spares b size page) :
    (∃ i, b.owner = .slab i ∧ slabFor st size = some i) ∨
    ∃ n, b.owner = .pages n ∧ slabFor st size = none ∧ page ≤ b.addr ∧
      b.addr < page + (divRoundup size pageSize + 1) * pageSize := by
  unfold Spares at hspare
  cases hi : slabFor st size with
  | some j =>
    rw [serve_some h hi] at hspare
    cases ho : b.owner with
    | slab i =>
      rw [ho] at hspare
      exact .inl ⟨i, rfl, congrArg some (not_not.mp hspare).symm⟩
    | pages n =>
      rw [ho] at hspare
      exact absurd trivial hspare
  | none =>
    rw [serve_none h hi] at hspare
    cases ho : b.owner with
    | slab i =>
      rw [ho] at hspare
      exact absurd trivial hspare
    | pages n =>
      rw [ho] at hspare
      exact .inr ⟨n, rfl, rfl, not_not.mp hspare⟩

theorem JustFreed.slot (hf : JustFreed st pages live b) {free : Nat → List Nat}
    (hl : Layout pages live free) (hs : Stored slabCount st pages live free)
    (ho : b.owner = .slab i) : Slot pages i b.addr := by
  obtain ⟨hi, hne, hfirst⟩ := hf.slab i ho
  have hmem := chain_head (hs.chain i hi) (by rw [hfirst]; exact hne)
  rw [hfirst] at hmem
  exact hl.slot i hi _ (List.mem_append_left _ hmem)

/-- What is on fresh pages lies apart from a block of a slab that was freed. -/
theorem JustFreed.apart_fresh (hf : JustFreed st pages live b) {free : Nat → List Nat}
    (hl : Layout pages live free) (hs : Stored slabCount st pages live free)
    (ho : b.owner = .slab i) {p : Nat} (hp : Fresh pages live p n) :
    Apart p (n * pageSize) b.addr (entSizeOf i) := by
  obtain ⟨q, hq, hge, hle⟩ := (hf.slot hl hs ho).bounds
  exact (hp.pages _ hq).mono (Nat.le_refl _) (Nat.le_refl _) (by omega) hle

/-- **What is left of a block that was freed.** -/
theorem JustFreed.not_touched (hf : JustFreed st pages live b) (h : Inv st pages live)
    (hpage : PageOk st pages live size page) (hne : (slabAlloc st size page).1 ≠ 0)
    (hsize : 32 < size) (hspare : Spares b size page) {k : Nat} (hk : 14 ≤ k) (hk' : k < 48)
    (hlen : k < b.owner.length) : ¬ Touched st size page (b.addr + k) := by
  obtain ⟨free, hl, hs⟩ := id h
  intro ht
  cases ht with
  | block j hj hfree hx =>
    have hjlt := (slabFor_some h hj).1
    have hmem := chain_head (hs.chain j hjlt) hfree
    have hslot := hl.slot j hjlt _ (List.mem_append_left _ hmem)
    cases ho : b.owner with
    | slab i =>
      have hslot' := hf.slot hl hs ho
      rw [ho, Owner.length] at hlen
      unfold Spares at hspare
      rw [ho, serve_some h hj] at hspare
      have hap := hslot'.apart_slot hl.toPages hslot fun he =>
        hspare (hslot'.inj hl.toPages (he ▸ hslot))
      unfold Apart at hap
      omega
    | pages n =>
      obtain ⟨hbehind, hrun⟩ := hf.pages n ho
      rw [ho, Owner.length] at hlen
      obtain ⟨q, hq, hge, hle⟩ := hslot.bounds
      have hap := hrun.pages _ hq
      rw [Nat.add_mul] at hap
      unfold Apart at hap
      omega
  | page j hj hfree hx hx' =>
    obtain ⟨hjlt, hle⟩ := slabFor_some h hj
    have hpos := entSizeOf_of_lt hjlt (by omega)
    unfold PageOk at hpage
    rw [hj] at hpage
    have hp := hpage hfree
    cases ho : b.owner with
    | slab i =>
      have hap := hf.apart_fresh hl hs ho hp
      rw [ho, Owner.length] at hlen
      unfold Apart at hap
      omega
    | pages n =>
      obtain ⟨hbehind, hrun⟩ := hf.pages n ho
      obtain ⟨c, hc⟩ := hrun.run.aligned
      obtain ⟨c', hc'⟩ := hp.run.aligned
      unfold pageSize at *
      omega
  | run hj hx =>
    obtain ⟨-, hp⟩ := fresh_of_ne hpage hj hne
    cases ho : b.owner with
    | slab i =>
      have hap := hf.apart_fresh hl hs ho hp
      rw [ho, Owner.length] at hlen
      unfold Apart at hap
      omega
    | pages n =>
      obtain ⟨hbehind, hrun⟩ := hf.pages n ho
      obtain ⟨c, hc⟩ := hrun.run.aligned
      obtain ⟨c', hc'⟩ := hp.run.aligned
      unfold Spares at hspare
      rw [ho, serve_none h hj] at hspare
      dsimp only at hspare
      unfold pageSize at *
      omega

theorem slabAlloc_head (page : Nat) (hi : slabFor st size = some i)
    (hfree : (st.slabs i).firstFree ≠ 0) :
    (slabAlloc st size page).1 = (st.slabs i).firstFree := by
  unfold slabAlloc allocFromSlab
  rw [hi]
  dsimp only
  rw [if_neg hfree]

theorem slabAlloc_run (hi : slabFor st size = none) (hne : page ≠ 0) :
    (slabAlloc st size page).1 = page + pageSize := by
  unfold slabAlloc
  rw [hi]
  dsimp only
  rw [if_neg hne]

theorem JustFreed.cleared (hf : JustFreed st pages live b) (h : Inv st pages live)
    (hpage : PageOk st pages live size page) (hne : (slabAlloc st size page).1 ≠ 0)
    (hsize : size < 2 ^ 48) (hspare : ¬ Spares b size page) {k : Nat} (hk : 14 ≤ k) (hk' : k < 48)
    (hlen : k < b.owner.length) : (slabAlloc st size page).2.mem (b.addr + k) = 0 := by
  obtain ⟨i, ho, hi⟩ | ⟨n, ho, hi, hge, hlt⟩ := not_spares h hspare
  · have hzero := ((slabAlloc_inv h (by unfold pageSize; omega) hpage).2 hne).2
    obtain ⟨-, hb, hfirst⟩ := hf.slab i ho
    have haddr := slabAlloc_head page hi (by rw [hfirst]; exact hb)
    rw [haddr, hfirst, ownerFor_eq h, serve_some h hi, ← ho] at hzero
    exact hzero k hlen
  · obtain ⟨hne', hp⟩ := fresh_of_ne hpage hi hne
    obtain ⟨hbehind, hrun⟩ := hf.pages n ho
    obtain ⟨c, hc⟩ := hrun.run.aligned
    obtain ⟨c', hc'⟩ := hp.run.aligned
    have hfill : fill st.mem page ((divRoundup size pageSize + 1) * pageSize) (b.addr + k) = 0 := by
      refine fill_zero (by omega) ?_
      unfold pageSize at *
      omega
    unfold slabAlloc
    rw [hi]
    dsimp only
    rw [if_neg hne']
    dsimp only
    by_cases hin : page + 8 ≤ b.addr + k ∧ b.addr + k < page + 8 + 8
    · -- the last two bytes of a size below `2 ^ 48`
      rw [write, if_pos hin, Nat.div_eq_of_lt]
      · rfl
      · have hexp : 6 ≤ b.addr + k - (page + 8) := by
          unfold pageSize at *
          omega
        calc size < 256 ^ 6 := hsize
          _ ≤ 256 ^ (b.addr + k - (page + 8)) := Nat.pow_le_pow_right (by decide) hexp
    · rw [write_sameOff _ _ _ _ _ hin, write_sameOff _ _ _ _ _ (by omega)]
      exact hfill

theorem touched_of_block (h : Inv st pages live) (hpage : PageOk st pages live size page)
    (hne : (slabAlloc st size page).1 ≠ 0) (hsize : size < 2 ^ 48) {k : Nat} (hk : k < size) :
    Touched st size page ((slabAlloc st size page).1 + k) := by
  cases hi : slabFor st size with
  | some i =>
    obtain ⟨hlt, hle⟩ := slabFor_some h hi
    by_cases hfree : (st.slabs i).firstFree = 0
    · have hent := h.entSize hlt
      have haddr : (slabAlloc st size page).1 = page + entSizeOf i := by
        unfold slabAlloc allocFromSlab
        rw [hi]
        dsimp only
        rw [if_pos hfree, hent]
        unfold createSlab
        simp only [Function.update_self, alignUp_entSizeOf hlt]
      obtain ⟨-, -, hhalf⟩ := entSizeOf_bounds hlt
      rw [haddr]
      exact .page i hi hfree ⟨by omega, by omega⟩ (.inr (by omega))
    · rw [slabAlloc_head page hi hfree]
      exact .block i hi hfree ⟨by omega, by omega⟩
  | none =>
    obtain ⟨hne', -⟩ := fresh_of_ne hpage hi hne
    rw [slabAlloc_run hi hne']
    refine .run hi ⟨by omega, ?_⟩
    unfold divRoundup u64 pageSize
    omega

/-- The beginning of the next block lies apart from the header in the block that was freed. -/
theorem JustFreed.apart_header (hf : JustFreed st pages live b) (h : Inv st pages live)
    (hpage : PageOk st pages live size page) (hne : (slabAlloc st size page).1 ≠ 0)
    (hsize : 32 < size) (hsize' : size < 2 ^ 48) (hlen : 34 ≤ b.owner.length) :
    Apart (slabAlloc st size page).1 14 (b.addr + 14) 20 := by
  by_contra hap
  unfold Apart at hap
  -- a byte of both
  obtain ⟨k, k', hk, hk₁, hk₂, heq⟩ : ∃ k k', k < 14 ∧ 14 ≤ k' ∧ k' < 34 ∧
      (slabAlloc st size page).1 + k = b.addr + k' := by
    by_cases hle : (slabAlloc st size page).1 ≤ b.addr + 14
    · exact ⟨b.addr + 14 - (slabAlloc st size page).1, 14, by omega, by omega, by omega, by omega⟩
    · exact ⟨0, (slabAlloc st size page).1 - b.addr, by omega, by omega, by omega, by omega⟩
  by_cases hspare : Spares b size page
  · have ht := touched_of_block h hpage hne hsize' (show k < size by omega)
    rw [heq] at ht
    exact hf.not_touched h hpage hne hsize hspare hk₁ (by omega) (by omega) ht
  · obtain ⟨i, ho, hi⟩ | ⟨n, ho, hi, -⟩ := not_spares h hspare
    · obtain ⟨-, hb, hfirst⟩ := hf.slab i ho
      have haddr := slabAlloc_head page hi (by rw [hfirst]; exact hb)
      omega
    · obtain ⟨hne', hp⟩ := fresh_of_ne hpage hi hne
      obtain ⟨hbehind, hrun⟩ := hf.pages n ho
      obtain ⟨c, hc⟩ := hrun.run.aligned
      obtain ⟨c', hc'⟩ := hp.run.aligned
      rw [slabAlloc_run hi hne'] at heq
      unfold pageSize at *
      omega

/-! ## Memory that has never been used -/

/-- All pages in use are below an address. -/
structure Below (pages : List (Nat × Nat)) (live : List Block) (p : Nat) : Prop where
  pages : ∀ q ∈ pages, q.1 + pageSize ≤ p
  runs : ∀ b ∈ live, ∀ k, b.owner = .pages k → b.addr - pageSize + (k + 1) * pageSize ≤ p

theorem Below.fresh (h : Below pages live page) (hrun : PageRun page n) :
    Fresh pages live page n :=
  ⟨hrun, fun q hq => .inr (h.pages q hq), fun b hb k hk => .inr (h.runs b hb k hk)⟩

theorem PageRun.mono {k : Nat} (h : PageRun page n) (hk : k ≤ n) : PageRun page k :=
  ⟨h.ne_zero, h.aligned, Nat.le_trans (Nat.add_le_add_left (Nat.mul_le_mul_right _ hk) _) h.fits⟩

/-- **An allocation from memory that has never been used does not fail.** -/
theorem Below.alloc (h : Below pages live page) (hinv : Inv st pages live)
    (hrun : PageRun page n) (hn : 0 < n) (hsize : divRoundup size pageSize + 1 ≤ n) :
    PageOk st pages live size page ∧ (slabAlloc st size page).1 ≠ 0 ∧
      Below (pagesAfter st pages size page) live (page + n * pageSize) := by
  have hle : ∀ x ≤ page, x ≤ page + n * pageSize := fun x hx => Nat.le_trans hx (Nat.le_add_right _ _)
  have hpages : ∀ q ∈ pages, q.1 + pageSize ≤ page + n * pageSize := fun q hq =>
    hle _ (h.pages q hq)
  have hruns : ∀ b ∈ live, ∀ k, b.owner = .pages k →
      b.addr - pageSize + (k + 1) * pageSize ≤ page + n * pageSize := fun b hb k hk =>
    hle _ (h.runs b hb k hk)
  unfold PageOk pagesAfter
  cases hi : slabFor st size with
  | some i =>
    obtain ⟨hlt, hent⟩ := slabFor_some hinv hi
    have hfresh := h.fresh (hrun.mono hn)
    have hne : (slabAlloc st size page).1 ≠ 0 := by
      unfold slabAlloc
      rw [hi]
      exact (allocFromSlab_inv hinv hlt hent fun _ => hfresh).1
    refine ⟨fun _ => hfresh, hne, ?_, hruns⟩
    dsimp only
    split
    · intro q hq
      rcases List.mem_cons.mp hq with rfl | hq
      · exact Nat.add_le_add_left (Nat.le_mul_of_pos_left _ hn) _
      · exact hpages q hq
    · exact hpages
  | none =>
    refine ⟨.inr (h.fresh (hrun.mono hsize)), ?_, hpages, hruns⟩
    rw [slabAlloc_run hi hrun.ne_zero]
    unfold pageSize
    omega

end Lyre.Slabs
