import Lyre.Mm.Slab
import Mathlib.Data.List.Nodup
import Mathlib.Data.List.Pairwise
import Mathlib.Data.List.Perm.Basic

/-!
# Where the blocks of the heap are

A page of a slab begins with its header; behind it are blocks of one size, each of them free or
live. A large block has a run of pages of its own. `Layout` says where everything is, `Stored` what
memory says about it: headers, links of the free lists, and metadata.

Every piece lies apart from every other one, so that writing to one of them leaves what is stored
in the others alone.
-/

namespace Lyre.Slabs

open Infra.Bytes

/-! ## Block sizes -/

/-- The block size of a slab. -/
def entSizeOf (i : Nat) : Nat := entSizes.getD i 0

theorem entSizeOf_bounds {i : Nat} (h : i < slabCount) :
    8 ≤ entSizeOf i ∧ 8 ∣ entSizeOf i ∧ 2 * entSizeOf i ≤ pageSize := by
  have hall : ∀ i < slabCount, 8 ≤ entSizeOf i ∧ 8 ∣ entSizeOf i ∧ 2 * entSizeOf i ≤ pageSize := by
    decide
  exact hall i h

theorem alignUp_entSizeOf {i : Nat} (h : i < slabCount) : alignUp 8 (entSizeOf i) = entSizeOf i := by
  have hall : ∀ i < slabCount, alignUp 8 (entSizeOf i) = entSizeOf i := by decide
  exact hall i h

/-! ## Blocks and pages -/

/-- Who serves a block. -/
inductive Owner where
  | slab (i : Nat)
  | pages (n : Nat)
  deriving DecidableEq, Repr

/-- How many bytes a block has. -/
def Owner.length : Owner → Nat
  | .slab i => entSizeOf i
  | .pages n => n * pageSize

/-- A block in somebody's hands, with the size that was asked for. -/
structure Block where
  addr : Nat
  size : Nat
  owner : Owner
  deriving DecidableEq, Repr

def Block.Apart (b b' : Block) : Prop :=
  Infra.Bytes.Apart b.addr b.owner.length b'.addr b'.owner.length

/-- The live blocks of a slab. -/
def smalls (live : List Block) (i : Nat) : List Nat :=
  live.filterMap fun b => if b.owner = .slab i then some b.addr else none

/-- `x` is the place of a block of a slab. -/
def Slot (pages : List (Nat × Nat)) (i x : Nat) : Prop :=
  ∃ p k, (p, i) ∈ pages ∧ 1 ≤ k ∧ x = p + k * entSizeOf i ∧ (k + 1) * entSizeOf i ≤ pageSize

/-- A run of pages that `pmm.c` can hand out. -/
structure PageRun (p n : Nat) : Prop where
  ne_zero : p ≠ 0
  aligned : pageSize ∣ p
  fits : p + n * pageSize ≤ 2 ^ 64

/-- A large block: its run of pages begins one page before it. -/
structure Large (pages : List (Nat × Nat)) (b : Block) (n : Nat) : Prop where
  run : PageRun (b.addr - pageSize) (n + 1)
  behind : pageSize ≤ b.addr
  count : divRoundup b.size pageSize = n
  bound : b.size + 2 * pageSize < 2 ^ 64
  pages : ∀ p ∈ pages, Apart (b.addr - pageSize) ((n + 1) * pageSize) p.1 pageSize

/-- The runs of two large blocks lie apart. -/
def RunsApart (b b' : Block) : Prop := ∀ n n', b.owner = .pages n → b'.owner = .pages n' →
  Apart (b.addr - pageSize) ((n + 1) * pageSize) (b'.addr - pageSize) ((n' + 1) * pageSize)

instance : Std.Symm RunsApart := ⟨fun _ _ h n n' hn hn' => (h n' n hn' hn).symm⟩

/-- Where everything is: the pages of the slabs, each with the index of its slab, the live blocks,
and the free blocks of each slab. -/
structure Layout (pages : List (Nat × Nat)) (live : List Block) (free : Nat → List Nat) :
    Prop where
  page : ∀ p ∈ pages, PageRun p.1 1 ∧ p.2 < slabCount
  nodup : (pages.map Prod.fst).Nodup
  blocks : ∀ i < slabCount, (free i ++ smalls live i).Nodup
  slot : ∀ i < slabCount, ∀ x ∈ free i ++ smalls live i, Slot pages i x
  small : ∀ b ∈ live, ∀ i, b.owner = .slab i → i < slabCount ∧ b.size ≤ entSizeOf i
  large : ∀ b ∈ live, ∀ n, b.owner = .pages n → Large pages b n
  runs : live.Pairwise RunsApart

/-- What memory and the first `m` slabs say about it. -/
structure Stored (m : Nat) (st : State) (pages : List (Nat × Nat)) (live : List Block)
    (free : Nat → List Nat) : Prop where
  entSize : ∀ i < m, (st.slabs i).entSize = entSizeOf i
  header : ∀ p ∈ pages, read st.mem p.1 8 = p.2
  chain : ∀ i < m, Chain st.mem (st.slabs i).firstFree (free i)
  metadata : ∀ b ∈ live, ∀ n, b.owner = .pages n →
    read st.mem (b.addr - pageSize) 8 = n ∧ read st.mem (b.addr - pageSize + 8) 8 = b.size

/-! ## Slots -/

section

variable {pages : List (Nat × Nat)} {i j x y : Nat}

theorem place_bounds {p k e : Nat} (hk : 1 ≤ k) (hle : (k + 1) * e ≤ pageSize) :
    p + e ≤ p + k * e ∧ p + k * e + e ≤ p + pageSize := by
  have h1 : 1 * e ≤ k * e := Nat.mul_le_mul_right _ hk
  rw [Nat.add_mul] at hle
  omega

theorem Slot.bounds (h : Slot pages i x) : ∃ p, (p, i) ∈ pages ∧ p + entSizeOf i ≤ x ∧
    x + entSizeOf i ≤ p + pageSize := by
  obtain ⟨p, k, hp, hk, rfl, hle⟩ := h
  exact ⟨p, hp, place_bounds hk hle⟩

theorem slots_apart {p k l e : Nat} (h : p + k * e ≠ p + l * e) :
    Apart (p + k * e) e (p + l * e) e := by
  unfold Apart
  rcases Nat.lt_trichotomy k l with hlt | rfl | hlt
  · have := Nat.mul_le_mul_right e (Nat.succ_le_of_lt hlt)
    rw [Nat.succ_mul] at this
    omega
  · exact absurd rfl h
  · have := Nat.mul_le_mul_right e (Nat.succ_le_of_lt hlt)
    rw [Nat.succ_mul] at this
    omega

/-- The pages are page-aligned and each belongs to one slab. -/
structure Pages (pages : List (Nat × Nat)) : Prop where
  page : ∀ p ∈ pages, PageRun p.1 1 ∧ p.2 < slabCount
  nodup : (pages.map Prod.fst).Nodup

theorem Pages.apart {p q : Nat × Nat} (h : Pages pages) (hp : p ∈ pages) (hq : q ∈ pages)
    (hne : p.1 ≠ q.1) : p.1 + pageSize ≤ q.1 ∨ q.1 + pageSize ≤ p.1 := by
  obtain ⟨a, ha⟩ := (h.page p hp).1.aligned
  obtain ⟨b, hb⟩ := (h.page q hq).1.aligned
  rw [ha, hb] at hne ⊢
  unfold pageSize at *
  omega

theorem Pages.inj {p : Nat} (h : Pages pages) (hi : (p, i) ∈ pages) (hj : (p, j) ∈ pages) :
    i = j := by
  have := List.inj_on_of_nodup_map h.nodup hi hj rfl
  exact (Prod.mk.inj this).2

theorem Slot.apart_header {q : Nat × Nat} (h : Pages pages) (hx : Slot pages i x)
    (hq : q ∈ pages) : Apart x (entSizeOf i) q.1 8 := by
  obtain ⟨p, hp, hge, hle⟩ := hx.bounds
  have he : 8 ≤ entSizeOf i := (entSizeOf_bounds (h.page _ hp).2).1
  unfold Apart
  by_cases hpq : p = q.1
  · omega
  · have := h.apart hp hq hpq
    unfold pageSize at *
    omega

theorem Slot.inj (h : Pages pages) (hx : Slot pages i x) (hy : Slot pages j x) : i = j := by
  obtain ⟨p, hp, hpge, hple⟩ := hx.bounds
  obtain ⟨q, hq, hqge, hqle⟩ := hy.bounds
  have hi : 8 ≤ entSizeOf i := (entSizeOf_bounds (h.page _ hp).2).1
  have hj : 8 ≤ entSizeOf j := (entSizeOf_bounds (h.page _ hq).2).1
  by_cases hpq : p = q
  · subst hpq
    exact h.inj hp hq
  · have hap : p + pageSize ≤ q ∨ q + pageSize ≤ p := h.apart hp hq hpq
    omega

theorem Slot.apart_slot (h : Pages pages) (hx : Slot pages i x) (hy : Slot pages j y)
    (hne : x ≠ y) : Apart x (entSizeOf i) y (entSizeOf j) := by
  obtain ⟨p, k, hp, hk, rfl, hkle⟩ := hx
  obtain ⟨q, l, hq, hl, rfl, hlle⟩ := hy
  by_cases hpq : p = q
  · subst hpq
    obtain rfl := h.inj hp hq
    exact slots_apart hne
  · have hap : p + pageSize ≤ q ∨ q + pageSize ≤ p := h.apart hp hq hpq
    have hx := place_bounds (p := p) hk hkle
    have hy := place_bounds (p := q) hl hlle
    unfold Apart
    omega

end

section

variable {pages : List (Nat × Nat)} {live : List Block} {free : Nat → List Nat} {b b' : Block}
  {i n x : Nat}

theorem Layout.toPages (h : Layout pages live free) : Pages pages := ⟨h.page, h.nodup⟩

theorem Layout.slot_apart_run (h : Layout pages live free) (hx : Slot pages i x) (hb : b ∈ live)
    (hn : b.owner = .pages n) :
    Apart x (entSizeOf i) (b.addr - pageSize) ((n + 1) * pageSize) := by
  obtain ⟨p, hp, hge, hle⟩ := hx.bounds
  have hap := ((h.large b hb n hn).pages _ hp).symm
  exact hap.mono (by omega) (by omega) (Nat.le_refl _) (Nat.le_refl _)

theorem mem_smalls : x ∈ smalls live i ↔ ∃ b ∈ live, b.owner = .slab i ∧ b.addr = x := by
  unfold smalls
  rw [List.mem_filterMap]
  constructor
  · rintro ⟨b, hb, h⟩
    split at h
    · next ho => exact ⟨b, hb, ho, Option.some.inj h⟩
    · simp at h
  · rintro ⟨b, hb, ho, rfl⟩
    exact ⟨b, hb, if_pos ho⟩

theorem Layout.slot_of_live (h : Layout pages live free) (hb : b ∈ live) (hi : b.owner = .slab i) :
    Slot pages i b.addr :=
  h.slot i (h.small b hb i hi).1 _
    (List.mem_append_right _ (mem_smalls.mpr ⟨b, hb, hi, rfl⟩))

theorem Large.apart {a k : Nat} (h : Large pages b n)
    (hap : Apart a k (b.addr - pageSize) ((n + 1) * pageSize)) :
    Apart a k b.addr (n * pageSize) := by
  have hbehind := h.behind
  refine hap.mono (Nat.le_refl _) (Nat.le_refl _) (by omega) ?_
  rw [Nat.add_mul]
  omega

theorem Layout.block_apart_header (h : Layout pages live free) (hb : b ∈ live) {q : Nat × Nat}
    (hq : q ∈ pages) : Apart b.addr b.owner.length q.1 8 := by
  cases ho : b.owner with
  | slab i => exact (h.slot_of_live hb ho).apart_header h.toPages hq
  | pages n =>
    have hl := h.large b hb n ho
    have hap := (hl.apart (hl.pages q hq).symm).symm
    exact hap.mono (Nat.le_refl _) (Nat.le_refl _) (Nat.le_refl _) (by unfold pageSize; omega)

theorem Layout.block_apart_free (h : Layout pages live free) (hb : b ∈ live) (hi : i < slabCount)
    (hx : x ∈ free i) : Apart b.addr b.owner.length x (entSizeOf i) := by
  have hslot := h.slot i hi x (List.mem_append_left _ hx)
  cases ho : b.owner with
  | slab j =>
    refine (h.slot_of_live hb ho).apart_slot h.toPages hslot ?_
    rintro rfl
    obtain rfl := hslot.inj h.toPages (h.slot_of_live hb ho)
    exact List.disjoint_of_nodup_append (h.blocks i hi) hx (mem_smalls.mpr ⟨b, hb, ho, rfl⟩)
  | pages n => exact ((h.large b hb n ho).apart (h.slot_apart_run hslot hb ho)).symm

theorem Layout.smalls_ne (h : Layout pages live free) : live.Pairwise fun b b' =>
    ∀ i, b.owner = .slab i → b'.owner = .slab i → b.addr ≠ b'.addr := by
  have hall : ∀ i, i < slabCount → live.Pairwise fun b b' =>
      b.owner = .slab i → b'.owner = .slab i → b.addr ≠ b'.addr := by
    intro i hi
    have hn := (List.nodup_append.mp (h.blocks i hi)).2.1
    unfold smalls List.Nodup at hn
    rw [List.pairwise_filterMap] at hn
    exact hn.imp fun {b b'} hne ho ho' => hne _ (if_pos ho) _ (if_pos ho')
  rw [List.pairwise_iff_getElem]
  intro k l hk hl hkl i ho ho'
  have hi := (h.small _ (List.getElem_mem hk) i ho).1
  exact List.pairwise_iff_getElem.mp (hall i hi) k l hk hl hkl ho ho'

theorem Layout.runs_apart (h : Layout pages live free) (hb : b ∈ live) (hb' : b' ∈ live)
    (hne : b ≠ b') : RunsApart b b' :=
  h.runs.forall hb hb' hne

/-- **Live blocks lie apart.** -/
theorem Layout.live_apart (h : Layout pages live free) : live.Pairwise Block.Apart := by
  refine List.Pairwise.imp_of_mem ?_ (h.smalls_ne.and h.runs)
  rintro b b' hb hb' ⟨hne, hruns⟩
  unfold Block.Apart
  cases ho : b.owner with
  | slab i =>
    have hx := h.slot_of_live hb ho
    cases ho' : b'.owner with
    | slab j =>
      have hy := h.slot_of_live hb' ho'
      refine hx.apart_slot h.toPages hy fun he => ?_
      obtain rfl := hx.inj h.toPages (he ▸ hy)
      exact hne i ho ho' he
    | pages m => exact (h.large b' hb' m ho').apart (h.slot_apart_run hx hb' ho')
  | pages n =>
    cases ho' : b'.owner with
    | slab j =>
      exact ((h.large b hb n ho).apart (h.slot_apart_run (h.slot_of_live hb' ho') hb ho)).symm
    | pages m =>
      have hap := (h.large b' hb' m ho').apart (hruns n m ho ho')
      exact ((h.large b hb n ho).apart hap.symm).symm

/-- A block lies apart from the page with the metadata of every large block, its own included. -/
theorem Layout.block_apart_metadata (h : Layout pages live free) (hb : b ∈ live)
    (hb' : b' ∈ live) (hn : b'.owner = .pages n) :
    Apart b.addr b.owner.length (b'.addr - pageSize) pageSize := by
  by_cases heq : b = b'
  · subst heq
    have := (h.large b hb n hn).behind
    unfold Apart
    omega
  · have hrun : Apart b.addr b.owner.length (b'.addr - pageSize) ((n + 1) * pageSize) := by
      cases ho : b.owner with
      | slab i => exact h.slot_apart_run (h.slot_of_live hb ho) hb' hn
      | pages k => exact ((h.large b hb k ho).apart (h.runs_apart hb hb' heq k n ho hn).symm).symm
    rw [Nat.add_mul] at hrun
    exact hrun.mono (Nat.le_refl _) (Nat.le_refl _) (Nat.le_refl _) (by omega)

end

/-! ## Changes of memory -/

section

variable {pages : List (Nat × Nat)} {live : List Block} {free : Nat → List Nat} {m : Nat}
  {st : State} {a n : Nat} {b : Block}

/-- An interval that holds no header, no link of a free list and no metadata. -/
structure Clear (pages : List (Nat × Nat)) (live : List Block) (free : Nat → List Nat) (a n : Nat) :
    Prop where
  header : ∀ p ∈ pages, Apart a n p.1 8
  node : ∀ i < slabCount, ∀ x ∈ free i, Apart a n x 8
  metadata : ∀ b ∈ live, ∀ k, b.owner = .pages k → Apart a n (b.addr - pageSize) 16

theorem Clear.mono {a' n' : Nat} (h : Clear pages live free a n) (ha : a ≤ a')
    (hn : a' + n' ≤ a + n) : Clear pages live free a' n' :=
  ⟨fun p hp => (h.header p hp).mono ha hn (Nat.le_refl _) (Nat.le_refl _),
    fun i hi x hx => (h.node i hi x hx).mono ha hn (Nat.le_refl _) (Nat.le_refl _),
    fun b hb k hk => (h.metadata b hb k hk).mono ha hn (Nat.le_refl _) (Nat.le_refl _)⟩

theorem Clear.tail (h : Clear pages (b :: live) free a n) : Clear pages live free a n :=
  ⟨h.header, h.node, fun b' hb' => h.metadata b' (List.mem_cons_of_mem b hb')⟩

theorem Layout.clear (h : Layout pages live free) (hb : b ∈ live) :
    Clear pages live free b.addr b.owner.length := by
  refine ⟨fun p hp => h.block_apart_header hb hp, fun i hi x hx => ?_, fun b' hb' k hk => ?_⟩
  · have := h.block_apart_free hb hi hx
    exact this.mono (Nat.le_refl _) (Nat.le_refl _) (Nat.le_refl _)
      (by have := (entSizeOf_bounds hi).1; omega)
  · have := h.block_apart_metadata hb hb' hk
    exact this.mono (Nat.le_refl _) (Nat.le_refl _) (Nat.le_refl _) (by unfold pageSize; omega)

/-- **What is stored is not touched by a change of a clear interval.** -/
theorem Stored.of_sameOff (h : Stored m st pages live free) (hm : m ≤ slabCount) {mem : Mem}
    (hs : SameOff st.mem mem a n) (hc : Clear pages live free a n) :
    Stored m { st with mem } pages live free := by
  refine ⟨h.entSize, fun p hp => ?_, fun i hi => ?_, fun b hb k hk => ?_⟩
  · rw [← h.header p hp]
    exact read_sameOff hs (hc.header p hp)
  · exact (h.chain i hi).congr fun x hx => read_sameOff hs (hc.node i (by omega) x hx)
  · have hap := hc.metadata b hb k hk
    obtain ⟨h₁, h₂⟩ := h.metadata b hb k hk
    refine ⟨h₁ ▸ read_sameOff hs ?_, h₂ ▸ read_sameOff hs ?_⟩
    · exact hap.mono (Nat.le_refl _) (Nat.le_refl _) (Nat.le_refl _) (by omega)
    · exact hap.mono (Nat.le_refl _) (Nat.le_refl _) (by omega) (by omega)

end

end Lyre.Slabs
