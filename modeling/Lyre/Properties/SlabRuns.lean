import Lyre.Infra.Run
import Lyre.Properties.SlabOps

/-!
# Runs of the heap

`Config` adds to the state of `mm/slab.c` what has been handed out: the pages of the slabs, and the
live blocks with the size that was asked for and the slab or number of pages that serves it. A call
is served by the functions of the kernel; whoever has a block may store bytes in it at any time.

`slab_run_sound` says what holds after every sequence of calls, if the pages that `pmm.c` returns
are not in use.
-/

namespace Lyre.Slabs

open Infra Infra.Bytes

structure Config where
  st : State
  pages : List (Nat × Nat)
  live : List Block

inductive Call where
  | alloc (size page : Nat)
  | realloc (addr newSize page : Nat)
  | free (addr : Nat)
  /-- Whoever has the block stores a byte in it. -/
  | store (addr k v : Nat)
  deriving Repr

/-- The live block at an address. -/
def Config.block (c : Config) (addr : Nat) : Option Block := c.live.find? fun b => b.addr = addr

/-- The result of an allocation: a block that joins `live`, or `NULL`. -/
def Config.put (c : Config) (size page : Nat) (live : List Block) (r : Nat × State) : Config :=
  if r.1 = 0 then { c with st := r.2 }
  else ⟨r.2, pagesAfter c.st c.pages size page, ⟨r.1, size, ownerFor c.st size⟩ :: live⟩

/-- A call, with what `pmm.c` returns if it is asked. Calls on pointers that are neither live nor
`NULL` do not occur. -/
def exec (c : Config) : Call → Option Config
  | .alloc size page => some (c.put size page c.live (slabAlloc c.st size page))
  | .realloc addr newSize page =>
    let r := slabRealloc c.st addr newSize page
    if addr = 0 then some (c.put newSize page c.live r)
    else (c.block addr).map fun b =>
      if b.keeps newSize then ⟨r.2, c.pages, ⟨r.1, newSize, b.owner⟩ :: c.live.erase b⟩
      else c.put newSize page (c.live.erase b) r
  | .free addr =>
    let st := (slabFree c.st addr).2
    if addr = 0 then some { c with st }
    else (c.block addr).map fun b => { c with st, live := c.live.erase b }
  | .store addr k v =>
    (c.block addr).bind fun b =>
      if k < b.owner.length then
        some { c with st := { c.st with mem := write c.st.mem (addr + k) 1 v } }
      else none

/-- Sizes are far from the end of 64 bits, and pages are not in use when they are handed out. -/
def ok (c : Config) : Call → Prop
  | .alloc size page =>
    size + 2 * pageSize < 2 ^ 64 ∧ PageOk c.st c.pages c.live size page
  | .realloc addr newSize page =>
    newSize + 2 * pageSize < 2 ^ 64 ∧
      ((c.block addr).any (·.keeps newSize) ∨ PageOk c.st c.pages c.live newSize page)
  | .free _ => True
  | .store .. => True

section

variable {pages : List (Nat × Nat)} {live : List Block} {st : State} {c : Config} {p n size : Nat}

instance : Decidable (PageRun p n) :=
  decidable_of_iff (p ≠ 0 ∧ pageSize ∣ p ∧ p + n * pageSize ≤ 2 ^ 64)
    ⟨fun ⟨h₁, h₂, h₃⟩ => ⟨h₁, h₂, h₃⟩, fun ⟨h₁, h₂, h₃⟩ => ⟨h₁, h₂, h₃⟩⟩

instance (o : Owner) (P : Nat → Prop) [DecidablePred P] : Decidable (∀ k, o = .pages k → P k) :=
  match o with
  | .slab _ => .isTrue fun _ h => nomatch h
  | .pages n => decidable_of_iff (P n) ⟨fun h _ hk => Owner.pages.inj hk ▸ h, fun h => h n rfl⟩

instance : Decidable (Fresh pages live p n) :=
  decidable_of_iff (PageRun p n ∧ (∀ q ∈ pages, Apart p (n * pageSize) q.1 pageSize) ∧
      ∀ b ∈ live, ∀ k, b.owner = .pages k →
        Apart p (n * pageSize) (b.addr - pageSize) ((k + 1) * pageSize))
    ⟨fun ⟨h₁, h₂, h₃⟩ => ⟨h₁, h₂, h₃⟩, fun ⟨h₁, h₂, h₃⟩ => ⟨h₁, h₂, h₃⟩⟩

instance : Decidable (PageOk st pages live size p) :=
  match hf : slabFor st size with
  | some i =>
    decidable_of_iff ((st.slabs i).firstFree = 0 → Fresh pages live p 1) (by rw [PageOk, hf])
  | none =>
    decidable_of_iff (p = 0 ∨ Fresh pages live p (divRoundup size pageSize + 1))
      (by rw [PageOk, hf])

instance : ∀ call, Decidable (ok c call)
  | .alloc .. => inferInstanceAs (Decidable (_ ∧ _))
  | .realloc .. => inferInstanceAs (Decidable (_ ∧ _))
  | .free _ => inferInstanceAs (Decidable True)
  | .store .. => inferInstanceAs (Decidable True)

end

/-- After `slab_init`: each slab has a page. -/
def boot (st : State) (page : Nat → Nat) : Config :=
  ⟨slabInit st page, (List.range slabCount).reverse.map fun i => (page i, i), []⟩

/-- The pages that `slab_init` gets. -/
structure BootPages (page : Nat → Nat) : Prop where
  run : ∀ i < slabCount, PageRun (page i) 1
  inj : ∀ i < slabCount, ∀ j < slabCount, page i = page j → i = j

def Steps (c : Config) (call : Call) (c' : Config) : Prop := exec c call = some c'

variable {c c' : Config} {st : State} {page : Nat → Nat} {b : Block} {call : Call}

/-! ## The start -/

theorem slabInit_eq (st : State) (page : Nat → Nat) :
    slabInit st page =
      (List.range slabCount).foldl (fun s i => createSlab s i (entSizeOf i) (page i)) st := by
  have hlist : entSizes.zipIdx = (List.range slabCount).map fun i => (entSizeOf i, i) := by decide
  unfold slabInit
  rw [hlist, List.foldl_map]

theorem boot_inv (st : State) (hp : BootPages page) :
    Inv (boot st page).st (boot st page).pages (boot st page).live := by
  have hall : ∀ m ≤ slabCount, ∃ free : Nat → List Nat, (∀ i, m ≤ i → free i = []) ∧
      Layout ((List.range m).reverse.map fun i => (page i, i)) [] free ∧
      Stored m ((List.range m).foldl (fun s i => createSlab s i (entSizeOf i) (page i)) st)
        ((List.range m).reverse.map fun i => (page i, i)) [] free := by
    intro m hm
    induction m with
    | zero =>
      refine ⟨fun _ => [], fun _ _ => rfl, ?_, ?_⟩
      · constructor <;> simp [smalls]
      · constructor <;> simp
    | succ m ih =>
      obtain ⟨free, hempty, hl, hs⟩ := ih (by omega)
      have hf : Fresh ((List.range m).reverse.map fun i => (page i, i)) [] (page m) 1 := by
        refine ⟨hp.run m hm, fun q hq => ?_, fun b hb => absurd hb List.not_mem_nil⟩
        obtain ⟨i, hi, rfl⟩ := List.mem_map.mp hq
        have hi' := List.mem_range.mp (List.mem_reverse.mp hi)
        have hne : page m ≠ page i := fun he => by
          have := hp.inj m hm i (by omega) he
          omega
        obtain ⟨a, ha⟩ := (hp.run m hm).aligned
        obtain ⟨b, hb⟩ := (hp.run i (by omega)).aligned
        unfold Apart pageSize at *
        dsimp only
        omega
      rw [List.range_succ, List.foldl_append, List.reverse_append]
      refine ⟨_, fun i hi => ?_, hl.cons_page hf hm (hempty m (Nat.le_refl m)),
        hs.cons_page hl hf hm (by omega) fun j hj => by omega⟩
      rw [Function.update_of_ne (by omega)]
      exact hempty i (by omega)
  obtain ⟨free, -, hl, hs⟩ := hall slabCount (Nat.le_refl _)
  unfold boot
  rw [slabInit_eq]
  exact ⟨free, hl, hs⟩

/-! ## Steps -/

theorem mem_of_block {addr : Nat} (h : c.block addr = some b) : b ∈ c.live ∧ b.addr = addr := by
  have haddr := List.find?_some h
  exact ⟨List.mem_of_find?_eq_some h, of_decide_eq_true haddr⟩

theorem Inv.front (h : Inv c.st c.pages c.live) (hb : b ∈ c.live) :
    Inv c.st c.pages (b :: c.live.erase b) := h.perm (List.perm_cons_erase hb)

/-- No block is at `NULL`. -/
theorem Inv.block_null (h : Inv c.st c.pages c.live) : c.block 0 = none := by
  cases hb : c.block 0 with
  | none => rfl
  | some b =>
    obtain ⟨hmem, haddr⟩ := mem_of_block hb
    cases ho : b.owner with
    | slab i => exact absurd haddr (h.small_header hmem ho).1
    | pages n => exact absurd haddr (h.large_metadata hmem ho).1

theorem put_inv {size p : Nat} {live : List Block} {r : Nat × State}
    (h : Inv c.st c.pages c.live) (hnull : r.1 = 0 → r.2 = c.st)
    (hsome : r.1 ≠ 0 → Inv r.2 (pagesAfter c.st c.pages size p)
      (⟨r.1, size, ownerFor c.st size⟩ :: live)) :
    Inv (c.put size p live r).st (c.put size p live r).pages (c.put size p live r).live := by
  unfold Config.put
  by_cases h0 : r.1 = 0
  · rw [if_pos h0, hnull h0]
    exact h
  · rw [if_neg h0]
    exact hsome h0

theorem alloc_inv {size p : Nat} (h : Inv c.st c.pages c.live)
    (hsize : size + 2 * pageSize < 2 ^ 64) (hpage : PageOk c.st c.pages c.live size p)
    (hc : c' = c.put size p c.live (slabAlloc c.st size p)) : Inv c'.st c'.pages c'.live := by
  obtain ⟨hnull, hsome⟩ := slabAlloc_inv h hsize hpage
  rw [hc]
  exact put_inv h hnull fun h0 => (hsome h0).1

theorem realloc_inv {newSize p : Nat} (h : Inv c.st c.pages c.live) (hb : b ∈ c.live)
    (hsize : newSize + 2 * pageSize < 2 ^ 64)
    (hpage : b.keeps newSize ∨ PageOk c.st c.pages c.live newSize p) {r : Nat × State}
    (hr : r = slabRealloc c.st b.addr newSize p)
    (hc : c' = if b.keeps newSize then ⟨r.2, c.pages, ⟨r.1, newSize, b.owner⟩ :: c.live.erase b⟩
      else c.put newSize p (c.live.erase b) r) : Inv c'.st c'.pages c'.live := by
  have hfront := h.front hb
  by_cases hk : b.keeps newSize
  · obtain ⟨haddr, hinv⟩ := slabRealloc_keeps p hfront hk hsize
    rw [← hr] at haddr hinv
    rw [hc, if_pos hk, haddr]
    exact hinv
  · have hpage' := (hpage.resolve_left hk).perm (List.perm_cons_erase hb)
    obtain ⟨hnull, hsome⟩ := slabRealloc_moves hfront hk hsize hpage'
    rw [← hr] at hnull hsome
    rw [hc, if_neg hk]
    exact put_inv h hnull hsome

/-- **A call keeps the heap in order.** -/
theorem exec_inv (h : Inv c.st c.pages c.live) (hok : ok c call) (hstep : Steps c call c') :
    Inv c'.st c'.pages c'.live := by
  unfold Steps at hstep
  cases call with
  | alloc size p =>
    obtain rfl := Option.some.inj hstep
    exact alloc_inv h hok.1 hok.2 rfl
  | realloc addr newSize p =>
    simp only [exec] at hstep
    split at hstep
    · next h0 =>
      subst h0
      have hpage := hok.2.resolve_left (by rw [h.block_null, Option.any_none]; decide)
      exact alloc_inv h hok.1 hpage (Option.some.inj hstep).symm
    · obtain ⟨b, hb, hc⟩ := Option.map_eq_some_iff.mp hstep
      obtain ⟨hmem, rfl⟩ := mem_of_block hb
      refine realloc_inv h hmem hok.1 (hok.2.imp_left fun hany => ?_) rfl hc.symm
      rwa [hb, Option.any_some] at hany
  | free addr =>
    simp only [exec] at hstep
    split at hstep
    · next h0 =>
      subst h0
      obtain rfl := Option.some.inj hstep
      exact h
    · obtain ⟨b, hb, rfl⟩ := Option.map_eq_some_iff.mp hstep
      obtain ⟨hmem, rfl⟩ := mem_of_block hb
      exact slabFree_inv (h.front hmem)
  | store addr k v =>
    simp only [exec] at hstep
    obtain ⟨b, hb, hstep⟩ := Option.bind_eq_some_iff.mp hstep
    obtain ⟨hmem, rfl⟩ := mem_of_block hb
    split at hstep
    · next hk =>
      obtain rfl := Option.some.inj hstep
      exact h.of_sameOff hmem (write_sameOff _ _ _ _) (Nat.le_add_right _ _) (by omega)
    · simp at hstep

/-! ## Runs -/

/-- What the users of the heap rely on. -/
structure Sound (c : Config) : Prop where
  apart : c.live.Pairwise Block.Apart
  long : ∀ b ∈ c.live, b.size ≤ b.owner.length
  /-- The free list of each slab ends, and live blocks lie apart from its nodes. -/
  nodes : ∀ i < slabCount, ∃ l, Chain c.st.mem (c.st.slabs i).firstFree l ∧
    ∀ b ∈ c.live, ∀ x ∈ l, Apart b.addr b.owner.length x (entSizeOf i)
  headers : ∀ p ∈ c.pages, read c.st.mem p.1 8 = p.2 ∧
    ∀ b ∈ c.live, Apart b.addr b.owner.length p.1 8
  metadata : ∀ b' ∈ c.live, ∀ n, b'.owner = .pages n →
    ∀ b ∈ c.live, Apart b.addr b.owner.length (b'.addr - pageSize) pageSize
  zeros : ∀ size page, ok c (.alloc size page) → (slabAlloc c.st size page).1 ≠ 0 →
    ∀ k < (ownerFor c.st size).length,
      (slabAlloc c.st size page).2.mem ((slabAlloc c.st size page).1 + k) = 0
  freed : ∀ b ∈ c.live, (slabFree c.st b.addr).1 = b.owner.freed b.addr

theorem Inv.sound (h : Inv c.st c.pages c.live) : Sound c := by
  obtain ⟨free, hl, hs⟩ := id h
  refine ⟨hl.live_apart, fun b hb => hl.size_le hb, fun i hi => ⟨free i, hs.chain i hi, ?_⟩,
    fun p hp => ⟨hs.header p hp, fun b hb => hl.block_apart_header hb hp⟩,
    fun b' hb' n hn b hb => hl.block_apart_metadata hb hb' hn, ?_, fun b hb => slabFree_freed h hb⟩
  · exact fun b hb x hx => hl.block_apart_free hb hi hx
  · exact fun size page hok h0 => ((slabAlloc_inv h hok.1 hok.2).2 h0).2

/-- **Every state that calls lead to is sound.** -/
theorem slab_run_sound (hp : BootPages page) (hr : Reach Steps ok (boot st page) c) : Sound c :=
  (hr.invariant (I := fun c => Inv c.st c.pages c.live) (boot_inv st hp)
    fun _ _ _ h hok hs => exec_inv h hok hs).sound

/-- The first ten pages, and nothing in memory. -/
def sampleBoot : Config := boot ⟨fun _ => 0, fun _ => ⟨0, 0⟩⟩ fun i => (i + 1) * 4096

/-- Blocks of both kinds, moves to another slab, a change of size in place, and a slab that needs a
second page. -/
def sampleCalls : List Call :=
  [.alloc 24 0, .alloc 5000 0x100000, .store 12312 3 7, .realloc 12312 100 0,
    .realloc 0x101000 6000 0, .alloc 1024 0, .alloc 1024 0, .alloc 1024 0, .alloc 1024 0x200000,
    .free 0x101000]

/-- The calls are served, and five blocks are live. -/
theorem slab_run_sound_sample :
    ∃ c, Reach Steps ok sampleBoot c ∧ c.live.length = 5 ∧ Sound c := by
  have hlive : (runIf exec (fun c call => decide (ok c call)) sampleCalls sampleBoot).map
      (·.live.length) = some 5 := by decide +kernel
  obtain ⟨c, hrun, hlen⟩ := Option.map_eq_some_iff.mp hlive
  have hreach : Reach Steps ok sampleBoot c :=
    (Reach.of_runIf .refl hrun).mono fun _ _ h => of_decide_eq_true h
  refine ⟨c, hreach, hlen, slab_run_sound ⟨by decide, ?_⟩ hreach⟩
  intro i _ j _ he
  omega

end Lyre.Slabs
