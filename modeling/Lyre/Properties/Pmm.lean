import Lyre.Infra.Run
import Lyre.Mm.Pmm

/-!
# The page allocator hands out every page once

The search of `inner_alloc` carries a counter of clear bits just passed; `innerAllocLoop_spec`
says what it means. From it comes one statement per function (`pmmAllocNozero_spec`,
`bitmapTest_resetRange`), and from these the invariant of a whole run of allocations and frees:
the clear bits are the pages free at the start minus the pages of the blocks still held.
-/

namespace Lyre.Pmm

open Infra

/-! ## Ranges of bits -/

@[simp] theorem bitmapTest_setRange (bitmap : Bitmap) (page i : Nat) : ∀ n : Nat,
    bitmapTest (setRange bitmap page n) i
      = (decide (page ≤ i ∧ i < page + n) || bitmapTest bitmap i)
  | 0 => by
    have hno : ¬ (page ≤ i ∧ i < page + 0) := by omega
    rw [setRange, decide_eq_false hno, Bool.false_or]
  | n + 1 => by
    rw [setRange, bitmapTest_bitmapSet, bitmapTest_setRange bitmap page i n, ← Bool.or_assoc,
      ← Bool.decide_or]
    congr 2
    rw [eq_iff_iff]
    omega

@[simp] theorem bitmapTest_resetRange (bitmap : Bitmap) (page i : Nat) : ∀ n : Nat,
    bitmapTest (resetRange bitmap page n) i
      = (!decide (page ≤ i ∧ i < page + n) && bitmapTest bitmap i)
  | 0 => by simp [resetRange]; omega
  | n + 1 => by
    rw [resetRange, bitmapTest_bitmapReset, bitmapTest_resetRange bitmap page i n,
      ← Bool.and_assoc, ← Bool.not_or, ← Bool.decide_or]
    congr 3
    rw [eq_iff_iff]
    omega

/-! ## The search -/

/-- All `n` pages from `page` on are free. -/
def ClearRun (bitmap : Bitmap) (page n : Nat) : Prop :=
  ∀ i, page ≤ i → i < page + n → bitmapTest bitmap i = false

/-- What the search loop reports: a clear run that ends at the cursor, or the limit reached. -/
def LoopSpec (bitmap : Bitmap) (pages stop : Nat) : Option Nat × Nat → Prop
  | (some page, last) => page + pages = last ∧ last ≤ stop ∧ ClearRun bitmap page pages
  | (none, last) => last = stop

/--
**What the search loop finds.** `p` counts the clear bits directly below the cursor, so a run
reported when it reaches `pages` is clear throughout. A search that fails stops at the limit.
-/
theorem innerAllocLoop_spec (bitmap : Bitmap) (pages : Nat) : ∀ turns last p : Nat,
    p < pages → p ≤ last → ClearRun bitmap (last - p) p →
    LoopSpec bitmap pages (last + turns) (innerAllocLoop bitmap pages turns last p)
  | 0, last, p, _, _, _ => rfl
  | turns + 1, last, p, hp, hpl, hrun => by
    rw [innerAllocLoop, show last + (turns + 1) = last + 1 + turns by omega]
    split
    · next hclear =>
      have hrun' : ClearRun bitmap (last + 1 - (p + 1)) (p + 1) := by
        intro i h1 h2
        by_cases hi : i = last
        · rw [hi]; exact hclear
        · exact hrun i (by omega) (by omega)
      split
      · next heq =>
        subst heq
        exact ⟨by omega, by omega, hrun'⟩
      · next hne =>
        exact innerAllocLoop_spec bitmap pages turns (last + 1) (p + 1) (by omega) (by omega) hrun'
    · -- a set bit ends the run: the counter starts again
      exact innerAllocLoop_spec bitmap pages turns (last + 1) 0 (by omega) (by omega)
        (fun i h1 h2 => by omega)

/-- The cursor stays inside the bitmap and page 0 is never free. -/
structure Good (s : State) : Prop where
  cursor : s.lastUsedIndex ≤ s.highestPageIndex
  zero : bitmapTest s.bitmap 0 = true

/-- What a call that looks for `n` pages returns and leaves behind. -/
def AllocSpec (s : State) (n : Nat) (r : Nat × State) : Prop :=
  r.2.highestPageIndex = s.highestPageIndex ∧ r.2.lastUsedIndex ≤ s.highestPageIndex ∧
    ((r.1 = 0 ∧ r.2.bitmap = s.bitmap) ∨
      ∃ page, page ≠ 0 ∧ r.1 = page * pageSize ∧ page + n ≤ s.highestPageIndex ∧
        ClearRun s.bitmap page n ∧ r.2.bitmap = setRange s.bitmap page n)

theorem AllocSpec.congr {s t : State} {n : Nat} {r : Nat × State} (hb : s.bitmap = t.bitmap)
    (hh : s.highestPageIndex = t.highestPageIndex) (h : AllocSpec s n r) : AllocSpec t n r := by
  unfold AllocSpec at *
  rw [← hb, ← hh]
  exact h

theorem innerAlloc_spec {s : State} {n limit : Nat} (hz : bitmapTest s.bitmap 0 = true)
    (hn : 1 ≤ n) (hcur : s.lastUsedIndex ≤ s.highestPageIndex)
    (hlim : limit ≤ s.highestPageIndex) : AllocSpec s n (innerAlloc s n limit) := by
  have hloop := innerAllocLoop_spec s.bitmap n (limit - s.lastUsedIndex) s.lastUsedIndex 0
    (by omega) (by omega) (fun i h1 h2 => by omega)
  unfold innerAlloc
  rcases hr : innerAllocLoop s.bitmap n (limit - s.lastUsedIndex) s.lastUsedIndex 0
    with ⟨_ | page, last⟩
  · rw [hr] at hloop
    have hlast : last = s.lastUsedIndex + (limit - s.lastUsedIndex) := hloop
    refine ⟨rfl, ?_, Or.inl ⟨rfl, rfl⟩⟩
    show last ≤ s.highestPageIndex
    omega
  · rw [hr] at hloop
    obtain ⟨hlast, hle, hclear⟩ := hloop
    have hpage : page ≠ 0 := by
      intro h0
      have := hclear 0 (by omega) (by omega)
      rw [hz] at this
      simp at this
    refine ⟨rfl, ?_, Or.inr ⟨page, hpage, rfl, by omega, hclear, rfl⟩⟩
    show last ≤ s.highestPageIndex
    omega

/-- Neither the first pass nor the wrapped second one returns a page that was taken. -/
theorem pmmAllocNozero_spec {s : State} {n : Nat} (hg : Good s) (hn : 1 ≤ n) :
    AllocSpec s n (pmmAllocNozero s n) := by
  have h₁ := innerAlloc_spec hg.zero hn hg.cursor (Nat.le_refl _)
  unfold pmmAllocNozero
  rcases hr : innerAlloc s n s.highestPageIndex with ⟨ret, s₁⟩
  rw [hr] at h₁
  obtain ⟨hhi, hcur, hcase⟩ := h₁
  simp only at hhi hcur hcase ⊢
  by_cases hret : ret = 0
  · -- the second pass: cursor at zero, limit where the first one started
    rw [if_pos hret]
    have hb : s₁.bitmap = s.bitmap := by
      rcases hcase with ⟨_, hb⟩ | ⟨page, hp, hpe, _⟩
      · exact hb
      · exact absurd (hpe.symm.trans hret) (Nat.mul_ne_zero hp (by decide))
    have hzero : bitmapTest s₁.bitmap 0 = true := by rw [hb]; exact hg.zero
    have hlim : s.lastUsedIndex ≤ s₁.highestPageIndex := by rw [hhi]; exact hg.cursor
    exact AllocSpec.congr hb hhi
      (innerAlloc_spec (s := { s₁ with lastUsedIndex := 0 }) hzero hn (Nat.zero_le _) hlim)
  · rw [if_neg hret]
    exact ⟨hhi, hcur, hcase⟩

/-! ## Runs of allocations and frees -/

/-- A block as the caller knows it: its address and its number of pages. -/
structure Block where
  addr : Nat
  pages : Nat
  deriving DecidableEq, Repr

/-- Page `i` belongs to the block. -/
def Block.Covers (b : Block) (i : Nat) : Prop :=
  b.addr / pageSize ≤ i ∧ i < b.addr / pageSize + b.pages

/-- The allocator together with the blocks its callers hold. -/
structure Config where
  st : State
  live : List Block

inductive Call
  | alloc (pages : Nat)
  | free (b : Block)

/-- One call. Only blocks that are held may be freed; a failed allocation adds no block. -/
inductive Step : Config → Call → Config → Prop
  | alloc {c : Config} {n : Nat} (hn : 1 ≤ n) :
      Step c (.alloc n)
        { st := (pmmAllocNozero c.st n).2
          live := if (pmmAllocNozero c.st n).1 = 0 then c.live
            else ⟨(pmmAllocNozero c.st n).1, n⟩ :: c.live }
  | free {c : Config} {b : Block} (hb : b ∈ c.live) :
      Step c (.free b) { st := pmmFree c.st b.addr b.pages, live := c.live.erase b }

/-- No page belongs to both blocks. -/
def Block.Apart (b b' : Block) : Prop := ∀ i, ¬ (b.Covers i ∧ b'.Covers i)

/-- The invariant of a run that started from `s₀`. -/
structure Inv (s₀ : State) (c : Config) : Prop where
  good : Good c.st
  highest : c.st.highestPageIndex = s₀.highestPageIndex
  nonempty : ∀ b ∈ c.live, 1 ≤ b.pages
  origin : ∀ b ∈ c.live, ∀ i, b.Covers i → bitmapTest s₀.bitmap i = false
  apart : c.live.Pairwise Block.Apart
  clear_iff : ∀ i, bitmapTest c.st.bitmap i = false ↔
    bitmapTest s₀.bitmap i = false ∧ ∀ b ∈ c.live, ¬ b.Covers i

theorem covers_alloc {page n i : Nat} :
    (Block.mk (page * pageSize) n).Covers i ↔ page ≤ i ∧ i < page + n := by
  simp [Block.Covers, pageSize]

theorem Inv.taken {s₀ : State} {c : Config} (h : Inv s₀ c) {b : Block} (hb : b ∈ c.live)
    {i : Nat} (hi : b.Covers i) : bitmapTest c.st.bitmap i = true := by
  by_contra hc
  exact ((h.clear_iff i).mp (by simpa using hc)).2 b hb hi

theorem inv_alloc {s₀ : State} {c : Config} {n : Nat} (h : Inv s₀ c) (hn : 1 ≤ n) :
    Inv s₀ { st := (pmmAllocNozero c.st n).2
             live := if (pmmAllocNozero c.st n).1 = 0 then c.live
               else ⟨(pmmAllocNozero c.st n).1, n⟩ :: c.live } := by
  obtain ⟨hhi, hcur, hcase⟩ := pmmAllocNozero_spec h.good hn
  rcases hcase with ⟨h0, hb⟩ | ⟨page, hp, hpe, hle, hclear, hb⟩
  · -- nothing found: only the cursor moved
    rw [if_pos h0]
    exact ⟨⟨by rw [hhi]; exact hcur, by rw [hb]; exact h.good.zero⟩, by rw [hhi]; exact h.highest,
      h.nonempty, h.origin, h.apart, by rw [hb]; exact h.clear_iff⟩
  · have hne : (pmmAllocNozero c.st n).1 ≠ 0 := by
      rw [hpe]
      exact Nat.mul_ne_zero hp (by decide)
    rw [if_neg hne, hpe]
    refine ⟨⟨by rw [hhi]; exact hcur, ?_⟩, by rw [hhi]; exact h.highest, ?_, ?_, ?_, ?_⟩
    · show bitmapTest (pmmAllocNozero c.st n).2.bitmap 0 = true
      rw [hb, bitmapTest_setRange, h.good.zero, Bool.or_true]
    · intro b hmem
      rcases List.mem_cons.mp hmem with rfl | hmem
      · exact hn
      · exact h.nonempty b hmem
    · intro b hmem i hi
      rcases List.mem_cons.mp hmem with rfl | hmem
      · obtain ⟨h1, h2⟩ := covers_alloc.mp hi
        exact ((h.clear_iff i).mp (hclear i h1 h2)).1
      · exact h.origin b hmem i hi
    · refine List.pairwise_cons.mpr ⟨?_, h.apart⟩
      intro b hmem i hi
      -- a page of the new run was clear, a page of a held block was not
      have hc := hclear i (covers_alloc.mp hi.1).1 (covers_alloc.mp hi.1).2
      rw [h.taken hmem hi.2] at hc
      simp at hc
    · intro i
      show bitmapTest (pmmAllocNozero c.st n).2.bitmap i = false ↔ _
      rw [hb, bitmapTest_setRange, Bool.or_eq_false_iff, h.clear_iff i]
      simp only [decide_eq_false_iff_not, List.forall_mem_cons, covers_alloc]
      tauto

theorem inv_free {s₀ : State} {c : Config} {b : Block} (hz : bitmapTest s₀.bitmap 0 = true)
    (h : Inv s₀ c) (hb : b ∈ c.live) :
    Inv s₀ { st := pmmFree c.st b.addr b.pages, live := c.live.erase b } := by
  have hperm := List.perm_cons_erase hb
  -- the freed block is apart from the rest of the list
  obtain ⟨hrest, hapart⟩ : (∀ x ∈ c.live.erase b, Block.Apart b x) ∧
      (c.live.erase b).Pairwise Block.Apart :=
    List.pairwise_cons.mp (h.apart.perm hperm fun hxy i hi => hxy i ⟨hi.2, hi.1⟩)
  have hmem : ∀ {x : Block}, x ∈ c.live.erase b → x ∈ c.live := List.mem_of_mem_erase
  refine ⟨⟨h.good.cursor, ?_⟩, h.highest, fun x hx => h.nonempty x (hmem hx),
    fun x hx => h.origin x (hmem hx), hapart, ?_⟩
  · show bitmapTest (resetRange c.st.bitmap (b.addr / pageSize) b.pages) 0 = true
    have h0 : ¬ b.Covers 0 := by
      intro hc
      rw [h.origin b hb 0 hc] at hz
      simp at hz
    rw [bitmapTest_resetRange, h.good.zero, Bool.and_true, Bool.not_eq_true',
      decide_eq_false_iff_not]
    exact h0
  · intro i
    show bitmapTest (resetRange c.st.bitmap (b.addr / pageSize) b.pages) i = false ↔ _
    rw [bitmapTest_resetRange, Bool.and_eq_false_iff, h.clear_iff i]
    simp only [Bool.not_eq_eq_eq_not, Bool.not_false, decide_eq_true_eq]
    constructor
    · rintro (hc | ⟨h1, h2⟩)
      · exact ⟨h.origin b hb i hc, fun x hx hxc => hrest x hx i ⟨hc, hxc⟩⟩
      · exact ⟨h1, fun x hx => h2 x (hmem hx)⟩
    · rintro ⟨h1, h2⟩
      by_cases hc : b.Covers i
      · exact Or.inl hc
      · refine Or.inr ⟨h1, fun x hx => ?_⟩
        rcases List.mem_cons.mp (hperm.mem_iff.mp hx) with rfl | hx
        · exact hc
        · exact h2 x hx

theorem step_inv {s₀ : State} {c c' : Config} {a : Call} (hz : bitmapTest s₀.bitmap 0 = true)
    (h : Inv s₀ c) (hs : Step c a c') : Inv s₀ c' := by
  cases hs with
  | alloc hn => exact inv_alloc h hn
  | free hb => exact inv_free hz h hb

theorem inv_init {s₀ : State} (hcur : s₀.lastUsedIndex ≤ s₀.highestPageIndex)
    (hz : bitmapTest s₀.bitmap 0 = true) : Inv s₀ { st := s₀, live := [] } :=
  ⟨⟨hcur, hz⟩, rfl, by simp, by simp, List.Pairwise.nil, by simp⟩

/-- Every state reached from a start with page 0 taken satisfies the invariant. -/
theorem inv_of_reach {s₀ : State} {c : Config} (hcur : s₀.lastUsedIndex ≤ s₀.highestPageIndex)
    (hz : bitmapTest s₀.bitmap 0 = true) (h : Reach Step anyStep { st := s₀, live := [] } c) :
    Inv s₀ c :=
  h.invariant (inv_init hcur hz) fun _ _ _ hI _ hs => step_inv hz hI hs

/-! ## The allocator from `pmm_init` on -/

theorem pmmInit_cursor {memory : Nat → Bitmap} {entries : List MemmapEntry} {s₀ : State}
    (h : pmmInit memory entries = some s₀) : s₀.lastUsedIndex ≤ s₀.highestPageIndex := by
  unfold pmmInit at h
  simp only at h
  split at h
  · simp at h
  · rw [← Option.some.inj h]
    exact Nat.zero_le _

/--
**Pages are handed out once.** From the bitmap that `pmm_init` leaves (page 0 taken), after any
sequence of allocations and frees of held blocks:

* a non-`NULL` result is a run of `n` pages below `highest_page_index`, all of them clear;
* no two held blocks share a page;
* the clear bits are the pages clear at the start that no held block covers.
-/
theorem pmm_run_exact {memory : Nat → Bitmap} {entries : List MemmapEntry} {s₀ : State}
    {c : Config} (hinit : pmmInit memory entries = some s₀)
    (hzero : bitmapTest s₀.bitmap 0 = true)
    (hrun : Reach Step anyStep { st := s₀, live := [] } c) :
    (∀ n, 1 ≤ n → (pmmAllocNozero c.st n).1 ≠ 0 →
      ∃ page, (pmmAllocNozero c.st n).1 = page * pageSize ∧
        page + n ≤ s₀.highestPageIndex ∧ ClearRun c.st.bitmap page n) ∧
    c.live.Pairwise Block.Apart ∧
    ∀ i, bitmapTest c.st.bitmap i = false ↔
      bitmapTest s₀.bitmap i = false ∧ ∀ b ∈ c.live, ¬ b.Covers i := by
  have hinv := inv_of_reach (pmmInit_cursor hinit) hzero hrun
  refine ⟨?_, hinv.apart, hinv.clear_iff⟩
  intro n hn hne
  obtain ⟨_, _, ⟨h0, _⟩ | ⟨page, _, hpe, hle, hclear, _⟩⟩ := pmmAllocNozero_spec hinv.good hn
  · exact absurd h0 hne
  · exact ⟨page, hpe, by rw [← hinv.highest]; exact hle, hclear⟩

/-- Nine usable pages from page 1 on, one of which holds the bitmap, and two blocks taken. -/
theorem pmm_run_exact_nine_pages : ∃ (s₀ : State) (c : Config),
    pmmInit (fun _ _ => 0#8) [⟨0x1000, 0x9000, .usable⟩] = some s₀ ∧
    bitmapTest s₀.bitmap 0 = true ∧ c.live = [⟨0x4000, 3⟩, ⟨0x2000, 2⟩] ∧
    c.live.Pairwise Block.Apart ∧
    ∀ i, bitmapTest c.st.bitmap i = false ↔
      bitmapTest s₀.bitmap i = false ∧ ∀ b ∈ c.live, ¬ b.Covers i := by
  have hinit : pmmInit (fun _ _ => 0#8) [⟨0x1000, 0x9000, .usable⟩] = some _ := rfl
  have hrun := pmm_run_exact hinit (by decide)
    (.tail (.tail .refl trivial (.alloc (n := 2) (by decide))) trivial
      (.alloc (n := 3) (by decide)))
  exact ⟨_, _, rfl, by decide, by decide, hrun.2⟩

end Lyre.Pmm
