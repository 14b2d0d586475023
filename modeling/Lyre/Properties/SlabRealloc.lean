import Lyre.Properties.SlabReuse
import Lyre.Properties.SlabRuns

/-!
# What `slab_realloc` does with the bytes of a block

A block that is moved has its bytes copied: those of a slab's block as many as the slab's blocks
have, those of a large block as many as were asked for before or now. Nothing else is written but
the link in the old block, the metadata of a large block and what `slab_alloc` writes.

`reallocResult_iff` is about every run of the heap: a reallocation does what it should unless a slab
has to be extended and there is no page for it.
-/

namespace Lyre.Slabs

open Infra Infra.Bytes

variable {pages : List (Nat × Nat)} {live : List Block} {st : State} {b b' : Block}
  {i n k newSize page : Nat}

/-! ## One call -/

/-- `slab_realloc` asks for another block if the block is not long enough, or too long. -/
theorem reallocAsks_eq (h : Inv st pages live) (hb : b ∈ live) :
    reallocAsks st b.addr newSize = !b.keeps newSize := by
  unfold reallocAsks Block.keeps
  cases ho : b.owner with
  | slab i =>
    obtain ⟨hne, hmod, hread⟩ := h.small_header hb ho
    rw [if_neg hne, if_neg hmod, hread, h.entSize (h.lt_slabCount hb ho), ← decide_not]
    exact decide_eq_decide.mpr Nat.not_le.symm
  | pages n =>
    obtain ⟨hne, hmod, -, hread, hcount, -⟩ := h.large_metadata hb ho
    rw [if_neg hne, if_pos hmod, hread, hcount, ← decide_not]
    exact decide_eq_decide.mpr ne_comm

theorem slabRealloc_kept (page : Nat) (h : Inv st pages live) (hb : b ∈ live)
    (hk : b.keeps newSize) (hb' : b' ∈ live) (hlen : k < b'.owner.length) :
    (slabRealloc st b.addr newSize page).2.mem (b'.addr + k) = st.mem (b'.addr + k) := by
  unfold Block.keeps at hk
  unfold slabRealloc
  cases ho : b.owner with
  | slab i =>
    rw [ho] at hk
    obtain ⟨hne, hmod, hread⟩ := h.small_header hb ho
    have hle := of_decide_eq_true hk
    simp only [if_neg hne, if_neg hmod, hread, h.entSize (h.lt_slabCount hb ho),
      if_neg (Nat.not_lt.mpr hle)]
  | pages n =>
    rw [ho] at hk
    have hn := of_decide_eq_true hk
    obtain ⟨hne, hmod, -, hread, hcount, -⟩ := h.large_metadata hb ho
    simp only [if_neg hne, if_pos hmod, hread, hcount, hn, if_true]
    obtain ⟨free, hl, -⟩ := h
    have hap := hl.block_apart_metadata hb' hb ho
    refine write_sameOff _ _ _ _ _ ?_
    unfold Apart pageSize at hap
    unfold pageSize
    omega

/-- **The steps of a move**: another block, the copy, and the old block is freed. -/
theorem slabRealloc_move (h : Inv st pages (b :: live)) (hk : ¬ b.keeps newSize)
    (hsize : newSize + 2 * pageSize < 2 ^ 64)
    (hpage : PageOk st pages (b :: live) newSize page) (hne : (slabAlloc st newSize page).1 ≠ 0) :
    ∃ n, min b.size newSize ≤ n ∧ n ≤ newSize ∧
      slabRealloc st b.addr newSize page = ((slabAlloc st newSize page).1,
        (slabFree { (slabAlloc st newSize page).2 with
          mem := copy (slabAlloc st newSize page).2.mem (slabAlloc st newSize page).1 b.addr n }
          b.addr).2) := by
  obtain ⟨hinv, -⟩ := (slabAlloc_inv h hsize hpage).2 hne
  have hmem : b ∈ (⟨(slabAlloc st newSize page).1, newSize, ownerFor st newSize⟩ : Block) ::
    b :: live := List.mem_cons_of_mem _ List.mem_cons_self
  have hlong : newSize ≤ (ownerFor st newSize).length := hinv.size_le List.mem_cons_self
  have hbound : b.size ≤ b.owner.length := h.size_le List.mem_cons_self
  unfold Block.keeps at hk
  unfold slabRealloc
  generalize slabAlloc st newSize page = r at *
  obtain ⟨newAddr, st'⟩ := r
  dsimp only at hne hinv hmem ⊢
  cases ho : b.owner with
  | slab i =>
    rw [ho] at hk
    rw [ho, Owner.length] at hbound
    have hlt : entSizeOf i < newSize := Nat.not_le.mp fun hle => hk (decide_eq_true hle)
    have hi := h.lt_slabCount List.mem_cons_self ho
    obtain ⟨hnb, hmod, hread⟩ := h.small_header List.mem_cons_self ho
    refine ⟨entSizeOf i, by omega, by omega, ?_⟩
    have hcopy := (hinv.copy (k := entSizeOf i) (by dsimp only; omega)).small_header
      List.mem_cons_self ho
    unfold slabFree
    simp only [if_neg hnb, if_neg hmod, hread, h.entSize hi, hinv.entSize hi, if_pos hlt, if_neg hne,
      hcopy.2.2]
  | pages n =>
    rw [ho] at hk
    obtain ⟨hnb, hmod, -, hread, hcount, -⟩ := h.large_metadata List.mem_cons_self ho
    have hn : ¬ n = divRoundup newSize pageSize := fun he => hk (decide_eq_true he.symm)
    obtain ⟨-, -, -, hread', -⟩ := hinv.large_metadata hmem ho
    refine ⟨if newSize < b.size then newSize else b.size, ?_, ?_, ?_⟩
    · split <;> omega
    · split <;> omega
    · simp only [if_neg hnb, if_pos hmod, hread, hcount, if_neg hn, if_neg hne, hread']

/-- `slab_free` writes to the block only. -/
theorem slabFree_off (h : Inv st pages (b :: live)) {x : Nat}
    (hx : x < b.addr ∨ b.addr + b.owner.length ≤ x) : (slabFree st b.addr).2.mem x = st.mem x := by
  cases ho : b.owner with
  | slab i =>
    have hpos := (entSizeOf_bounds (h.lt_slabCount List.mem_cons_self ho)).1
    rw [ho, Owner.length] at hx
    exact slabFree_mem h (by omega)
  | pages n =>
    obtain ⟨hne, hmod, -⟩ := h.large_metadata List.mem_cons_self ho
    unfold slabFree
    rw [if_neg hne, if_pos hmod]

/-- A block that is moved takes its bytes along, and the others keep theirs. -/
theorem slabRealloc_moved (h : Inv st pages (b :: live)) (hk : ¬ b.keeps newSize)
    (hsize : newSize + 2 * pageSize < 2 ^ 64)
    (hpage : PageOk st pages (b :: live) newSize page) (hne : (slabAlloc st newSize page).1 ≠ 0) :
    (∀ k < min b.size newSize,
        (slabRealloc st b.addr newSize page).2.mem ((slabAlloc st newSize page).1 + k) =
          st.mem (b.addr + k)) ∧
      ∀ b' ∈ live, ∀ k < b'.owner.length,
        (slabRealloc st b.addr newSize page).2.mem (b'.addr + k) = st.mem (b'.addr + k) := by
  obtain ⟨n, hmin, hle, heq⟩ := slabRealloc_move h hk hsize hpage hne
  obtain ⟨hinv, -⟩ := (slabAlloc_inv h hsize hpage).2 hne
  have hlive : ∀ b' ∈ b :: live, ∀ k < b'.owner.length,
      (slabAlloc st newSize page).2.mem (b'.addr + k) = st.mem (b'.addr + k) :=
    fun b' hb' k hk => slabAlloc_live h hpage hne hb' hk
  have hlong : newSize ≤ (ownerFor st newSize).length := hinv.size_le List.mem_cons_self
  have hbound : b.size ≤ b.owner.length := h.size_le List.mem_cons_self
  rw [heq]
  generalize slabAlloc st newSize page = r at *
  obtain ⟨newAddr, st'⟩ := r
  dsimp only at *
  have hfree := hinv.copy (k := n) (by dsimp only; omega)
  -- the new block, the old one and the others lie apart
  obtain ⟨free, hl, -⟩ := id hinv
  obtain ⟨hnew, hold⟩ := List.pairwise_cons.mp hl.live_apart
  refine ⟨fun k hk => ?_, fun b' hb' k hk => ?_⟩
  · have hap := hnew b List.mem_cons_self
    unfold Block.Apart Apart at hap
    dsimp only at hap
    rw [slabFree_off hfree (by omega)]
    dsimp only
    rw [copy, if_pos ⟨by omega, by omega⟩, Nat.add_sub_cancel_left]
    exact hlive b List.mem_cons_self k (by omega)
  · have hap := hnew b' (List.mem_cons_of_mem b hb')
    have hap' := (List.pairwise_cons.mp hold).1 b' hb'
    unfold Block.Apart Apart at hap hap'
    dsimp only at hap
    rw [slabFree_off hfree (by omega)]
    dsimp only
    rw [copy_sameOff _ _ _ _ _ (by omega)]
    exact hlive b' (List.mem_cons_of_mem b hb') k hk

/-! ## Runs in which memory may run out -/

variable {c c' : Config} {call : Call} {p : Nat}

/-- Sizes are far from the end of 64 bits, and `pmm.c` returns `NULL` or pages that are not in
use. -/
def Supplied (c : Config) : Call → Prop
  | .alloc size page =>
    size + 2 * pageSize < 2 ^ 64 ∧ (page = 0 ∨ PageOk c.st c.pages c.live size page)
  | .realloc addr newSize page =>
    newSize + 2 * pageSize < 2 ^ 64 ∧
      ((c.block addr).any (·.keeps newSize) ∨ page = 0 ∨ PageOk c.st c.pages c.live newSize page)
  | .free _ => True
  | .store .. => True

instance : ∀ call, Decidable (Supplied c call)
  | .alloc .. => inferInstanceAs (Decidable (_ ∧ _))
  | .realloc .. => inferInstanceAs (Decidable (_ ∧ _))
  | .free _ => inferInstanceAs (Decidable True)
  | .store .. => inferInstanceAs (Decidable True)

/-- The call does not return. -/
def faults (st : State) : Call → Bool
  | .alloc size page => allocFaults st size page
  | .realloc addr newSize page => reallocAsks st addr newSize && allocFaults st newSize page
  | .free _ => false
  | .store .. => false

/-- A call that returns. -/
def Returns (c : Config) (call : Call) : Prop := Supplied c call ∧ faults c.st call = false

/-- Without a fault, `NULL` has been returned for a large block only. -/
theorem PageOk.of_returns (hf : allocFaults st newSize page = false)
    (h : page = 0 ∨ PageOk st pages live newSize page) : PageOk st pages live newSize page := by
  refine h.elim (fun h0 => ?_) id
  unfold allocFaults at hf
  unfold PageOk
  cases hi : slabFor st newSize with
  | some i =>
    rw [hi] at hf
    intro hfree
    simp [h0, hfree] at hf
  | none => exact .inl h0

instance : Std.Symm Block.Apart := ⟨fun _ _ h => Infra.Bytes.Apart.symm h⟩

theorem Inv.addr_ne (h : Inv st pages live) (hb : b ∈ live) (hb' : b' ∈ live) (hne : b ≠ b') :
    b.addr ≠ b'.addr := by
  intro heq
  cases ho : b.owner with
  | slab i =>
    obtain ⟨-, hmod, -⟩ := h.small_header hb ho
    cases ho' : b'.owner with
    | slab j =>
      have hi := (entSizeOf_bounds (h.lt_slabCount hb ho)).1
      have hj := (entSizeOf_bounds (h.lt_slabCount hb' ho')).1
      obtain ⟨free, hl, -⟩ := h
      have hap := hl.live_apart.forall hb hb' hne
      unfold Block.Apart Apart at hap
      rw [ho, ho', Owner.length, Owner.length] at hap
      omega
    | pages m =>
      obtain ⟨-, hmod', -⟩ := h.large_metadata hb' ho'
      exact hmod (heq ▸ hmod')
  | pages n =>
    obtain ⟨-, hmod, -⟩ := h.large_metadata hb ho
    cases ho' : b'.owner with
    | slab j =>
      obtain ⟨-, hmod', -⟩ := h.small_header hb' ho'
      exact hmod' (heq ▸ hmod)
    | pages m =>
      obtain ⟨free, hl, -⟩ := h
      have hap := hl.runs_apart hb hb' hne n m ho ho'
      unfold Apart pageSize at hap
      omega

theorem block_of_mem (h : Inv c.st c.pages c.live) (hb : b ∈ c.live) :
    c.block b.addr = some b := by
  cases hfind : c.block b.addr with
  | none =>
    have hall := List.find?_eq_none.mp hfind b hb
    exact absurd (decide_eq_true rfl) hall
  | some b' =>
    obtain ⟨hb', haddr⟩ := mem_of_block hfind
    refine congrArg some (Eq.symm ?_)
    by_contra hne
    exact h.addr_ne hb hb' hne haddr.symm

/-- Sizes and pages are as `exec_inv` needs them in a call that returns. -/
theorem Returns.ok (hr : Returns c call) (h : Inv c.st c.pages c.live)
    (hexec : exec c call = some c') : ok c call := by
  obtain ⟨hs, hf⟩ := hr
  cases call with
  | alloc size page => exact ⟨hs.1, PageOk.of_returns hf hs.2⟩
  | realloc addr newSize page =>
    refine ⟨hs.1, ?_⟩
    obtain hk | hp := hs.2
    · exact .inl hk
    by_cases hasks : reallocAsks c.st addr newSize
    · rw [faults, hasks, Bool.true_and] at hf
      exact .inr (PageOk.of_returns hf hp)
    · simp only [exec] at hexec
      split at hexec
      · next h0 =>
        refine absurd ?_ hasks
        rw [reallocAsks, if_pos h0]
      · obtain ⟨b, hb, -⟩ := Option.map_eq_some_iff.mp hexec
        obtain ⟨hmem, rfl⟩ := mem_of_block hb
        rw [reallocAsks_eq h hmem, Bool.not_eq_true', Bool.not_eq_false] at hasks
        rw [hb, Option.any_some]
        exact .inl hasks
  | free addr => trivial
  | store addr k v => trivial

theorem returns_inv (h : Inv c.st c.pages c.live) (hr : Returns c call) (hs : Steps c call c') :
    Inv c'.st c'.pages c'.live := exec_inv h (hr.ok h hs) hs

/-- What `slab_realloc` owes to whoever has the block `b`, and what it did instead of a fault. -/
inductive Served (c : Config) (b : Block) (newSize page : Nat) : Option (Nat × State) → Prop
  /-- `NULL`, and everything is as it was. -/
  | null : Served c b newSize page (some (0, c.st))
  /-- A block with the bytes of the old one, whose place in the list of live blocks it takes. -/
  | block {addr : Nat} {st : State} {o : Owner} (hne : addr ≠ 0) (hlong : newSize ≤ o.length)
      (hlive : (exec c (.realloc b.addr newSize page)).map Config.live =
        some (⟨addr, newSize, o⟩ :: c.live.erase b))
      (hapart : ∀ b' ∈ c.live.erase b, Apart addr o.length b'.addr b'.owner.length)
      (hbytes : ∀ k < min b.size newSize, st.mem (addr + k) = c.st.mem (b.addr + k))
      (hothers : ∀ b' ∈ c.live.erase b, ∀ k < b'.owner.length,
        st.mem (b'.addr + k) = c.st.mem (b'.addr + k)) :
      Served c b newSize page (some (addr, st))

theorem slabRealloc_null (h : Inv st pages (b :: live)) (hk : ¬ b.keeps newSize)
    (hnull : (slabAlloc st newSize page).1 = 0) : (slabRealloc st b.addr newSize page).1 = 0 := by
  unfold Block.keeps at hk
  unfold slabRealloc
  generalize slabAlloc st newSize page = r at *
  obtain ⟨newAddr, st'⟩ := r
  dsimp only at hnull
  cases ho : b.owner with
  | slab i =>
    rw [ho] at hk
    have hlt : entSizeOf i < newSize := Nat.not_le.mp fun hle => hk (decide_eq_true hle)
    obtain ⟨hnb, hmod, hread⟩ := h.small_header List.mem_cons_self ho
    simp only [if_neg hnb, if_neg hmod, hread, if_pos hlt, hnull, if_true,
      h.entSize (h.lt_slabCount List.mem_cons_self ho)]
  | pages n =>
    rw [ho] at hk
    obtain ⟨hnb, hmod, -, hread, hcount, -⟩ := h.large_metadata List.mem_cons_self ho
    have hn : ¬ n = divRoundup newSize pageSize := fun he => hk (decide_eq_true he.symm)
    simp only [if_neg hnb, if_pos hmod, hread, hcount, if_neg hn, hnull, if_true]

theorem Inv.addr_ne_zero (h : Inv c.st c.pages c.live) (hb : b ∈ c.live) : b.addr ≠ 0 := fun h0 => by
  have hnull := h.block_null
  rw [← h0, block_of_mem h hb] at hnull
  cases hnull

theorem exec_realloc (newSize page : Nat) (h : Inv c.st c.pages c.live) (hb : b ∈ c.live) :
    exec c (.realloc b.addr newSize page) =
      if b.keeps newSize then
        some ⟨(slabRealloc c.st b.addr newSize page).2, c.pages,
          ⟨(slabRealloc c.st b.addr newSize page).1, newSize, b.owner⟩ :: c.live.erase b⟩
      else some (c.put newSize page (c.live.erase b) (slabRealloc c.st b.addr newSize page)) := by
  simp only [exec]
  rw [if_neg (h.addr_ne_zero hb), block_of_mem h hb, Option.map_some]
  split <;> rfl

theorem exec_st (h : Inv c.st c.pages c.live) (hb : b ∈ c.live)
    (hs : Steps c (.realloc b.addr newSize page) c') :
    c'.st = (slabRealloc c.st b.addr newSize page).2 := by
  unfold Steps at hs
  rw [exec_realloc newSize page h hb] at hs
  split at hs
  · obtain rfl := Option.some.inj hs
    rfl
  · obtain rfl := Option.some.inj hs
    unfold Config.put
    split <;> rfl

theorem Served.of_keeps (h : Inv c.st c.pages c.live) (hb : b ∈ c.live) (hk : b.keeps newSize)
    (hsize : newSize + 2 * pageSize < 2 ^ 64) :
    Served c b newSize page (some (slabRealloc c.st b.addr newSize page)) := by
  obtain ⟨haddr, hinv⟩ := slabRealloc_keeps page (h.front hb) hk hsize
  have hbytes : ∀ b' ∈ c.live, ∀ k < b'.owner.length,
      (slabRealloc c.st b.addr newSize page).2.mem (b'.addr + k) = c.st.mem (b'.addr + k) :=
    fun b' hb' k hk' => slabRealloc_kept page h hb hk hb' hk'
  have hexec := exec_realloc newSize page h hb
  rw [if_pos hk] at hexec
  have hlong : newSize ≤ b.owner.length := hinv.size_le List.mem_cons_self
  have hbound : b.size ≤ b.owner.length := h.size_le hb
  obtain ⟨free, hl, -⟩ := hinv
  have hapart := (List.pairwise_cons.mp hl.live_apart).1
  have hne := h.addr_ne_zero hb
  generalize slabRealloc c.st b.addr newSize page = r at *
  obtain ⟨addr, st⟩ := r
  obtain rfl : addr = b.addr := haddr
  refine .block hne hlong (by rw [hexec]; rfl) hapart (fun k hk' => ?_) fun b' hb' k hk' => ?_
  · exact hbytes b hb k (by omega)
  · exact hbytes b' (List.mem_of_mem_erase hb') k hk'

theorem Served.of_moves (h : Inv c.st c.pages c.live) (hb : b ∈ c.live) (hk : ¬ b.keeps newSize)
    (hsize : newSize + 2 * pageSize < 2 ^ 64) (hpage : PageOk c.st c.pages c.live newSize page) :
    Served c b newSize page (some (slabRealloc c.st b.addr newSize page)) := by
  have hfront := h.front hb
  have hpage' := hpage.perm (List.perm_cons_erase hb)
  obtain ⟨hnull, hsome⟩ := slabRealloc_moves hfront hk hsize hpage'
  have hexec := exec_realloc newSize page h hb
  rw [if_neg hk] at hexec
  by_cases h0 : (slabRealloc c.st b.addr newSize page).1 = 0
  · have heq : slabRealloc c.st b.addr newSize page = (0, c.st) := Prod.ext h0 (hnull h0)
    rw [heq]
    exact .null
  · have hne : (slabAlloc c.st newSize page).1 ≠ 0 := fun ha =>
      h0 (slabRealloc_null hfront hk ha)
    obtain ⟨hbytes, hothers⟩ := slabRealloc_moved hfront hk hsize hpage' hne
    obtain ⟨_, -, -, hmove⟩ := slabRealloc_move hfront hk hsize hpage' hne
    have haddr : (slabAlloc c.st newSize page).1 = (slabRealloc c.st b.addr newSize page).1 :=
      (congrArg Prod.fst hmove).symm
    have hinv := hsome h0
    have hlong : newSize ≤ (ownerFor c.st newSize).length := hinv.size_le List.mem_cons_self
    obtain ⟨free, hl, -⟩ := hinv
    have hapart := (List.pairwise_cons.mp hl.live_apart).1
    rw [haddr] at hbytes
    unfold Config.put at hexec
    rw [if_neg h0] at hexec
    exact .block h0 hlong (by rw [hexec]; rfl) hapart hbytes hothers

/-- **A call that returns serves the owner of the block.** -/
theorem Served.of_returns (h : Inv c.st c.pages c.live) (hb : b ∈ c.live)
    (hr : Returns c (.realloc b.addr newSize p)) :
    Served c b newSize p (some (slabRealloc c.st b.addr newSize p)) := by
  obtain ⟨⟨hsize, hsupply⟩, hf⟩ := hr
  by_cases hk : b.keeps newSize
  · exact .of_keeps h hb hk hsize
  · have hasks : reallocAsks c.st b.addr newSize = true := by
      rw [reallocAsks_eq h hb, Bool.not_eq_true', Bool.eq_false_iff]
      exact hk
    rw [faults, hasks, Bool.true_and] at hf
    obtain hany | hpage := hsupply
    · rw [block_of_mem h hb, Option.any_some] at hany
      exact absurd hany hk
    · exact .of_moves h hb hk hsize (PageOk.of_returns hf hpage)

theorem exec_null (h : Inv c.st c.pages c.live) (hb : b ∈ c.live)
    (hr : Returns c (.realloc b.addr newSize page)) (hs : Steps c (.realloc b.addr newSize page) c')
    (hnull : (slabRealloc c.st b.addr newSize page).1 = 0) : c' = c := by
  have hserved := Served.of_returns h hb hr
  have hst := exec_st h hb hs
  unfold Steps at hs
  rw [exec_realloc newSize page h hb] at hs
  split at hs
  · next hk =>
    have haddr := (slabRealloc_keeps page (h.front hb) hk hr.1.1).1
    exact absurd (haddr.symm.trans hnull) (h.addr_ne_zero hb)
  · obtain rfl := Option.some.inj hs
    unfold Config.put
    rw [if_pos hnull]
    generalize slabRealloc _ _ _ _ = r at hserved hnull
    cases hserved with
    | null => rfl
    | block hne => exact absurd hnull hne

/-- **`slab_realloc` in every run.** -/
theorem reallocResult_iff {st : State} {page : Nat → Nat} (hpages : BootPages page)
    (hr : Reach Steps Returns (boot st page) c) (hb : b ∈ c.live)
    (hs : Supplied c (.realloc b.addr newSize p)) :
    Served c b newSize p (reallocResult c.st b.addr newSize p) ↔
      ¬ (reallocAsks c.st b.addr newSize = true ∧ allocFaults c.st newSize p = true) := by
  have h : Inv c.st c.pages c.live :=
    hr.invariant (I := fun c => Inv c.st c.pages c.live) (boot_inv st hpages)
      fun _ _ _ h hr hs => returns_inv h hr hs
  rw [← Bool.and_eq_true]
  unfold reallocResult
  constructor
  · intro hserved hfault
    rw [if_pos hfault] at hserved
    cases hserved
  · intro hno
    rw [if_neg hno]
    exact .of_returns h hb ⟨hs, Bool.eq_false_iff.mpr hno⟩

/-- The blocks of the last slab's page are taken, and a small block is live. -/
def fullCalls : List Call := [.alloc 1024 0, .alloc 1024 0, .alloc 1024 0, .alloc 5 0, .store 4104 4 7]

/-- What is asked for next, and whether it makes `slab_realloc` extend a slab without a page. -/
def fullAsks (newSize : Nat) (fault : Bool) (c : Config) : Bool :=
  c.live.head? = some ⟨4104, 5, .slab 0⟩ && decide (Supplied c (.realloc 4104 newSize 0)) &&
    (reallocAsks c.st 4104 newSize && allocFaults c.st newSize 0) == fault

theorem reached_of_asks {newSize : Nat} {fault : Bool}
    (hrun : runIf exec (fun c call => decide (Supplied c call) && !faults c.st call) fullCalls
      sampleBoot = some c) (hasks : fullAsks newSize fault c = true) :
    Reach Steps Returns sampleBoot c ∧ ⟨4104, 5, .slab 0⟩ ∈ c.live ∧
      Supplied c (.realloc 4104 newSize 0) ∧
      (reallocAsks c.st 4104 newSize && allocFaults c.st newSize 0) = fault := by
  unfold fullAsks at hasks
  rw [Bool.and_eq_true, Bool.and_eq_true, decide_eq_true_iff, decide_eq_true_iff,
    beq_iff_eq] at hasks
  obtain ⟨⟨hhead, hs⟩, hfault⟩ := hasks
  refine ⟨(Reach.of_runIf .refl hrun).mono fun c call hok => ?_, List.mem_of_mem_head? hhead, hs, hfault⟩
  rw [Bool.and_eq_true, decide_eq_true_iff, Bool.not_eq_true'] at hok
  exact hok

theorem full_reached (newSize : Nat) (fault : Bool)
    (h : ((runIf exec (fun c call => decide (Supplied c call) && !faults c.st call) fullCalls
      sampleBoot).any (fullAsks newSize fault)) = true) :
    ∃ c b, Reach Steps Returns sampleBoot c ∧ b ∈ c.live ∧ Supplied c (.realloc b.addr newSize 0) ∧
      (reallocAsks c.st b.addr newSize && allocFaults c.st newSize 0) = fault := by
  obtain ⟨c, hrun, hasks⟩ := (Option.any_eq_true _ _).mp h
  exact ⟨c, _, reached_of_asks hrun hasks⟩

/-- The block is moved to a slab that has blocks. -/
theorem reallocResult_iff_moved : ∃ c b, Reach Steps Returns sampleBoot c ∧ b ∈ c.live ∧
    Supplied c (.realloc b.addr 100 0) ∧ Served c b 100 0 (reallocResult c.st b.addr 100 0) := by
  obtain ⟨c, b, hreach, hb, hs, hfault⟩ := full_reached 100 false (by decide +kernel)
  refine ⟨c, b, hreach, hb, hs, (reallocResult_iff ⟨by decide, ?_⟩ hreach hb hs).mpr ?_⟩
  · intro i _ j _ he
    omega
  · rw [← Bool.and_eq_true, hfault]
    decide

/-- No memory is left for the last slab: `slab_realloc` does not return. -/
theorem realloc_faults : ∃ c b, Reach Steps Returns sampleBoot c ∧ b ∈ c.live ∧
    Supplied c (.realloc b.addr 1024 0) ∧
      ¬ Served c b 1024 0 (reallocResult c.st b.addr 1024 0) := by
  obtain ⟨c, b, hreach, hb, hs, hfault⟩ := full_reached 1024 true (by decide +kernel)
  refine ⟨c, b, hreach, hb, hs, fun hserved => ?_⟩
  unfold reallocResult at hserved
  rw [if_pos hfault] at hserved
  cases hserved

/-! ## Chains of reallocations -/

/-- A block goes through reallocations; of its bytes the first `m` have been asked for all the
time. -/
inductive Chained (c₀ : Config) (b₀ : Block) : Config → Block → Nat → Prop
  | start (hb : b₀ ∈ c₀.live) : Chained c₀ b₀ c₀ b₀ b₀.size
  | null {c c' : Config} {b : Block} {m newSize p : Nat} (hc : Chained c₀ b₀ c b m)
      (hr : Returns c (.realloc b.addr newSize p)) (hs : Steps c (.realloc b.addr newSize p) c')
      (hnull : (slabRealloc c.st b.addr newSize p).1 = 0) : Chained c₀ b₀ c' b m
  | block {c c' : Config} {b b' : Block} {m newSize p : Nat} (hc : Chained c₀ b₀ c b m)
      (hr : Returns c (.realloc b.addr newSize p)) (hs : Steps c (.realloc b.addr newSize p) c')
      (hne : (slabRealloc c.st b.addr newSize p).1 ≠ 0) (hhead : c'.live.head? = some b') :
      Chained c₀ b₀ c' b' (min m newSize)

/-- What holds along a chain. -/
structure Carried (c₀ : Config) (b₀ : Block) (c : Config) (b : Block) (m : Nat) : Prop where
  inv : Inv c.st c.pages c.live
  mem : b ∈ c.live
  size : m ≤ b.size
  rest : c.live.erase b = c₀.live.erase b₀
  bytes : ∀ k < m, c.st.mem (b.addr + k) = c₀.st.mem (b₀.addr + k)
  others : ∀ b' ∈ c₀.live.erase b₀, ∀ k < b'.owner.length,
    c.st.mem (b'.addr + k) = c₀.st.mem (b'.addr + k)

/-- Along every chain of reallocations the bytes of the block stay, and so do those of all other
blocks. -/
theorem Chained.carried {c₀ : Config} {b₀ : Block} {m : Nat} (h₀ : Inv c₀.st c₀.pages c₀.live)
    (h : Chained c₀ b₀ c b m) : Carried c₀ b₀ c b m := by
  induction h with
  | start hb => exact ⟨h₀, hb, Nat.le_refl _, rfl, fun _ _ => rfl, fun _ _ _ _ => rfl⟩
  | null hc hr hs hnull ih =>
    obtain ⟨hinv, hmem, hsize, hrest, hbytes, hothers⟩ := ih
    obtain rfl := exec_null hinv hmem hr hs hnull
    exact ⟨hinv, hmem, hsize, hrest, hbytes, hothers⟩
  | block hc hr hs hne hhead ih =>
    obtain ⟨hinv, hmem, hsize, hrest, hbytes, hothers⟩ := ih
    have hserved := Served.of_returns hinv hmem hr
    have hst := exec_st hinv hmem hs
    generalize slabRealloc _ _ _ _ = r at hserved hst hne
    cases hserved with
    | null => exact absurd rfl hne
    | block _ hlong hlive hapart hkept hkept' =>
      rw [show exec _ _ = some _ from hs, Option.map_some] at hlive
      have hlive := Option.some.inj hlive
      rw [hlive, List.head?_cons] at hhead
      obtain rfl := Option.some.inj hhead
      refine ⟨returns_inv hinv hr hs, ?_, Nat.min_le_right _ _, ?_, fun k hk => ?_,
        fun b' hb' k hk => ?_⟩
      · rw [hlive]
        exact List.mem_cons_self
      · rw [hlive, List.erase_cons_head, hrest]
      · rw [hst, hkept k (by omega), hbytes k (by omega)]
      · rw [hst, hkept' b' (hrest ▸ hb') k hk, hothers b' hb' k hk]

/-- **Chains of reallocations in every run:** the bytes of the block stay, and so do those of all
other blocks. -/
theorem realloc_chains {st : State} {page : Nat → Nat} {c₀ c : Config} {b₀ b : Block} {m : Nat}
    (hpages : BootPages page) (hr : Reach Steps Returns (boot st page) c₀)
    (h : Chained c₀ b₀ c b m) : Carried c₀ b₀ c b m :=
  Chained.carried (hr.invariant (I := fun c => Inv c.st c.pages c.live) (boot_inv st hpages)
    fun _ _ _ h hr hs => returns_inv h hr hs) h

theorem realloc_chains_moved : ∃ c c' b b', Reach Steps Returns sampleBoot c ∧
    Chained c b c' b' 5 ∧ Carried c b c' b' 5 := by
  have hrun : ((runIf exec (fun c call => decide (Supplied c call) && !faults c.st call) fullCalls
      sampleBoot).any fun c => fullAsks 100 false c && !decide ((slabRealloc c.st 4104 100 0).1 = 0) &&
        ((exec c (.realloc 4104 100 0)).any fun c' => c'.live.head?.isSome)) = true := by
    decide +kernel
  obtain ⟨c, hc, h⟩ := (Option.any_eq_true _ _).mp hrun
  rw [Bool.and_eq_true, Bool.and_eq_true] at h
  obtain ⟨⟨hasks, hne⟩, hex⟩ := h
  obtain ⟨c', hs, hhead⟩ := (Option.any_eq_true _ _).mp hex
  obtain ⟨b', hb'⟩ := Option.isSome_iff_exists.mp hhead
  obtain ⟨hreach, hb, hsup, hfault⟩ := reached_of_asks hc hasks
  have hchain : Chained c ⟨4104, 5, .slab 0⟩ c' b' 5 :=
    .block (.start hb) ⟨hsup, hfault⟩ hs (of_decide_eq_false (Bool.not_eq_true' _ ▸ hne)) hb'
  exact ⟨c, c', _, b', hreach, hchain, realloc_chains ⟨by decide, fun i _ j _ he => by omega⟩ hreach hchain⟩

end Lyre.Slabs
