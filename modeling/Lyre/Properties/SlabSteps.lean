import Lyre.Properties.Slab

/-!
# What the operations of the heap do to its layout

Blocks move between the free list of their slab and the live blocks; pages come from `pmm.c`. Each
move is shown twice, for the places (`Layout`) and for memory (`Stored`), and the functions of
`mm/slab.c` are made of these moves.
-/

namespace Lyre.Slabs

open Infra.Bytes

variable {pages : List (Nat × Nat)} {live live' : List Block} {free free' : Nat → List Nat}
  {m : Nat} {st : State} {b : Block} {i j n p x size : Nat} {l : List Nat}

/-! ## Places -/

theorem smalls_cons_self (h : b.owner = .slab i) :
    smalls (b :: live) i = b.addr :: smalls live i := by
  unfold smalls
  exact List.filterMap_cons_some (if_pos h)

theorem smalls_cons_ne (h : b.owner ≠ .slab i) : smalls (b :: live) i = smalls live i := by
  unfold smalls
  exact List.filterMap_cons_none (if_neg h)

theorem Layout.perm (h : Layout pages live free) (hp : live.Perm live') :
    Layout pages live' free := by
  have hs : ∀ i, (free i ++ smalls live i).Perm (free i ++ smalls live' i) :=
    fun i => (hp.filterMap _).append_left _
  refine ⟨h.page, h.nodup, fun i hi => (hs i).nodup_iff.mp (h.blocks i hi), fun i hi x hx => ?_,
    fun b hb => h.small b (hp.mem_iff.mpr hb), fun b hb => h.large b (hp.mem_iff.mpr hb), ?_⟩
  · exact h.slot i hi x ((hs i).mem_iff.mpr hx)
  · exact hp.pairwise h.runs fun hr => symm hr

theorem Layout.tail (h : Layout pages (b :: live) free) : Layout pages live free := by
  have hs : ∀ i, (free i ++ smalls live i).Sublist (free i ++ smalls (b :: live) i) :=
    fun i => ((List.sublist_cons_self b live).filterMap _).append_left _
  refine ⟨h.page, h.nodup, fun i hi => (h.blocks i hi).sublist (hs i), fun i hi x hx => ?_,
    fun b' hb' => h.small b' (List.mem_cons_of_mem b hb'),
    fun b' hb' => h.large b' (List.mem_cons_of_mem b hb'), (List.pairwise_cons.mp h.runs).2⟩
  exact h.slot i hi x ((hs i).subset hx)

theorem Layout.take (h : Layout pages live free) (hi : i < slabCount) (hf : free i = x :: l)
    (hsize : size ≤ entSizeOf i) :
    Layout pages (⟨x, size, .slab i⟩ :: live) (Function.update free i l) := by
  have hs : ∀ j, (free j ++ smalls live j).Perm
      (Function.update free i l j ++ smalls (⟨x, size, .slab i⟩ :: live) j) := by
    intro j
    by_cases hj : j = i
    · subst hj
      rw [Function.update_self, smalls_cons_self rfl, hf]
      exact List.perm_middle.symm
    · rw [Function.update_of_ne hj, smalls_cons_ne fun he => hj (Owner.slab.inj he).symm]
  refine ⟨h.page, h.nodup, fun j hj => (hs j).nodup_iff.mp (h.blocks j hj),
    fun j hj y hy => h.slot j hj y ((hs j).mem_iff.mpr hy), ?_, ?_, ?_⟩
  · intro b hb j hj
    rcases List.mem_cons.mp hb with rfl | hb
    · obtain rfl := Owner.slab.inj hj
      exact ⟨hi, hsize⟩
    · exact h.small b hb j hj
  · intro b hb k hk
    rcases List.mem_cons.mp hb with rfl | hb
    · cases hk
    · exact h.large b hb k hk
  · exact List.pairwise_cons.mpr ⟨fun b _ k k' hk => (nomatch hk), h.runs⟩

theorem Layout.give (h : Layout pages (b :: live) free) (ho : b.owner = .slab i) :
    Layout pages live (Function.update free i (b.addr :: free i)) := by
  have hs : ∀ j, (free j ++ smalls (b :: live) j).Perm
      (Function.update free i (b.addr :: free i) j ++ smalls live j) := by
    intro j
    by_cases hj : j = i
    · subst hj
      rw [Function.update_self, smalls_cons_self ho]
      exact List.perm_middle
    · rw [Function.update_of_ne hj,
        smalls_cons_ne fun he => hj (Owner.slab.inj (he.symm.trans ho))]
  exact ⟨h.page, h.nodup, fun j hj => (hs j).nodup_iff.mp (h.blocks j hj),
    fun j hj y hy => h.slot j hj y ((hs j).mem_iff.mpr hy), h.tail.small, h.tail.large,
    h.tail.runs⟩

/-- A run of pages that no slab and no live block has. -/
structure Fresh (pages : List (Nat × Nat)) (live : List Block) (p n : Nat) : Prop where
  run : PageRun p n
  pages : ∀ q ∈ pages, Apart p (n * pageSize) q.1 pageSize
  runs : ∀ b ∈ live, ∀ k, b.owner = .pages k →
    Apart p (n * pageSize) (b.addr - pageSize) ((k + 1) * pageSize)

theorem Fresh.perm (h : Fresh pages live p n) (hp : live.Perm live') : Fresh pages live' p n :=
  ⟨h.run, h.pages, fun b hb => h.runs b (hp.mem_iff.mpr hb)⟩

theorem Layout.fresh (h : Layout pages (b :: live) free) (ho : b.owner = .pages n) :
    Fresh pages live (b.addr - pageSize) (n + 1) := by
  have hl := h.large b List.mem_cons_self n ho
  exact ⟨hl.run, hl.pages, fun b' hb' k hk =>
    (List.pairwise_cons.mp h.runs).1 b' hb' n k ho hk⟩

theorem Fresh.clear (hf : Fresh pages live p n) (h : Layout pages live free) :
    Clear pages live free p (n * pageSize) := by
  refine ⟨fun q hq => ?_, fun i hi x hx => ?_, fun b hb k hk => ?_⟩
  · exact (hf.pages q hq).mono (Nat.le_refl _) (Nat.le_refl _) (Nat.le_refl _)
      (by unfold pageSize; omega)
  · obtain ⟨q, hq, hge, hle⟩ := (h.slot i hi x (List.mem_append_left _ hx)).bounds
    have := (entSizeOf_bounds hi).1
    exact (hf.pages _ hq).mono (Nat.le_refl _) (Nat.le_refl _) (by omega) (by omega)
  · exact (hf.runs b hb k hk).mono (Nat.le_refl _) (Nat.le_refl _) (Nat.le_refl _)
      (by unfold pageSize; omega)

theorem Layout.cons_large (h : Layout pages live free) (hf : Fresh pages live p (n + 1))
    (hn : divRoundup size pageSize = n) (hsize : size + 2 * pageSize < 2 ^ 64) :
    Layout pages (⟨p + pageSize, size, .pages n⟩ :: live) free := by
  have hs : ∀ j, smalls (⟨p + pageSize, size, .pages n⟩ :: live) j = smalls live j :=
    fun j => smalls_cons_ne fun he => nomatch he
  refine ⟨h.page, h.nodup, fun j hj => hs j ▸ h.blocks j hj, fun j hj => hs j ▸ h.slot j hj, ?_,
    ?_, ?_⟩
  · intro b hb j hj
    rcases List.mem_cons.mp hb with rfl | hb
    · cases hj
    · exact h.small b hb j hj
  · intro b hb k hk
    rcases List.mem_cons.mp hb with rfl | hb
    · obtain rfl := Owner.pages.inj hk
      refine ⟨?_, Nat.le_add_left _ _, hn, hsize, ?_⟩
      · rw [Nat.add_sub_cancel]
        exact hf.run
      · rw [Nat.add_sub_cancel]
        exact hf.pages
    · exact h.large b hb k hk
  · refine List.pairwise_cons.mpr ⟨fun b hb k k' hk hk' => ?_, h.runs⟩
    obtain rfl := Owner.pages.inj hk
    rw [Nat.add_sub_cancel]
    exact hf.runs b hb k' hk'

theorem Layout.resize (size : Nat) (h : Layout pages (b :: live) free)
    (hslab : ∀ i, b.owner = .slab i → size ≤ entSizeOf i)
    (hpages : ∀ n, b.owner = .pages n →
      divRoundup size pageSize = n ∧ size + 2 * pageSize < 2 ^ 64) :
    Layout pages ({ b with size } :: live) free := by
  refine ⟨h.page, h.nodup, h.blocks, h.slot, ?_, ?_, ?_⟩
  · intro b' hb' j hj
    rcases List.mem_cons.mp hb' with rfl | hb'
    · exact ⟨(h.small b List.mem_cons_self j hj).1, hslab j hj⟩
    · exact h.tail.small b' hb' j hj
  · intro b' hb' k hk
    rcases List.mem_cons.mp hb' with rfl | hb'
    · have hl := h.large b List.mem_cons_self k hk
      exact ⟨hl.run, hl.behind, (hpages k hk).1, (hpages k hk).2, hl.pages⟩
    · exact h.tail.large b' hb' k hk
  · exact List.pairwise_cons.mpr
      ⟨fun b' hb' => (List.pairwise_cons.mp h.runs).1 b' hb', h.tail.runs⟩

/-! ## A new page of a slab -/

/-- How many blocks follow the first one. -/
def lastPlace (i : Nat) : Nat := (pageSize - entSizeOf i) / entSizeOf i - 1

/-- The places of a page. -/
def places (p i : Nat) : List Nat :=
  (List.range (lastPlace i + 1)).map fun k => p + (k + 1) * entSizeOf i

theorem lastPlace_bound (hi : i < slabCount) : (lastPlace i + 2) * entSizeOf i ≤ pageSize := by
  have hall : ∀ i < slabCount, (lastPlace i + 2) * entSizeOf i ≤ pageSize := by decide
  exact hall i hi

theorem place_slot (pages : List (Nat × Nat)) (hi : i < slabCount) (hx : x ∈ places p i) :
    Slot ((p, i) :: pages) i x := by
  obtain ⟨k, hk, rfl⟩ := List.mem_map.mp hx
  have hle : (k + 1 + 1) * entSizeOf i ≤ (lastPlace i + 2) * entSizeOf i :=
    Nat.mul_le_mul_right _ (by have := List.mem_range.mp hk; omega)
  exact ⟨p, k + 1, List.mem_cons_self, by omega, rfl, Nat.le_trans hle (lastPlace_bound hi)⟩

theorem places_nodup (hi : i < slabCount) : (places p i).Nodup := by
  refine List.Nodup.map ?_ List.nodup_range
  intro k k' he
  have hpos : 0 < entSizeOf i := by have := (entSizeOf_bounds hi).1; omega
  have hmul : (k + 1) * entSizeOf i = (k' + 1) * entSizeOf i := Nat.add_left_cancel he
  have := Nat.eq_of_mul_eq_mul_right hpos hmul
  omega

theorem Slot.cons (h : Slot pages i x) : Slot ((p, j) :: pages) i x := by
  obtain ⟨q, k, hq, hk⟩ := h
  exact ⟨q, k, List.mem_cons_of_mem _ hq, hk⟩

theorem Fresh.place_ne (hf : Fresh pages live p 1) (hi : i < slabCount) (hx : x ∈ places p i)
    (hs : Slot pages j x) : False := by
  obtain ⟨q, hq, hge, hle⟩ := hs.bounds
  obtain ⟨p', hp', hge', hle'⟩ := (place_slot [] hi hx).bounds
  obtain rfl : p' = p := congrArg Prod.fst (List.mem_singleton.mp hp')
  have hap := hf.pages _ hq
  have := (entSizeOf_bounds hi).1
  unfold Apart at hap
  omega

theorem Layout.cons_page (h : Layout pages live free) (hf : Fresh pages live p 1)
    (hi : i < slabCount) (hempty : free i = []) :
    Layout ((p, i) :: pages) live (Function.update free i (places p i)) := by
  refine ⟨?_, ?_, fun j hj => ?_, fun j hj x hx => ?_, h.small, fun b hb k hk => ?_, h.runs⟩
  · intro q hq
    rcases List.mem_cons.mp hq with rfl | hq
    · exact ⟨hf.run, hi⟩
    · exact h.page q hq
  · rw [List.map_cons, List.nodup_cons]
    refine ⟨fun hmem => ?_, h.nodup⟩
    obtain ⟨q, hq, rfl⟩ := List.mem_map.mp hmem
    have := hf.pages q hq
    unfold Apart pageSize at this
    omega
  · by_cases hj' : j = i
    · subst hj'
      have hb := h.blocks j hj
      rw [hempty, List.nil_append] at hb
      rw [Function.update_self, List.nodup_append]
      refine ⟨places_nodup hi, hb, fun x hx y hy he => ?_⟩
      subst he
      exact hf.place_ne hi hx (h.slot j hj x (List.mem_append_right _ hy))
    · rw [Function.update_of_ne hj']
      exact h.blocks j hj
  · by_cases hj' : j = i
    · subst hj'
      rw [Function.update_self] at hx
      rcases List.mem_append.mp hx with hx | hx
      · exact place_slot pages hi hx
      · exact (h.slot j hj x (List.mem_append_right _ hx)).cons
    · rw [Function.update_of_ne hj'] at hx
      exact (h.slot j hj x hx).cons
  · have hl := h.large b hb k hk
    refine ⟨hl.run, hl.behind, hl.count, hl.bound, fun q hq => ?_⟩
    rcases List.mem_cons.mp hq with rfl | hq
    · have := (hf.runs b hb k hk).symm
      rwa [Nat.one_mul] at this
    · exact hl.pages q hq

/-! ## Memory -/

theorem linkBlocks_spec (mem : Mem) (a max : Nat) {e : Nat} (he : 8 ∣ e) (hpos : 8 ≤ e)
    (hfit : a + (max + 1) * e ≤ 2 ^ 64) :
    SameOff mem (linkBlocks mem a (e / 8) max) a (max * e) ∧
      ∀ k < max, read (linkBlocks mem a (e / 8) max) (a + k * e) 8 = a + (k + 1) * e := by
  have hword : ∀ k, 8 * (k * (e / 8)) = k * e := by
    intro k
    rw [Nat.mul_left_comm, Nat.mul_div_cancel' he]
  unfold linkBlocks
  simp only [hword]
  -- one more block: its link is written behind all the others
  induction max with
  | zero => exact ⟨SameOff.refl _ _ _, fun k hk => absurd hk (Nat.not_lt_zero k)⟩
  | succ max ih =>
    rw [Nat.succ_mul] at hfit
    obtain ⟨hsame, hread⟩ := ih (by omega)
    rw [List.range_succ, List.foldl_append, List.foldl_cons, List.foldl_nil]
    have hw := write_sameOff (List.foldl
      (fun mem i => write mem (a + i * e) 8 (a + (i + 1) * e)) mem (List.range max))
      (a + max * e) 8 (a + (max + 1) * e)
    refine ⟨hsame.trans' hw ⟨Nat.le_refl a, ?_⟩ ⟨by omega, ?_⟩, fun k hk => ?_⟩
    · rw [Nat.succ_mul]
      omega
    · rw [Nat.succ_mul]
      omega
    · rcases Nat.lt_or_eq_of_le (Nat.le_of_lt_succ hk) with hlt | rfl
      · rw [← hread k hlt]
        have := Nat.mul_le_mul_right e (Nat.succ_le_of_lt hlt)
        rw [Nat.succ_mul] at this
        refine read_sameOff hw ?_
        unfold Apart
        omega
      · rw [read_write]
        exact Nat.mod_eq_of_lt (by omega)

theorem createSlab_mem_eq (st : State) (hi : i < slabCount) (p : Nat) :
    (createSlab st i (entSizeOf i) p).mem =
      write (linkBlocks (write st.mem p 8 i) (p + entSizeOf i) (entSizeOf i / 8) (lastPlace i))
        (p + entSizeOf i + lastPlace i * entSizeOf i) 8 0 := by
  have hword : 8 * (lastPlace i * (entSizeOf i / 8)) = lastPlace i * entSizeOf i := by
    rw [Nat.mul_left_comm, Nat.mul_div_cancel' (entSizeOf_bounds hi).2.1]
  rw [← hword]
  unfold createSlab lastPlace
  simp only [alignUp_entSizeOf hi]

/-- `create_slab`: the header, the links, and nothing outside of the page. -/
theorem createSlab_mem (st : State) (hi : i < slabCount) (hp : PageRun p 1) :
    SameOff st.mem (createSlab st i (entSizeOf i) p).mem p pageSize ∧
      read (createSlab st i (entSizeOf i) p).mem p 8 = i ∧
      Chain (createSlab st i (entSizeOf i) p).mem (p + entSizeOf i) (places p i) := by
  obtain ⟨hpos, hdvd, hhalf⟩ := entSizeOf_bounds hi
  have hbound := lastPlace_bound hi
  have hfits := hp.fits
  have hne := hp.ne_zero
  rw [createSlab_mem_eq st hi p]
  rw [Nat.add_mul] at hbound
  obtain ⟨hsame, hlink⟩ := linkBlocks_spec (write st.mem p 8 i) (p + entSizeOf i) (lastPlace i)
    hdvd hpos (by rw [Nat.add_mul]; omega)
  have hhead := write_sameOff st.mem p 8 i
  have hlast := write_sameOff (linkBlocks (write st.mem p 8 i) (p + entSizeOf i) (entSizeOf i / 8)
    (lastPlace i)) (p + entSizeOf i + lastPlace i * entSizeOf i) 8 0
  have hin : SameOff (write st.mem p 8 i) _ (p + entSizeOf i) (pageSize - entSizeOf i) :=
    hsame.trans' hlast ⟨Nat.le_refl _, by omega⟩ ⟨by omega, by omega⟩
  refine ⟨hhead.trans' hin ⟨Nat.le_refl p, by unfold pageSize; omega⟩ ⟨by omega, by omega⟩, ?_, ?_⟩
  · rw [read_sameOff hin (by unfold Apart; omega), read_write]
    exact Nat.mod_eq_of_lt (by unfold slabCount at hi; omega)
  · unfold places
    have hplace : ∀ k, p + (k + 1) * entSizeOf i = p + entSizeOf i + k * entSizeOf i := by
      intro k
      rw [Nat.add_mul]
      omega
    simp only [hplace]
    refine Chain.of_nodes (by omega) (fun k _ => by omega) (fun k hk => ?_) ?_
    · have hle := Nat.mul_le_mul_right (entSizeOf i) (Nat.succ_le_of_lt hk)
      rw [Nat.succ_mul] at hle
      rw [read_sameOff hlast (by unfold Apart; omega)]
      exact hlink k hk
    · exact read_write _ _ 8 0

theorem Stored.perm (h : Stored m st pages live free) (hp : live.Perm live') :
    Stored m st pages live' free :=
  ⟨h.entSize, h.header, h.chain, fun b hb => h.metadata b (hp.mem_iff.mpr hb)⟩

theorem Stored.tail (h : Stored m st pages (b :: live) free) : Stored m st pages live free :=
  ⟨h.entSize, h.header, h.chain, fun b' hb' => h.metadata b' (List.mem_cons_of_mem b hb')⟩

theorem Stored.cons_small (h : Stored m st pages live free) (ho : b.owner = .slab i) :
    Stored m st pages (b :: live) free := by
  refine ⟨h.entSize, h.header, h.chain, fun b' hb' n hn => ?_⟩
  rcases List.mem_cons.mp hb' with rfl | hb'
  · rw [ho] at hn
    cases hn
  · exact h.metadata b' hb' n hn

theorem Stored.cons_large (h : Stored m st pages live free) (ho : b.owner = .pages n)
    (hpages : read st.mem (b.addr - pageSize) 8 = n)
    (hsize : read st.mem (b.addr - pageSize + 8) 8 = b.size) :
    Stored m st pages (b :: live) free := by
  refine ⟨h.entSize, h.header, h.chain, fun b' hb' k hk => ?_⟩
  rcases List.mem_cons.mp hb' with rfl | hb'
  · obtain rfl := Owner.pages.inj (ho.symm.trans hk)
    exact ⟨hpages, hsize⟩
  · exact h.metadata b' hb' k hk

theorem Stored.setFirst (h : Stored m st pages live free) {first : Nat}
    (hchain : Chain st.mem first l) :
    Stored m (setSlab st i { st.slabs i with firstFree := first }) pages live
      (Function.update free i l) := by
  refine ⟨fun j hj => ?_, h.header, fun j hj => ?_, h.metadata⟩
  · unfold setSlab
    by_cases hji : j = i
    · subst hji
      simp only [Function.update_self]
      exact h.entSize j hj
    · simp only [Function.update_of_ne hji]
      exact h.entSize j hj
  · unfold setSlab
    by_cases hji : j = i
    · subst hji
      simp only [Function.update_self]
      exact hchain
    · simp only [Function.update_of_ne hji]
      exact h.chain j hj

/-- A slab gets a page, as its first one or because its free list is empty. -/
theorem Stored.cons_page {m' : Nat} (h : Stored m st pages live free) (hl : Layout pages live free)
    (hf : Fresh pages live p 1) (hi : i < slabCount) (hm : m ≤ slabCount)
    (hm' : ∀ j < m', j = i ∨ j < m) :
    Stored m' (createSlab st i (entSizeOf i) p) ((p, i) :: pages) live
      (Function.update free i (places p i)) := by
  obtain ⟨hsame, hhead, hchain⟩ := createSlab_mem st hi hf.run
  have hclear := hf.clear hl
  rw [Nat.one_mul] at hclear
  have hold := h.of_sameOff hm hsame hclear
  have hslab : ∀ j, (createSlab st i (entSizeOf i) p).slabs j =
      Function.update st.slabs i ⟨p + entSizeOf i, entSizeOf i⟩ j := by
    intro j
    unfold createSlab
    rw [alignUp_entSizeOf hi]
  refine ⟨fun j hj => ?_, fun q hq => ?_, fun j hj => ?_, hold.metadata⟩
  · rw [hslab]
    by_cases hji : j = i
    · rw [hji, Function.update_self]
    · rw [Function.update_of_ne hji]
      exact h.entSize j ((hm' j hj).resolve_left hji)
  · rcases List.mem_cons.mp hq with rfl | hq
    · exact hhead
    · exact hold.header q hq
  · rw [hslab]
    by_cases hji : j = i
    · rw [hji, Function.update_self, Function.update_self]
      exact hchain
    · rw [Function.update_of_ne hji, Function.update_of_ne hji]
      exact hold.chain j ((hm' j hj).resolve_left hji)

end Lyre.Slabs
