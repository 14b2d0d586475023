import Lyre.Mm.Vmm

/-!
# Words in page tables

An entry is an address below `2 ^ 52` with its low twelve bits clear, or-ed with flags that
stay clear of the address bits. `pteGetAddr` and `pteGetFlags` take it apart again. The four
indices and the offset cut an address into pieces, so two addresses use the same entry exactly
when their bits 12 to 47 agree.
-/

namespace Lyre.Vmm

/-! ## Address and flags -/

/-- An address a page table entry can hold. -/
structure PageAddr (phys : Nat) : Prop where
  aligned : pageSize ∣ phys
  lt : phys < 2 ^ 52

/-- Flags of a mapping: 64 bits, present, none of them an address bit. -/
structure PageFlags (flags : Nat) : Prop where
  lt : flags < 2 ^ 64
  present : flags &&& ptePresent ≠ 0
  apart : flags &&& pteAddrMask = 0

theorem PageAddr.and_mask {phys : Nat} (h : PageAddr phys) : phys &&& pteAddrMask = phys := by
  obtain ⟨k, hk⟩ := h.aligned
  have hlt := h.lt
  have hshift : phys = k <<< 12 := by rw [Nat.shiftLeft_eq, hk, pageSize]; omega
  have hkk : k &&& (2 ^ 40 - 1) = k := by
    rw [Nat.and_two_pow_sub_one_eq_mod, Nat.mod_eq_of_lt]
    unfold pageSize at hk
    omega
  calc phys &&& pteAddrMask = k <<< 12 &&& (2 ^ 40 - 1) <<< 12 := by rw [hshift]; rfl
    _ = (k &&& (2 ^ 40 - 1)) <<< 12 := Nat.shiftLeft_and_distrib.symm
    _ = phys := by rw [hkk, hshift]

theorem PageAddr.and_flagsMask {phys : Nat} (h : PageAddr phys) : phys &&& pteFlagsMask = 0 := by
  rw [← h.and_mask, Nat.and_assoc, show pteAddrMask &&& pteFlagsMask = 0 by decide, Nat.and_zero]

theorem PageFlags.and_flagsMask {flags : Nat} (h : PageFlags flags) :
    flags &&& pteFlagsMask = flags := by
  have hall : flags &&& (pteFlagsMask ||| pteAddrMask) = flags := by
    rw [show pteFlagsMask ||| pteAddrMask = 2 ^ 64 - 1 by decide,
      Nat.and_two_pow_sub_one_eq_mod, Nat.mod_eq_of_lt h.lt]
  rw [Nat.and_or_distrib_left, h.apart, Nat.or_zero] at hall
  exact hall

theorem pteGetAddr_or {phys flags : Nat} (hp : PageAddr phys)
    (hf : flags &&& pteAddrMask = 0) : pteGetAddr (phys ||| flags) = phys := by
  rw [pteGetAddr, Nat.and_or_distrib_right, hp.and_mask, hf, Nat.or_zero]

theorem pteGetFlags_or {phys flags : Nat} (hp : PageAddr phys) (hf : PageFlags flags) :
    pteGetFlags (phys ||| flags) = flags := by
  rw [pteGetFlags, Nat.and_or_distrib_right, hp.and_flagsMask, hf.and_flagsMask, Nat.zero_or]

theorem pteGetAddr_flags_or {phys : Nat} (hp : PageAddr phys) (value : Nat) :
    pteGetAddr (pteGetFlags value ||| phys) = phys := by
  rw [Nat.or_comm, pteGetAddr_or hp]
  rw [pteGetFlags, Nat.and_assoc, show pteFlagsMask &&& pteAddrMask = 0 by decide, Nat.and_zero]

theorem pteGetFlags_flags_or {phys : Nat} (hp : PageAddr phys) (value : Nat) :
    pteGetFlags (pteGetFlags value ||| phys) = pteGetFlags value := by
  rw [pteGetFlags, Nat.and_or_distrib_right, hp.and_flagsMask, Nat.or_zero, pteGetFlags,
    Nat.and_assoc, Nat.and_self]

theorem present_or {phys flags : Nat} (h : flags &&& ptePresent ≠ 0) :
    (phys ||| flags) &&& ptePresent ≠ 0 := by
  rw [Nat.and_or_distrib_right]
  intro h0
  exact h (Nat.or_eq_zero_iff.mp h0).2

theorem present_zero : (0 : Nat) &&& ptePresent = 0 := Nat.zero_and _

theorem getFlags_and_present (value : Nat) :
    pteGetFlags value &&& ptePresent = value &&& ptePresent := by
  rw [pteGetFlags, Nat.and_assoc, show pteFlagsMask &&& ptePresent = ptePresent by decide]

/-- What an entry stores as its address is always an address an entry can hold. -/
theorem pageAddr_pteGetAddr (value : Nat) : PageAddr (pteGetAddr value) := by
  have hmask : pteAddrMask = (2 ^ 40 - 1) <<< 12 := by decide
  have hval : pteGetAddr value = (value >>> 12 &&& (2 ^ 40 - 1)) <<< 12 := by
    apply Nat.eq_of_testBit_eq
    intro i
    rw [pteGetAddr, hmask, Nat.testBit_and, Nat.testBit_shiftLeft, Nat.testBit_shiftLeft,
      Nat.testBit_and, Nat.testBit_shiftRight]
    by_cases hi : 12 ≤ i
    · simp [hi]
    · simp [hi]
  refine ⟨?_, ?_⟩
  · rw [hval, Nat.shiftLeft_eq]
    exact Nat.dvd_mul_left _ _
  · rw [hval, Nat.shiftLeft_eq, Nat.and_two_pow_sub_one_eq_mod]
    have := Nat.mod_lt (value >>> 12) (show 0 < 2 ^ 40 by decide)
    omega

theorem pteGetAddr_ne_invalid (value : Nat) : pteGetAddr value ≠ invalidPhys := by
  have := (pageAddr_pteGetAddr value).lt
  unfold invalidPhys
  omega

theorem nextTable_zero : nextTable 0 = none := by decide

/-- The entry `get_next_level` writes leads to the page it allocated. -/
theorem nextTable_table {page : Nat} (h : PageAddr page) :
    nextTable (page ||| ptePresent ||| pteWritable ||| pteUser) = some page := by
  have hor : page ||| ptePresent ||| pteWritable ||| pteUser
      = page ||| (ptePresent ||| pteWritable ||| pteUser) := by
    rw [Nat.or_assoc, Nat.or_assoc, Nat.or_assoc]
  rw [hor, nextTable, if_pos (present_or (by decide)), pteGetAddr_or h (by decide)]

/-! ## Indices -/

theorem and_shift_mask (virt k : Nat) :
    (virt &&& (0x1ff <<< k)) >>> k = virt / 2 ^ k % 512 := by
  rw [Nat.shiftRight_and_distrib, Nat.shiftLeft_shiftRight, Nat.shiftRight_eq_div_pow]
  exact Nat.and_two_pow_sub_one_eq_mod _ 9

theorem pml4Entry_eq (virt : Nat) : pml4Entry virt = virt / 2 ^ 39 % 512 := and_shift_mask _ _
theorem pml3Entry_eq (virt : Nat) : pml3Entry virt = virt / 2 ^ 30 % 512 := and_shift_mask _ _
theorem pml2Entry_eq (virt : Nat) : pml2Entry virt = virt / 2 ^ 21 % 512 := and_shift_mask _ _
theorem pml1Entry_eq (virt : Nat) : pml1Entry virt = virt / 2 ^ 12 % 512 := and_shift_mask _ _

/-- The virtual page number: bits 12 to 47. -/
def vpn (virt : Nat) : Nat := virt / 2 ^ 12 % 2 ^ 36

@[simp] theorem length_levels (virt : Nat) : (levels virt).length = 3 := rfl

theorem vpn_eq_iff {virt virt' : Nat} :
    vpn virt = vpn virt' ↔ levels virt = levels virt' ∧ pml1Entry virt = pml1Entry virt' := by
  simp only [levels, List.cons.injEq, and_true, pml4Entry_eq, pml3Entry_eq, pml2Entry_eq,
    pml1Entry_eq, vpn]
  omega

end Lyre.Vmm

/-!
## What the page table functions do to the entries

The pagemaps of a system are a forest of tables in physical memory (`Wf`): all of them share
the tables below some of their top entries, otherwise every table has one place. What a caller
sees of a pagemap is the entry of each page, `pte`.

Going down the tables may hang empty tables below missing entries. `Ext` says what that may
change: pages that nobody owned, and no entry. Each function of `vmm.c` is then an extension
followed by at most one write to an entry.
-/

namespace Lyre.Vmm

open Infra.Radix

section

variable {σ : Type} {A : PageAllocator σ} {roots : Nat → Prop} {shared : Nat → Prop}
variable {s s' s'' : State σ} {r r' t : Nat} {virt virt' : Nat}

/-- `t` is a table of one of the pagemaps. -/
def TablePage (roots : Nat → Prop) (s : State σ) (t : Nat) : Prop :=
  IsTable nextTable 3 roots s.mem t

/-- The page table entry of a page, `0` when a table on the way is missing. -/
def pte (s : State σ) (r virt : Nat) : Nat :=
  leaf nextTable s.mem 0 r (levels virt) (pml1Entry virt)

/-- The page tables are a forest and their pages are taken from the allocator. -/
structure Wf (A : PageAllocator σ) (roots shared : Nat → Prop) (s : State σ) : Prop where
  forest : Forest nextTable 3 roots shared s.mem
  alloc : A.Inv s.pmm
  owned : ∀ t, TablePage roots s t → A.Owned s.pmm t

/-- `errno` plays no role. -/
theorem Wf.of_eq (h : Wf A roots shared s) (hm : s'.mem = s.mem) (hp : s'.pmm = s.pmm) :
    Wf A roots shared s' := by
  refine ⟨by rw [hm]; exact h.forest, by rw [hp]; exact h.alloc, ?_⟩
  intro t ht
  rw [hp]
  exact h.owned t (by unfold TablePage at *; rw [← hm]; exact ht)

theorem Wf.mono {roots' : Nat → Prop} (h : Wf A roots shared s) (hr : ∀ r, roots' r → roots r) :
    Wf A roots' shared s :=
  ⟨h.forest.mono hr, h.alloc, fun t ht => h.owned t (IsTable.mono hr ht)⟩

/-! ## Extensions -/

/-- `s'` has the tables of `s` and perhaps more; pages in use that are no tables keep their
contents. -/
structure Keeps (A : PageAllocator σ) (roots : Nat → Prop) (s s' : State σ) : Prop where
  owned : ∀ q, A.Owned s.pmm q → A.Owned s'.pmm q
  tables : ∀ t, TablePage roots s t → TablePage roots s' t
  tables_new : ∀ t, TablePage roots s' t → TablePage roots s t ∨ ¬ A.Owned s.pmm t
  data : ∀ q, A.Owned s.pmm q → ¬ TablePage roots s q → ∀ i, s'.mem q i = s.mem q i

/-- An extension also has the entries of `s`, and its tables in their places. -/
structure Ext (A : PageAllocator σ) (roots : Nat → Prop) (s s' : State σ) : Prop
    extends Keeps A roots s s' where
  leaf_eq : ∀ r p i, roots r → p.length = 3 →
    leaf nextTable s'.mem 0 r p i = leaf nextTable s.mem 0 r p i
  walk_some : ∀ r p t, roots r → p.length ≤ 3 → walk nextTable s.mem r p = some t →
    walk nextTable s'.mem r p = some t

namespace Keeps

theorem of_eq (hm : s'.mem = s.mem) (hp : s'.pmm = s.pmm) : Keeps A roots s s' := by
  refine ⟨fun q h => by rw [hp]; exact h, fun t h => ?_, fun t h => Or.inl ?_,
    fun q _ _ i => by rw [hm]⟩
  · unfold TablePage at *; rw [hm]; exact h
  · unfold TablePage at *; rw [← hm]; exact h

theorem not_table (h : Keeps A roots s s') {q : Nat} (hq : A.Owned s.pmm q)
    (ht : ¬ TablePage roots s q) : ¬ TablePage roots s' q := by
  intro hc
  rcases h.tables_new q hc with h1 | h1
  · exact ht h1
  · exact h1 hq

theorem trans (h : Keeps A roots s s') (h' : Keeps A roots s' s'') : Keeps A roots s s'' where
  owned q hq := h'.owned q (h.owned q hq)
  tables t ht := h'.tables t (h.tables t ht)
  tables_new t ht := by
    rcases h'.tables_new t ht with h1 | h1
    · exact h.tables_new t h1
    · exact Or.inr fun h2 => h1 (h.owned t h2)
  data q hq ht i := by
    rw [h'.data q (h.owned q hq) (h.not_table hq ht) i, h.data q hq ht i]

end Keeps

namespace Ext

theorem of_eq (hm : s'.mem = s.mem) (hp : s'.pmm = s.pmm) : Ext A roots s s' :=
  ⟨.of_eq hm hp, fun r p i _ _ => by rw [hm], fun r p t _ _ h => by rw [hm]; exact h⟩

theorem refl (s : State σ) : Ext A roots s s := of_eq rfl rfl

theorem trans (h : Ext A roots s s') (h' : Ext A roots s' s'') : Ext A roots s s'' :=
  ⟨h.toKeeps.trans h'.toKeeps,
    fun r p i hr hp => by rw [h'.leaf_eq r p i hr hp, h.leaf_eq r p i hr hp],
    fun r p t hr hp ht => h'.walk_some r p t hr hp (h.walk_some r p t hr hp ht)⟩

theorem pte_eq (h : Ext A roots s s') (hr : roots r) : pte s' r virt = pte s r virt :=
  h.leaf_eq r _ _ hr (length_levels virt)

end Ext

/-! ## Allocating a page -/

theorem Wf.fresh_page (h : Wf A roots shared s) (hne : (A.alloc s.pmm).1 ≠ 0) :
    ¬ TablePage roots s (A.alloc s.pmm).1 ∧ PageAddr (A.alloc s.pmm).1 :=
  ⟨fun ht => A.not_owned h.alloc hne (h.owned _ ht), A.aligned h.alloc, A.lt h.alloc⟩

/-- `pmm_alloc` changes only a page that nobody owned. -/
theorem pmmAlloc_mem (h : A.Inv s.pmm) {q : Nat} (hq : A.Owned s.pmm q) (i : Nat) :
    (pmmAlloc A s).2.mem q i = s.mem q i := by
  unfold pmmAlloc
  by_cases h0 : (A.alloc s.pmm).1 = 0
  · simp [h0]
  · have : q ≠ (A.alloc s.pmm).1 := fun he => A.not_owned h h0 (he ▸ hq)
    simp [h0, zeroPage, this]

theorem pmmAlloc_zeroed (hne : (A.alloc s.pmm).1 ≠ 0) (i : Nat) :
    (pmmAlloc A s).2.mem (A.alloc s.pmm).1 i = 0 := by
  simp [pmmAlloc, hne, zeroPage]

theorem Wf.frame (s' : State σ) (h : Wf A roots shared s) (hinv : A.Inv s'.pmm)
    (hown : ∀ q, A.Owned s.pmm q → A.Owned s'.pmm q)
    (hmem : ∀ q, A.Owned s.pmm q → ∀ i, s'.mem q i = s.mem q i) :
    Wf A roots shared s' ∧ Ext A roots s s' := by
  have hm : ∀ t, IsTable nextTable 3 roots s.mem t → ∀ i, s'.mem t i = s.mem t i :=
    fun t ht i => hmem t (h.owned t ht) i
  have htab : ∀ t, TablePage roots s' t ↔ TablePage roots s t := fun t => isTable_congr hm
  exact ⟨⟨h.forest.frame hm, hinv, fun t ht => hown t (h.owned t ((htab t).mp ht))⟩,
    ⟨hown, fun t ht => (htab t).mpr ht, fun t ht => Or.inl ((htab t).mp ht),
      fun q hq _ i => hmem q hq i⟩,
    fun r p i hr hp => leaf_congr hm hr (Nat.le_of_eq hp),
    fun r p t hr hp ht => by rw [walk_congr hm hr hp]; exact ht⟩

theorem Wf.pmmAlloc (h : Wf A roots shared s) :
    Wf A roots shared (pmmAlloc A s).2 ∧ Ext A roots s (pmmAlloc A s).2 :=
  h.frame _ (A.inv_alloc h.alloc) (fun _ hq => (A.owned_alloc h.alloc).mpr (Or.inl hq))
    fun _ hq i => pmmAlloc_mem h.alloc hq i

/-- `pmm_alloc` makes no table. -/
theorem Wf.pmmAlloc_tables (h : Wf A roots shared s) {t : Nat} :
    TablePage roots (Vmm.pmmAlloc A s).2 t ↔ TablePage roots s t :=
  isTable_congr fun _ ht i => pmmAlloc_mem h.alloc (h.owned _ ht) i

/-! ## Walking down -/

theorem getNextLevel_some {idx : Nat} {u : Nat} {allocate : Bool}
    (h : nextTable (s.mem t idx) = some u) : getNextLevel A s t idx allocate = (some u, s) := by
  simp [getNextLevel, h]

/-- The entry that leads to a table. -/
def tableEntry (q : Nat) : Nat := q ||| ptePresent ||| pteWritable ||| pteUser

theorem Wf.growAt {p : List Nat} {idx : Nat} (h : Wf A roots shared s) (hr : roots r)
    (hp : p.length < 3) (ht : walk nextTable s.mem r p = some t)
    (hn : nextTable (s.mem t idx) = none) (h0 : (A.alloc s.pmm).1 ≠ 0) :
    Forest.GrowAt nextTable 3 roots (Vmm.pmmAlloc A s).2.mem r p t idx (A.alloc s.pmm).1
      (tableEntry (A.alloc s.pmm).1) := by
  obtain ⟨hfresh, haddr⟩ := h.fresh_page h0
  have hm : ∀ v, IsTable nextTable 3 roots s.mem v →
      ∀ i, (Vmm.pmmAlloc A s).2.mem v i = s.mem v i :=
    fun v hv i => pmmAlloc_mem h.alloc (h.owned v hv) i
  exact
    { root := hr
      above := hp
      table := by rw [walk_congr hm hr (by omega)]; exact ht
      missing := by rw [hm t ⟨r, p, hr, by omega, ht⟩]; exact hn
      leads := nextTable_table haddr
      fresh := fun hc => hfresh ((isTable_congr hm).mp hc)
      empty := fun j => by rw [pmmAlloc_zeroed h0]; exact nextTable_zero }

theorem Wf.hang {p : List Nat} {idx : Nat} (h : Wf A roots shared s) (hr : roots r)
    (hp : p.length < 3) (ht : walk nextTable s.mem r p = some t)
    (hn : nextTable (s.mem t idx) = none) (h0 : (A.alloc s.pmm).1 ≠ 0)
    (hs : s' = store (Vmm.pmmAlloc A s).2 t idx (tableEntry (A.alloc s.pmm).1)) :
    Wf A roots shared s' ∧ Ext A roots s s' ∧
      walk nextTable s'.mem r (p ++ [idx]) = some (A.alloc s.pmm).1 := by
  obtain ⟨hwf, hext⟩ := h.pmmAlloc
  have g := h.growAt hr hp ht hn h0
  have hmem : s'.mem = setEntry (Vmm.pmmAlloc A s).2.mem t idx (tableEntry (A.alloc s.pmm).1) := by
    rw [hs]
    rfl
  have hpmm : s'.pmm = (Vmm.pmmAlloc A s).2.pmm := by
    rw [hs]
    rfl
  have htab : ∀ v, TablePage roots s' v ↔
      TablePage roots (Vmm.pmmAlloc A s).2 v ∨ v = (A.alloc s.pmm).1 := by
    intro v
    unfold TablePage
    rw [hmem]
    exact hwf.forest.isTable_grow g
  refine ⟨⟨by rw [hmem]; exact hwf.forest.grow g, by rw [hpmm]; exact hwf.alloc, ?_⟩,
    ⟨⟨by rw [hpmm]; exact hext.owned, ?_, ?_, ?_⟩, ?_, ?_⟩, ?_⟩
  · intro v hv
    rw [hpmm]
    rcases (htab v).mp hv with hv | rfl
    · exact hwf.owned v hv
    · exact (A.owned_alloc h.alloc).mpr (Or.inr ⟨rfl, h0⟩)
  · exact fun v hv => (htab v).mpr (Or.inl (hext.tables v hv))
  · intro v hv
    rcases (htab v).mp hv with hv | rfl
    · exact hext.tables_new v hv
    · exact Or.inr (A.not_owned h.alloc h0)
  · intro q hq hnt i
    have hqt : q ≠ t := fun he => hnt ⟨r, p, hr, by omega, he ▸ ht⟩
    rw [hmem]
    simp only [setEntry, hqt, false_and, if_false]
    exact pmmAlloc_mem h.alloc hq i
  · intro r' p' i hr' hp'
    rw [hmem, hwf.forest.leaf_grow g (fun j => pmmAlloc_zeroed h0 j) hr' hp']
    exact hext.leaf_eq r' p' i hr' hp'
  · intro r' p' v hr' hp' hv
    have hv := hext.walk_some r' p' v hr' hp' hv
    rw [hmem]
    by_cases hs : SamePos shared r (p ++ [idx]) r' p'
    · -- nothing was there
      have hnone := (hwf.forest.walk_samePos hr hr' hs).trans hv
      rw [g.broken] at hnone
      simp at hnone
    · exact ((hwf.forest.walk_grow g hr' hp').2 hs).trans hv
  · have hlen : (p ++ [idx]).length ≤ 3 := by
      rw [List.length_append, List.length_singleton]
      omega
    rw [hmem]
    exact (hwf.forest.walk_grow g hr hlen).1 (.refl _ _)

/--
One step down from the table at `(r, p)`: the forest stays one, no entry changes, and the table
returned, if any, is the one at the longer path.
-/
theorem getNextLevel_spec {p : List Nat} (idx : Nat) (allocate : Bool)
    (h : Wf A roots shared s) (hr : roots r) (hp : p.length < 3)
    (ht : walk nextTable s.mem r p = some t) :
    Wf A roots shared (getNextLevel A s t idx allocate).2 ∧
      Ext A roots s (getNextLevel A s t idx allocate).2 ∧
      ∀ u, (getNextLevel A s t idx allocate).1 = some u →
        walk nextTable (getNextLevel A s t idx allocate).2.mem r (p ++ [idx]) = some u := by
  cases hn : nextTable (s.mem t idx) with
  | some v =>
    rw [getNextLevel_some hn]
    refine ⟨h, .refl s, ?_⟩
    intro u hu
    rw [walk_concat, ht, ← hu]
    exact hn
  | none =>
    cases allocate with
    | false => simp [getNextLevel, hn, h, Ext.refl]
    | true =>
      obtain ⟨hwf, hext⟩ := h.pmmAlloc
      by_cases h0 : (A.alloc s.pmm).1 = 0
      · -- out of pages: only the allocator has moved
        have hres : getNextLevel A s t idx true
            = (none, { (Vmm.pmmAlloc A s).2 with errno := some .enomem }) := by
          simp [getNextLevel, hn, h0, Vmm.pmmAlloc]
        rw [hres]
        exact ⟨hwf.of_eq rfl rfl, hext.trans (.of_eq rfl rfl), fun u hu => by simp at hu⟩
      · have hres : getNextLevel A s t idx true = (some (A.alloc s.pmm).1,
            store (Vmm.pmmAlloc A s).2 t idx (tableEntry (A.alloc s.pmm).1)) := by
          simp [getNextLevel, hn, h0, Vmm.pmmAlloc, tableEntry]
        rw [hres]
        obtain ⟨hwf', hext', hwalk⟩ := h.hang hr hp ht hn h0 rfl
        exact ⟨hwf', hext', fun u hu => by rw [← hu]; exact hwalk⟩

theorem walkLevels_spec (allocate : Bool) (hr : roots r) : ∀ (path p : List Nat) {s : State σ}
    {t : Nat}, Wf A roots shared s → p.length + path.length ≤ 3 →
    walk nextTable s.mem r p = some t →
    Wf A roots shared (walkLevels A allocate s t path).2 ∧
      Ext A roots s (walkLevels A allocate s t path).2 ∧
      ∀ u, (walkLevels A allocate s t path).1 = some u →
        walk nextTable (walkLevels A allocate s t path).2.mem r (p ++ path) = some u
  | [], p, s, t, h, _, ht => by
    refine ⟨h, .refl s, ?_⟩
    intro u hu
    rw [List.append_nil, ← hu]
    exact ht
  | idx :: path, p, s, t, h, hp, ht => by
    rw [List.length_cons] at hp
    obtain ⟨hwf, hext, hwalk⟩ :=
      getNextLevel_spec idx allocate h hr (by omega) ht
    rcases hg : getNextLevel A s t idx allocate with ⟨_ | u, s₁⟩
    · rw [hg] at hwf hext
      have hres : walkLevels A allocate s t (idx :: path) = (none, s₁) := by
        simp [walkLevels, hg]
      rw [hres]
      exact ⟨hwf, hext, fun u hu => by simp at hu⟩
    · rw [hg] at hwf hext hwalk
      have hres : walkLevels A allocate s t (idx :: path) = walkLevels A allocate s₁ u path := by
        simp [walkLevels, hg]
      have hp' : (p ++ [idx]).length + path.length ≤ 3 := by
        rw [List.length_append, List.length_singleton]
        omega
      obtain ⟨hwf', hext', hwalk'⟩ :=
        walkLevels_spec allocate hr path _ hwf hp' (hwalk u rfl)
      rw [hres]
      refine ⟨hwf', hext.trans hext', ?_⟩
      intro v hv
      have := hwalk' v hv
      rwa [List.append_assoc, List.singleton_append] at this

/-- Without allocation the way down changes nothing and follows the tables that are there. -/
theorem walkLevels_false : ∀ (path : List Nat) (s : State σ) (t : Nat),
    walkLevels A false s t path = (walk nextTable s.mem t path, s)
  | [], _, _ => rfl
  | idx :: path, s, t => by
    rw [walkLevels, walk]
    cases hn : nextTable (s.mem t idx) with
    | none => simp [getNextLevel, hn]
    | some u =>
      rw [getNextLevel_some hn]
      exact walkLevels_false path s u

theorem walkLevels_supply (A : PageAllocator σ) : ∀ (path : List Nat) {s : State σ} (t : Nat) {n : Nat},
    A.Supplies s.pmm (path.length + n) →
    (walkLevels A true s t path).1 ≠ none ∧
      A.Supplies (walkLevels A true s t path).2.pmm n
  | [], s, t, n, h => ⟨by simp [walkLevels], by simpa [walkLevels] using h⟩
  | idx :: path, s, t, n, h => by
    rw [List.length_cons, Nat.add_right_comm] at h
    cases hn : nextTable (s.mem t idx) with
    | some u =>
      have hres : walkLevels A true s t (idx :: path) = walkLevels A true s u path := by
        simp [walkLevels, getNextLevel_some hn]
      rw [hres]
      exact walkLevels_supply A path u (h.le (by omega))
    | none =>
      have hres : walkLevels A true s t (idx :: path)
          = walkLevels A true (store (pmmAlloc A s).2 t idx
              ((A.alloc s.pmm).1 ||| ptePresent ||| pteWritable ||| pteUser))
              (A.alloc s.pmm).1 path := by
        simp [walkLevels, getNextLevel, hn, pmmAlloc, h.1]
      rw [hres]
      exact walkLevels_supply A path _ h.2

theorem walkLevels_took (A : PageAllocator σ) : ∀ (path : List Nat) (s : State σ) (t : Nat),
    A.Took s.pmm (walkLevels A true s t path).2.pmm path.length
  | [], s, _ => .refl _ _
  | idx :: path, s, t => by
    rw [List.length_cons, Nat.add_comm]
    cases hn : nextTable (s.mem t idx) with
    | some u =>
      rw [walkLevels, getNextLevel_some hn]
      exact (PageAllocator.Took.refl _ 1).trans (walkLevels_took A path s u)
    | none =>
      have hone : A.Took s.pmm (pmmAlloc A s).2.pmm 1 := .one _
      rw [walkLevels, getNextLevel, hn]
      by_cases h0 : (A.alloc s.pmm).1 = 0
      · simp only [Bool.true_eq_false, if_false, pmmAlloc, h0, if_true]
        exact hone.trans (.refl _ _)
      · simp only [Bool.true_eq_false, if_false, pmmAlloc, h0]
        exact hone.trans (walkLevels_took A path _ _)

/-! ## The entry of a page -/

/-- Two pagemaps look at the same entry: the same page, in one pagemap or below a shared top
entry. -/
def SameEntry (shared : Nat → Prop) (r virt r' virt' : Nat) : Prop :=
  vpn virt = vpn virt' ∧ (r = r' ∨ shared (pml4Entry virt))

theorem sameEntry_iff : SameEntry shared r virt r' virt' ↔
    SamePos shared r (levels virt) r' (levels virt') ∧ pml1Entry virt' = pml1Entry virt := by
  unfold SameEntry SamePos
  rw [vpn_eq_iff]
  simp only [levels, List.head?_cons, Option.some.injEq, exists_eq_left']
  tauto

/-- `pte` of the table and index that the walk finds. -/
theorem pte_of_walk (h : walk nextTable s.mem r (levels virt) = some t) :
    pte s r virt = s.mem t (pml1Entry virt) := by
  simp [pte, leaf, h]

theorem pte_of_walk_none (h : walk nextTable s.mem r (levels virt) = none) :
    pte s r virt = 0 := by
  simp [pte, leaf, h]

theorem Wf.pte_sameEntry (h : Wf A roots shared s) (hr : roots r) (hr' : roots r')
    (hs : SameEntry shared r virt r' virt') : pte s r' virt' = pte s r virt := by
  obtain ⟨hpos, hidx⟩ := sameEntry_iff.mp hs
  rw [pte, pte, leaf, leaf, hidx, h.forest.walk_samePos hr hr' hpos]

/-- Every page has in `s'` the entry it has in `s`. -/
def SameEntries (roots : Nat → Prop) (s s' : State σ) : Prop :=
  ∀ r virt, roots r → pte s' r virt = pte s r virt

/-- `s'` is `s` with the entry of one page replaced. -/
def Put (roots shared : Nat → Prop) (s s' : State σ) (r virt value : Nat) : Prop :=
  ∀ r' virt', roots r' →
    (SameEntry shared r virt r' virt' → pte s' r' virt' = value) ∧
      (¬ SameEntry shared r virt r' virt' → pte s' r' virt' = pte s r' virt')

theorem Ext.sameEntries (h : Ext A roots s s') : SameEntries roots s s' :=
  fun _ _ hr => h.pte_eq hr

theorem SameEntries.put {value : Nat} (h : SameEntries roots s s')
    (h' : Put roots shared s' s'' r virt value) : Put roots shared s s'' r virt value := by
  intro r' virt' hr'
  refine ⟨(h' r' virt' hr').1, fun hs => ?_⟩
  rw [(h' r' virt' hr').2 hs, h r' virt' hr']

theorem Wf.store_spec (value : Nat) (h : Wf A roots shared s) (hr : roots r)
    (ht : walk nextTable s.mem r (levels virt) = some t) :
    Wf A roots shared (store s t (pml1Entry virt) value) ∧
      Keeps A roots s (store s t (pml1Entry virt) value) ∧
      Put roots shared s (store s t (pml1Entry virt) value) r virt value := by
  have htab : ∀ v, TablePage roots (store s t (pml1Entry virt) value) v ↔ TablePage roots s v :=
    fun v => h.forest.isTable_setLeaf hr rfl ht
  refine ⟨⟨h.forest.setLeaf (by decide) hr rfl ht, h.alloc, fun v hv => h.owned v ((htab v).mp hv)⟩,
    ⟨fun q hq => hq, fun v hv => (htab v).mpr hv, fun v hv => Or.inl ((htab v).mp hv), ?_⟩, ?_⟩
  · intro q _ hnt i
    have hqt : q ≠ t := fun he => hnt ⟨r, levels virt, hr, Nat.le_refl 3, he ▸ ht⟩
    simp [store, setEntry, hqt]
  · intro r' virt' hr'
    constructor
    · intro hs
      obtain ⟨hs, hi⟩ := sameEntry_iff.mp hs
      unfold pte
      rw [hi]
      exact h.forest.leaf_setLeaf_same hr rfl ht hr' hs
    · intro hs
      exact h.forest.leaf_setLeaf_other hr rfl ht hr' (Nat.le_of_eq (length_levels virt'))
        fun hc => hs (sameEntry_iff.mpr hc)

/-! ## The functions of `vmm.c` -/

/-- The page is mapped. -/
def Present (s : State σ) (r virt : Nat) : Prop := pte s r virt &&& ptePresent ≠ 0

instance : Decidable (Present s r virt) := inferInstanceAs (Decidable (_ ≠ 0))

/-- What a call leaves behind that returns false and changes no entry. -/
def Refused (A : PageAllocator σ) (roots shared : Nat → Prop) (s : State σ)
    (res : Bool × State σ) : Prop :=
  res.1 = false ∧ Wf A roots shared res.2 ∧ Keeps A roots s res.2 ∧ SameEntries roots s res.2

/-- What a call leaves behind that returns true and replaces one entry. -/
def Done (A : PageAllocator σ) (roots shared : Nat → Prop) (s : State σ) (r virt value : Nat)
    (res : Bool × State σ) : Prop :=
  res.1 = true ∧ Wf A roots shared res.2 ∧ Keeps A roots s res.2 ∧
    Put roots shared s res.2 r virt value

/-- `vmm_map_page` refuses a page that is mapped, or it maps the page; it may also run out of
pages for tables. -/
theorem vmmMapPage_spec (virt phys flags : Nat) (h : Wf A roots shared s) (hr : roots r) :
    (Refused A roots shared s (vmmMapPage A s r virt phys flags) ∧
      (Present s r virt ∨ (walkLevels A true s r (levels virt)).1 = none)) ∨
    (Done A roots shared s r virt (phys ||| flags) (vmmMapPage A s r virt phys flags) ∧
      ¬ Present s r virt) := by
  obtain ⟨hwf, hext, hwalk⟩ := walkLevels_spec true hr (levels virt) [] h (by simp) rfl
  unfold vmmMapPage
  rcases hw : walkLevels A true s r (levels virt) with ⟨_ | pml1, s₁⟩
  · rw [hw] at hwf hext
    exact Or.inl ⟨⟨rfl, hwf, hext.toKeeps, hext.sameEntries⟩, Or.inr rfl⟩
  · rw [hw] at hwf hext hwalk
    have ht := hwalk pml1 rfl
    have hpte : pte s r virt = s₁.mem pml1 (pml1Entry virt) := by
      rw [← hext.pte_eq hr]
      exact pte_of_walk ht
    simp only
    split
    · next hpres =>
      exact Or.inl ⟨⟨rfl, hwf.of_eq rfl rfl, hext.toKeeps.trans (.of_eq rfl rfl),
        (hext.trans (.of_eq rfl rfl)).sameEntries⟩, Or.inl (by unfold Present; rw [hpte]; exact hpres)⟩
    · next hpres =>
      obtain ⟨hwf', hkeep, hput⟩ := hwf.store_spec (phys ||| flags) hr ht
      exact Or.inr ⟨⟨rfl, hwf', hext.toKeeps.trans hkeep, hext.sameEntries.put hput⟩,
        by unfold Present; rw [hpte]; exact hpres⟩

/-- With three pages left `vmm_map_page` fails only on a page that is mapped. -/
theorem vmmMapPage_supply (r virt phys flags : Nat) {n : Nat} (h : A.Supplies s.pmm (3 + n)) :
    (walkLevels A true s r (levels virt)).1 ≠ none ∧
      A.Supplies (vmmMapPage A s r virt phys flags).2.pmm n := by
  obtain ⟨hne, hsup⟩ := walkLevels_supply A (levels virt) r h
  refine ⟨hne, ?_⟩
  unfold vmmMapPage
  rcases hw : walkLevels A true s r (levels virt) with ⟨_ | pml1, s₁⟩
  · rw [hw] at hne
    exact absurd rfl hne
  · rw [hw] at hsup
    simp only
    split <;> exact hsup

theorem vmmMapPage_took (s : State σ) (r virt phys flags : Nat) :
    A.Took s.pmm (vmmMapPage A s r virt phys flags).2.pmm 3 := by
  have hwalk := walkLevels_took A (levels virt) s r
  unfold vmmMapPage
  rcases hw : walkLevels A true s r (levels virt) with ⟨_ | pml1, s₁⟩
  · rw [hw] at hwalk
    exact hwalk
  · rw [hw] at hwalk
    simp only
    split <;> exact hwalk

/-- The common part of `vmm_flag_page` and `vmm_unmap_page`: an entry that is there and present
is replaced by a function of itself. -/
theorem replace_spec {f : Nat → Nat} {g : State σ → Nat → Nat → Bool × State σ}
    (hg : ∀ s r virt, g s r virt = match walkLevels A false s r (levels virt) with
      | (none, s) => (false, s)
      | (some pml1, s) =>
        if s.mem pml1 (pml1Entry virt) &&& ptePresent = 0 then
          (false, { s with errno := some .einval })
        else (true, store s pml1 (pml1Entry virt) (f (s.mem pml1 (pml1Entry virt)))))
    (h : Wf A roots shared s) (hr : roots r) :
    (g s r virt).2.pmm = s.pmm ∧
    ((Refused A roots shared s (g s r virt) ∧ ¬ Present s r virt) ∨
      (Done A roots shared s r virt (f (pte s r virt)) (g s r virt) ∧ Present s r virt)) := by
  have hext : ∀ e, Ext A roots s { s with errno := e } := fun e => .of_eq rfl rfl
  rw [hg, walkLevels_false]
  cases hw : walk nextTable s.mem r (levels virt) with
  | none =>
    refine ⟨rfl, Or.inl ⟨⟨rfl, h, .of_eq rfl rfl, fun _ _ _ => rfl⟩, ?_⟩⟩
    unfold Present
    rw [pte_of_walk_none hw]
    exact fun hc => hc present_zero
  | some pml1 =>
    have hpte := pte_of_walk hw
    simp only
    split
    · next hpres =>
      refine ⟨rfl, Or.inl ⟨⟨rfl, h.of_eq rfl rfl, (hext _).toKeeps, (hext _).sameEntries⟩, ?_⟩⟩
      unfold Present
      rw [hpte]
      exact fun hc => hc hpres
    · next hpres =>
      obtain ⟨hwf, hkeep, hput⟩ :=
        h.store_spec (f (s.mem pml1 (pml1Entry virt))) hr hw
      rw [← hpte] at hwf hkeep hput ⊢
      exact ⟨rfl, Or.inr ⟨⟨rfl, hwf, hkeep, hput⟩, by unfold Present; rw [hpte]; exact hpres⟩⟩

theorem vmmFlagPage_spec (virt flags : Nat) (h : Wf A roots shared s) (hr : roots r) :
    (vmmFlagPage A s r virt flags).2.pmm = s.pmm ∧
    ((Refused A roots shared s (vmmFlagPage A s r virt flags) ∧ ¬ Present s r virt) ∨
      (Done A roots shared s r virt (pteGetAddr (pte s r virt) ||| flags)
        (vmmFlagPage A s r virt flags) ∧ Present s r virt)) :=
  replace_spec (f := fun e => pteGetAddr e ||| flags)
    (g := fun s r virt => vmmFlagPage A s r virt flags) (fun _ _ _ => rfl) h hr

theorem vmmUnmapPage_spec (virt : Nat) (h : Wf A roots shared s) (hr : roots r) :
    (vmmUnmapPage A s r virt).2.pmm = s.pmm ∧
    ((Refused A roots shared s (vmmUnmapPage A s r virt) ∧ ¬ Present s r virt) ∨
      (Done A roots shared s r virt 0 (vmmUnmapPage A s r virt) ∧ Present s r virt)) :=
  replace_spec (f := fun _ => 0) (g := fun s r virt => vmmUnmapPage A s r virt)
    (fun _ _ _ => rfl) h hr

/-- An entry that is there can be unmapped, whatever the rest of memory looks like. -/
theorem vmmUnmapPage_of_present (h : Present s r virt) :
    (vmmUnmapPage A s r virt).1 = true := by
  unfold vmmUnmapPage
  rw [walkLevels_false]
  cases hw : walk nextTable s.mem r (levels virt) with
  | none => exact absurd present_zero (by unfold Present at h; rw [pte_of_walk_none hw] at h; exact h)
  | some pml1 =>
    unfold Present at h
    rw [pte_of_walk hw] at h
    simp [h]

/-- `vmm_virt2phys` reads the entry. -/
theorem vmmVirt2phys_eq (s : State σ) (r virt : Nat) :
    vmmVirt2phys A s r virt =
      if Present s r virt then pteGetAddr (pte s r virt) else invalidPhys := by
  unfold vmmVirt2phys vmmVirt2pte
  rw [walkLevels_false]
  cases hw : walk nextTable s.mem r (levels virt) with
  | none => simp [Present, pte_of_walk_none hw]
  | some pml1 =>
    simp only [Present, pte_of_walk hw, getFlags_and_present, ne_eq, ite_not]

/-! ## New pagemaps -/

/-- The entries that every pagemap shares with the kernel's: the upper half. -/
def upperHalf (i : Nat) : Prop := 256 ≤ i ∧ i < 512

instance (i : Nat) : Decidable (upperHalf i) := inferInstanceAs (Decidable (_ ∧ _))

/-- `r₀` is a new pagemap, empty below the shared entries; the others are as they were. -/
structure Created (A : PageAllocator σ) (roots : Nat → Prop) (s s' : State σ) (r₀ : Nat) : Prop where
  fresh : ¬ A.Owned s.pmm r₀
  wf : Wf A (fun x => roots x ∨ x = r₀) upperHalf s'
  ext : Ext A roots s s'
  tables : ∀ t, TablePage roots s' t → TablePage roots s t
  tables_new : ∀ t, TablePage (fun x => roots x ∨ x = r₀) s' t → TablePage roots s t ∨ t = r₀
  pte_zero : ∀ virt, ¬ upperHalf (pml4Entry virt) → pte s' r₀ virt = 0
  top_zero : ∀ i, ¬ upperHalf i → s'.mem r₀ i = 0

/-- `vmm_new_pagemap` adds a pagemap; without a page for it nothing is new but the allocator. -/
theorem vmmNewPagemap_spec {kernel : Nat} (h : Wf A roots upperHalf s) (hk : roots kernel) :
    ((vmmNewPagemap A s kernel).1 = none ∧ Wf A roots upperHalf (vmmNewPagemap A s kernel).2 ∧
      Ext A roots s (vmmNewPagemap A s kernel).2) ∨
    ∃ r₀, (vmmNewPagemap A s kernel).1 = some r₀ ∧
      Created A roots s (vmmNewPagemap A s kernel).2 r₀ := by
  obtain ⟨hwf, hext⟩ := h.pmmAlloc
  by_cases h0 : (A.alloc s.pmm).1 = 0
  · have hres : vmmNewPagemap A s kernel
        = (none, { (Vmm.pmmAlloc A s).2 with errno := some .enomem }) := by
      simp [vmmNewPagemap, Vmm.pmmAlloc, h0]
    rw [hres]
    exact Or.inl ⟨rfl, hwf.of_eq rfl rfl, hext.trans (.of_eq rfl rfl)⟩
  · obtain ⟨hfresh, -⟩ := h.fresh_page h0
    have hres : vmmNewPagemap A s kernel = (some (A.alloc s.pmm).1,
        { (Vmm.pmmAlloc A s).2 with
          mem := copyUpper (Vmm.pmmAlloc A s).2.mem kernel (A.alloc s.pmm).1 }) := by
      simp [vmmNewPagemap, Vmm.pmmAlloc, h0]
    have hkr : kernel ≠ (A.alloc s.pmm).1 := fun he => hfresh (he ▸ IsTable.root hk)
    -- only the new page differs from what `pmm_alloc` left
    have hmem : ∀ q, A.Owned s.pmm q → ∀ i,
        copyUpper (Vmm.pmmAlloc A s).2.mem kernel (A.alloc s.pmm).1 q i = s.mem q i := by
      intro q hq i
      have hqr : q ≠ (A.alloc s.pmm).1 := fun he => A.not_owned h.alloc h0 (he ▸ hq)
      simp only [copyUpper, hqr, false_and, if_false]
      exact pmmAlloc_mem h.alloc hq i
    obtain ⟨hwf₁, hext₁⟩ := h.frame { (Vmm.pmmAlloc A s).2 with
      mem := copyUpper (Vmm.pmmAlloc A s).2.mem kernel (A.alloc s.pmm).1 }
      (A.inv_alloc h.alloc) (fun _ hq => (A.owned_alloc h.alloc).mpr (Or.inl hq)) hmem
    have htab : ∀ t, TablePage roots { (Vmm.pmmAlloc A s).2 with
        mem := copyUpper (Vmm.pmmAlloc A s).2.mem kernel (A.alloc s.pmm).1 } t →
        TablePage roots s t :=
      fun t ht => (isTable_congr fun t ht i => hmem t (h.owned t ht) i).mp ht
    have hzero : ∀ i, ¬ upperHalf i →
        copyUpper (Vmm.pmmAlloc A s).2.mem kernel (A.alloc s.pmm).1 (A.alloc s.pmm).1 i = 0 := by
      intro i hi
      rw [copyUpper, if_neg fun hc => hi hc.2, pmmAlloc_zeroed h0]
    have n : Forest.NewRoot nextTable 3 roots upperHalf
        (copyUpper (Vmm.pmmAlloc A s).2.mem kernel (A.alloc s.pmm).1) kernel
        (A.alloc s.pmm).1 :=
      { root := hk
        fresh := fun ht => hfresh (htab _ ht)
        copied := fun i hi => by
          rw [copyUpper, copyUpper, if_pos ⟨rfl, hi⟩, if_neg fun hc => hkr hc.1]
        empty := fun i hi => by
          rw [hzero i hi]
          exact nextTable_zero }
    rw [hres]
    refine Or.inr ⟨_, rfl, A.not_owned h.alloc h0, ⟨hwf₁.forest.addRoot n, hwf₁.alloc, ?_⟩, hext₁,
      htab, ?_, ?_, hzero⟩
    · intro t ht
      rcases n.isTable.mp ht with ht | rfl
      · exact hwf₁.owned t ht
      · exact (A.owned_alloc h.alloc).mpr (Or.inr ⟨rfl, h0⟩)
    · intro t ht
      exact (n.isTable.mp ht).imp (htab t) id
    · intro virt hv
      exact n.leaf hv

theorem vmmNewPagemap_some {kernel r₀ : Nat} (h : Wf A roots upperHalf s) (hk : roots kernel)
    (hvm : vmmNewPagemap A s kernel = (some r₀, s')) : Created A roots s s' r₀ := by
  rcases vmmNewPagemap_spec h hk with ⟨hr, _⟩ | ⟨r₁, hr, hc⟩
  · rw [hvm] at hr
    simp at hr
  · rw [hvm] at hr hc
    obtain rfl : r₀ = r₁ := Option.some.inj hr
    exact hc

theorem vmmNewPagemap_none {kernel : Nat} (h : Wf A roots upperHalf s) (hk : roots kernel)
    (hvm : vmmNewPagemap A s kernel = (none, s')) :
    Wf A roots upperHalf s' ∧ Ext A roots s s' := by
  rcases vmmNewPagemap_spec h hk with ⟨_, hwf, hext⟩ | ⟨r₁, hr, _⟩
  · rw [hvm] at hwf hext
    exact ⟨hwf, hext⟩
  · rw [hvm] at hr
    simp at hr

end

/-! ## A machine

Four megabytes of memory as a boot may leave it: the first two are taken, the kernel's top level
is page 1, its upper entries lead to pages 256 to 511, and one process has page 2. -/

/-- The page allocator of the machine. -/
def bootPmm : Pmm.State where
  bitmap byte := if byte < 64 then 0xff#8 else 0#8
  bitmapBase := 0
  highestPageIndex := 1024
  lastUsedIndex := 512

/-- The top levels of the machine. -/
def bootRoots (r : Nat) : Prop := r = 0x1000 ∨ r = 0x2000

instance (r : Nat) : Decidable (bootRoots r) := inferInstanceAs (Decidable (_ ∨ _))

/-- The memory of the machine. -/
def bootMem (t i : Nat) : Nat :=
  if bootRoots t ∧ upperHalf i then i * pageSize ||| ptePresent ||| pteWritable ||| pteUser else 0

def bootState : State Pmm.State where
  mem := bootMem
  pmm := bootPmm
  errno := none

theorem bootPmm_taken {i : Nat} (hi : i ≠ 0) (hlt : i < 512) : Pmm.Taken bootPmm (i * pageSize) := by
  refine Pmm.taken_iff.mpr ⟨hi, Nat.lt_trans hlt (by decide), ?_⟩
  have hbyte : i / 8 < 64 := by omega
  have hbit : i % 8 < 8 := Nat.mod_lt _ (by decide)
  have hff : bootPmm.bitmap (i / 8) = BitVec.allOnes 8 := if_pos hbyte
  rw [bitmapTest_eq, hff]
  exact (BitVec.getLsbD_allOnes).trans (decide_eq_true hbit)

theorem bootPmm_sound : Pmm.Sound bootPmm :=
  { cursor := by decide, zero := by decide, addressable := by decide }

theorem bootMem_next {k i u : Nat} (hk : bootRoots k)
    (h : nextTable (bootMem k i) = some u) : upperHalf i ∧ u = i * pageSize := by
  by_cases hi : upperHalf i
  · have haddr : PageAddr (i * pageSize) := by
      refine ⟨Nat.dvd_mul_left _ _, ?_⟩
      have := hi.2
      unfold pageSize
      omega
    rw [bootMem, if_pos ⟨hk, hi⟩, nextTable_table haddr] at h
    exact ⟨hi, (Option.some.inj h).symm⟩
  · rw [bootMem, if_neg fun hc => hi hc.2, nextTable_zero] at h
    simp at h

theorem bootMem_shallow : Forest.Shallow nextTable bootMem 0x1000 where
  empty {i u} h j := by
    obtain ⟨hi, rfl⟩ := bootMem_next (Or.inl rfl) h
    have : ¬ bootRoots (i * pageSize) := by
      have := hi.1
      unfold bootRoots pageSize
      omega
    rw [bootMem, if_neg fun hc => this hc.1, nextTable_zero]
  ne {i u} h := by
    obtain ⟨hi, rfl⟩ := bootMem_next (Or.inl rfl) h
    have := hi.1
    unfold pageSize
    omega
  inj {i j u} h h' := by
    obtain ⟨_, rfl⟩ := bootMem_next (Or.inl rfl) h
    obtain ⟨_, h'⟩ := bootMem_next (Or.inl rfl) h'
    exact Nat.eq_of_mul_eq_mul_right (by decide : 0 < pageSize) h'

theorem bootState_wf : Wf Pmm.allocator bootRoots upperHalf bootState := by
  have hsome : ∀ i, upperHalf i → nextTable (bootMem 0x1000 i) ≠ none := by
    intro i hi
    have haddr : PageAddr (i * pageSize) := by
      refine ⟨Nat.dvd_mul_left _ _, ?_⟩
      have := hi.2
      unfold pageSize
      omega
    rw [bootMem, if_pos ⟨Or.inl rfl, hi⟩, nextTable_table haddr]
    simp
  have hkernel : Forest nextTable 3 (· = 0x1000) upperHalf bootMem :=
    .shallow bootMem_shallow hsome
  have n : Forest.NewRoot nextTable 3 (· = 0x1000) upperHalf bootMem 0x1000 0x2000 :=
    { root := rfl
      fresh := by
        intro ht
        rcases bootMem_shallow.isTable ht with ht | ⟨i, hi⟩
        · simp at ht
        · obtain ⟨hi, ht⟩ := bootMem_next (Or.inl rfl) hi
          have := hi.1
          unfold pageSize at ht
          omega
      copied := fun i hi => by
        rw [bootMem, bootMem, if_pos ⟨Or.inr rfl, hi⟩, if_pos ⟨Or.inl rfl, hi⟩]
      empty := fun i hi => by
        rw [bootMem, if_neg fun hc => hi hc.2, nextTable_zero] }
  refine ⟨hkernel.addRoot n, bootPmm_sound, ?_⟩
  intro t ht
  rcases n.isTable.mp ht with ht | rfl
  · rcases bootMem_shallow.isTable ht with rfl | ⟨i, hi⟩
    · exact bootPmm_taken (i := 1) (by decide) (by decide)
    · obtain ⟨hup, rfl⟩ := bootMem_next (Or.inl rfl) hi
      have := hup.1
      exact bootPmm_taken (by omega) hup.2
  · exact bootPmm_taken (i := 2) (by decide) (by decide)

theorem bootState_walk {r i j : Nat} {p : List Nat} (hr : bootRoots r) :
    walk nextTable bootState.mem r (i :: j :: p) = none := by
  show walk nextTable bootMem r (i :: j :: p) = none
  rw [walk_cons]
  cases hn : nextTable (bootMem r i) with
  | none => rfl
  | some u =>
    obtain ⟨hi, rfl⟩ := bootMem_next hr hn
    have hnot : ¬ bootRoots (i * pageSize) := by
      have := hi.1
      unfold bootRoots pageSize
      omega
    show walk nextTable bootMem (i * pageSize) (j :: p) = none
    rw [walk_cons, bootMem, if_neg fun hc => hnot hc.1, nextTable_zero]
    rfl

theorem bootState_pte {r virt : Nat} (hr : bootRoots r) : pte bootState r virt = 0 :=
  pte_of_walk_none (bootState_walk hr)

end Lyre.Vmm
