import Lyre.Mm.Mmap
import Lyre.Properties.ForkMemory
import Lyre.Properties.MmapRanges
import Lyre.Properties.Pagemaps
import Lyre.Properties.Pages

/-!
# `mmap_range` on well-formed page tables

`mmap_range` maps a run of pages into a pagemap and into a new shadow pagemap. Whatever comes of
it, the pagemaps there were stay a forest, what was mapped stays mapped, and a page in use that is
no table does not become one (`mmapRange_kept`). With enough memory, and nothing mapped in the
interval, it succeeds, and every page of the interval is mapped (`mmapRange_maps`).

`Filled` says what mapping pages does to the tables.
-/

namespace Lyre

/-- The pages of a run. -/
def InRun (page pages q : Nat) : Prop := ∃ k < pages, q = page + k * pageSize

theorem inRun_or_apart {phys n t : Nat} (hphys : pageSize ∣ phys) (ht : pageSize ∣ t) :
    InRun phys n t ∨ t + pageSize ≤ phys ∨ phys + n * pageSize ≤ t := by
  obtain ⟨a, rfl⟩ := hphys
  obtain ⟨b, rfl⟩ := ht
  rcases Nat.lt_or_ge b a with hlt | hge
  · refine .inr (.inl ?_)
    rw [← Nat.mul_succ]
    exact Nat.mul_le_mul_left _ hlt
  · rcases Nat.lt_or_ge b (a + n) with hlt | hge'
    · refine .inl ⟨b - a, by omega, ?_⟩
      rw [Nat.mul_comm (b - a), ← Nat.mul_add, Nat.add_sub_cancel' hge]
    · refine .inr (.inr ?_)
      rw [Nat.mul_comm n, ← Nat.mul_add]
      exact Nat.mul_le_mul_left _ hge'

/-- What the callers of `pmm_alloc` and `pmm_free` rely on when they ask for several pages. -/
structure RunAllocator.Lawful {σ : Type} (A : RunAllocator σ) : Prop where
  inv_run : ∀ {s n}, A.Inv s → 0 < n → A.Inv (A.allocRun s n).2
  owned_run : ∀ {s n q}, A.Inv s → 0 < n → (A.Owned (A.allocRun s n).2 q ↔
    A.Owned s q ∨ ((A.allocRun s n).1 ≠ 0 ∧ InRun (A.allocRun s n).1 n q))
  fresh_run : ∀ {s n q}, A.Inv s → 0 < n → (A.allocRun s n).1 ≠ 0 → (A.allocRun s n).1 ≤ q →
    q < (A.allocRun s n).1 + n * pageSize → ¬ A.Owned s q
  inv_freeRun : ∀ {s p n}, A.Inv s → (∀ q, InRun p n q → A.Owned s q) → A.Inv (A.freeRun s p n)
  owned_freeRun : ∀ {s p n q}, A.Inv s → (∀ q, InRun p n q → A.Owned s q) →
    (A.Owned (A.freeRun s p n) q ↔ A.Owned s q ∧ ¬ InRun p n q)

theorem RunAllocator.Lawful.not_owned {σ : Type} {A : RunAllocator σ} {s : σ} {n : Nat}
    (hA : A.Lawful) (h : A.Inv s) (hn : 0 < n) (hne : (A.allocRun s n).1 ≠ 0) :
    ∀ q, InRun (A.allocRun s n).1 n q → ¬ A.Owned s q := by
  rintro q ⟨k, hk, rfl⟩
  exact hA.fresh_run h hn hne (Nat.le_add_right _ _)
    (Nat.add_lt_add_left (Nat.mul_lt_mul_of_pos_right hk (by decide)) _)

/-- The pages are whole pages of memory that a page table entry can lead to. -/
structure RunAllocator.Placing {σ : Type} (A : RunAllocator σ) : Prop extends A.Lawful where
  aligned_run : ∀ {s n}, A.Inv s → 0 < n → pageSize ∣ (A.allocRun s n).1
  lt_run : ∀ {s n}, A.Inv s → 0 < n → (A.allocRun s n).1 ≠ 0 →
    (A.allocRun s n).1 + n * pageSize ≤ 2 ^ 52

/-- No page is no memory. -/
structure RunAllocator.Sized {σ : Type} (A : RunAllocator σ) : Prop extends A.Placing where
  none_run : ∀ s, (A.allocRun s 0).1 = 0

namespace Pmm

theorem inRun_iff {page n i : Nat} :
    InRun (page * pageSize) n (i * pageSize) ↔ page ≤ i ∧ i < page + n := by
  unfold InRun pageSize
  constructor
  · rintro ⟨k, hk, he⟩
    omega
  · exact fun h => ⟨i - page, by omega, by omega⟩

/-- **`pmm.c` gives out runs of pages that nobody has.** -/
theorem runs_lawful : runs.Lawful where
  inv_run {s n} h hn := by
    obtain ⟨hhi, hcur, hcase⟩ := pmmAllocNozero_spec h.toGood (show 1 ≤ n from hn)
    show Sound (pmmAllocNozero s n).2
    refine ⟨⟨by rw [hhi]; exact hcur, ?_⟩, by rw [hhi]; exact h.addressable⟩
    show bitmapTest (pmmAllocNozero s n).2.bitmap 0 = true
    rcases hcase with ⟨_, hb⟩ | ⟨page, _, _, _, _, hb⟩
    · rw [hb]
      exact h.zero
    · rw [hb, bitmapTest_setRange, h.zero, Bool.or_true]
  owned_run {s n q} h hn := by
    show Taken (pmmAllocNozero s n).2 q ↔
      Taken s q ∨ ((pmmAllocNozero s n).1 ≠ 0 ∧ InRun (pmmAllocNozero s n).1 n q)
    obtain ⟨hhi, _, ⟨h0, hb⟩ | ⟨page, hp, hpe, hle, hclear, hb⟩⟩ :=
      pmmAllocNozero_spec h.toGood (show 1 ≤ n from hn)
    · unfold Taken
      rw [hhi, hb, h0]
      simp
    · have hne : page * pageSize ≠ 0 := Nat.mul_ne_zero hp (by decide)
      unfold Taken
      rw [hhi, hb, hpe]
      constructor
      · rintro ⟨i, rfl, hi, hlt, ht⟩
        rw [bitmapTest_setRange, Bool.or_eq_true, decide_eq_true_eq] at ht
        rcases ht with ht | ht
        · exact Or.inr ⟨hne, inRun_iff.mpr ht⟩
        · exact Or.inl ⟨i, rfl, hi, hlt, ht⟩
      · rintro (⟨i, rfl, hi, hlt, ht⟩ | ⟨-, k, hk, rfl⟩)
        · exact ⟨i, rfl, hi, hlt, by rw [bitmapTest_setRange, ht, Bool.or_true]⟩
        · refine ⟨page + k, by rw [Nat.add_mul], by omega, by omega, ?_⟩
          rw [bitmapTest_setRange, decide_eq_true (by omega), Bool.true_or]
  fresh_run {s n q} h hn hne hle hlt ho := by
    obtain ⟨_, _, ⟨h0, _⟩ | ⟨page, hp, hpe, _, hclear, _⟩⟩ :=
      pmmAllocNozero_spec h.toGood (show 1 ≤ n from hn)
    · exact hne h0
    · obtain ⟨i, rfl, hi, hi', ht⟩ := ho
      change (pmmAllocNozero s n).1 ≤ _ at hle
      change _ < (pmmAllocNozero s n).1 + _ at hlt
      rw [hpe] at hle hlt
      rw [hclear i (by unfold pageSize at *; omega) (by unfold pageSize at *; omega)] at ht
      simp at ht
  inv_freeRun {s p n} h hp := by
    refine ⟨⟨h.cursor, ?_⟩, h.addressable⟩
    show bitmapTest (resetRange s.bitmap (p / pageSize) n) 0 = true
    rw [bitmapTest_resetRange, h.zero, Bool.and_true, Bool.not_eq_true', decide_eq_false_iff_not]
    intro hc
    have ht : Taken s p := hp p ⟨0, by omega, by omega⟩
    obtain ⟨i, rfl, hne, -⟩ := ht
    rw [Nat.mul_div_cancel i (by decide : 0 < pageSize)] at hc
    omega
  owned_freeRun {s p n q} h hp := by
    show Taken (pmmFree s p n) q ↔ Taken s q ∧ ¬ InRun p n q
    rcases Nat.eq_zero_or_pos n with rfl | hn
    · unfold Taken pmmFree InRun
      simp [bitmapTest_resetRange, Nat.lt_or_ge]
    · obtain ⟨j, rfl, -, -⟩ := hp p ⟨0, hn, by omega⟩
      have hpage : j * pageSize / pageSize = j := Nat.mul_div_cancel j (by decide)
      unfold Taken pmmFree
      rw [hpage]
      constructor
      · rintro ⟨i, rfl, hi, hlt, ht⟩
        rw [bitmapTest_resetRange, Bool.and_eq_true, Bool.not_eq_true', decide_eq_false_iff_not] at ht
        exact ⟨⟨i, rfl, hi, hlt, ht.2⟩, fun hc => ht.1 (inRun_iff.mp hc)⟩
      · rintro ⟨⟨i, rfl, hi, hlt, ht⟩, hno⟩
        refine ⟨i, rfl, hi, hlt, ?_⟩
        rw [bitmapTest_resetRange, ht, Bool.and_true, Bool.not_eq_true', decide_eq_false_iff_not]
        exact fun hc => hno (inRun_iff.mpr hc)

theorem runs_placing : runs.Placing where
  toLawful := runs_lawful
  aligned_run {s n} h hn := by
    show pageSize ∣ (pmmAllocNozero s n).1
    obtain ⟨-, -, ⟨h0, -⟩ | ⟨page, -, hpe, -⟩⟩ := pmmAllocNozero_spec h.toGood (show 1 ≤ n from hn)
    · rw [h0]
      exact Nat.dvd_zero _
    · rw [hpe]
      exact Nat.dvd_mul_left _ _
  lt_run {s n} h hn hne := by
    have hle := h.addressable
    obtain ⟨-, -, ⟨h0, -⟩ | ⟨page, -, hpe, hpl, -⟩⟩ :=
      pmmAllocNozero_spec h.toGood (show 1 ≤ n from hn)
    · exact absurd h0 hne
    · show (pmmAllocNozero s n).1 + n * pageSize ≤ 2 ^ 52
      rw [hpe]
      unfold pageSize
      omega

theorem innerAllocLoop_zero (bitmap : Bitmap) : ∀ (turns last p : Nat),
    (innerAllocLoop bitmap 0 turns last p).1 = none
  | 0, _, _ => rfl
  | turns + 1, last, p => by
    rw [innerAllocLoop, if_neg (Nat.succ_ne_zero p)]
    split <;> exact innerAllocLoop_zero bitmap turns _ _

theorem innerAlloc_zero (s : State) (limit : Nat) : (innerAlloc s 0 limit).1 = 0 := by
  have hloop := innerAllocLoop_zero s.bitmap (limit - s.lastUsedIndex) s.lastUsedIndex 0
  unfold innerAlloc
  split
  · next hsome =>
    rw [hsome] at hloop
    simp at hloop
  · rfl

theorem runs_sized : runs.Sized where
  toPlacing := runs_placing
  none_run s := by
    show (pmmAllocNozero s 0).1 = 0
    simp only [pmmAllocNozero, innerAlloc_zero, if_true]

end Pmm

namespace Mmap

open Vmm Infra.Radix

section

variable {σ : Type} {A : RunAllocator σ} {roots : Nat → Prop}

/-! ## Runs of pages -/

/-- `pmm_alloc` of several pages makes no table; the pages are nobody else's. -/
theorem pmmAllocRun_ext {s s' : State σ} {n : Nat} {r : Option Nat} (hA : A.Lawful) (hn : 0 < n)
    (h : Wf A.toPageAllocator roots upperHalf s.vm) (hr : pmmAllocRun A s n = (r, s')) :
    (∃ vm, s' = { s with vm }) ∧ Wf A.toPageAllocator roots upperHalf s'.vm ∧
      Ext A.toPageAllocator roots s.vm s'.vm ∧
      ∀ p, r = some p → ∀ q, InRun p n q → A.Owned s'.vm.pmm q ∧ ¬ TablePage roots s'.vm q := by
  have howned : ∀ q, A.Owned s.vm.pmm q → A.Owned (A.allocRun s.vm.pmm n).2 q :=
    fun q hq => (hA.owned_run h.alloc hn).mpr (Or.inl hq)
  unfold pmmAllocRun at hr
  simp only at hr
  split at hr
  · obtain ⟨rfl, rfl⟩ := Prod.mk.inj hr
    obtain ⟨hwf, hext⟩ := h.frame { s.vm with pmm := (A.allocRun s.vm.pmm n).2 }
      (hA.inv_run h.alloc hn) howned fun q _ i => rfl
    exact ⟨⟨_, rfl⟩, hwf, hext, fun p hp => by simp at hp⟩
  · next h0 =>
    obtain ⟨rfl, rfl⟩ := Prod.mk.inj hr
    -- the pages that are zeroed belonged to nobody
    obtain ⟨hwf, hext⟩ := h.frame
      { s.vm with
        pmm := (A.allocRun s.vm.pmm n).2
        mem := zeroPages s.vm.mem (A.allocRun s.vm.pmm n).1 n }
      (hA.inv_run h.alloc hn) howned fun q hq _ =>
        if_neg fun hc => hA.fresh_run h.alloc hn h0 hc.1 hc.2 hq
    refine ⟨⟨_, rfl⟩, hwf, hext, ?_⟩
    rintro p hp q hq
    obtain rfl := Option.some.inj hp
    have hnew := hA.not_owned h.alloc hn h0 q hq
    refine ⟨(hA.owned_run h.alloc hn).mpr (Or.inr ⟨h0, hq⟩), fun ht => hnew ?_⟩
    exact h.owned q ((isTable_congr fun t ht _ =>
      if_neg fun hc => hA.fresh_run h.alloc hn h0 hc.1 hc.2 (h.owned t ht)).mp ht)

theorem pmmAllocRun_zero {s s' : State σ} {n page : Nat} (hr : pmmAllocRun A s n = (some page, s'))
    {t : Nat} (ht : page ≤ t) (ht' : t < page + n * pageSize) (i : Nat) : s'.vm.mem t i = 0 := by
  unfold pmmAllocRun at hr
  simp only at hr
  split at hr
  · simp at hr
  · obtain ⟨hp, rfl⟩ := Prod.mk.inj hr
    obtain rfl := Option.some.inj hp
    exact if_pos ⟨ht, ht'⟩

theorem pmmAllocRun_new {s s' : State σ} {n page : Nat} (hA : A.Lawful) (hn : 0 < n)
    (h : A.Inv s.vm.pmm) (hr : pmmAllocRun A s n = (some page, s')) :
    ∀ q, InRun page n q → ¬ A.Owned s.vm.pmm q := by
  unfold pmmAllocRun at hr
  simp only at hr
  split at hr
  · simp at hr
  · next hne =>
    obtain ⟨hp, -⟩ := Prod.mk.inj hr
    obtain rfl := Option.some.inj hp
    exact hA.not_owned h hn hne

theorem pmmAllocRun_placed {s s' : State σ} {n page : Nat} (hA : A.Placing) (hn : 0 < n)
    (h : A.Inv s.vm.pmm) (hr : pmmAllocRun A s n = (some page, s')) :
    page ≠ 0 ∧ pageSize ∣ page ∧ page + n * pageSize ≤ 2 ^ 52 := by
  unfold pmmAllocRun at hr
  simp only at hr
  split at hr
  · simp at hr
  · next hne =>
    obtain ⟨hp, -⟩ := Prod.mk.inj hr
    obtain rfl := Option.some.inj hp
    exact ⟨hne, hA.aligned_run h hn, hA.lt_run h hn hne⟩

/-! ## Mapping pages -/

/-- More pages are mapped, perhaps with more tables. -/
structure Filled (A : PageAllocator σ) (roots : Nat → Prop) (s s' : Vmm.State σ) : Prop where
  wf : Wf A roots upperHalf s'
  keeps : Keeps A roots s s'
  entry : ∀ r v, roots r → Present s r v → pte s' r v = pte s r v

theorem Filled.refl {A : PageAllocator σ} {s : Vmm.State σ} (h : Wf A roots upperHalf s) :
    Filled A roots s s := ⟨h, .of_eq rfl rfl, fun _ _ _ _ => rfl⟩

theorem Filled.present {A : PageAllocator σ} {s s' : Vmm.State σ} (h : Filled A roots s s')
    (r v : Nat) (hr : roots r) (hp : Present s r v) : Present s' r v := by
  unfold Present at *
  rwa [h.entry r v hr hp]

theorem Filled.trans {A : PageAllocator σ} {s s₁ s' : Vmm.State σ} (h : Filled A roots s s₁)
    (h' : Filled A roots s₁ s') : Filled A roots s s' :=
  ⟨h'.wf, h.keeps.trans h'.keeps, fun r v hr hp => by
    rw [h'.entry r v hr (h.present r v hr hp), h.entry r v hr hp]⟩

theorem Filled.of_ext {A : PageAllocator σ} {s s' : Vmm.State σ} (hwf : Wf A roots upperHalf s')
    (hext : Ext A roots s s') : Filled A roots s s' :=
  ⟨hwf, hext.toKeeps, fun _ _ hr _ => hext.pte_eq hr⟩

theorem vmmMapPage_filled {A : PageAllocator σ} {s : Vmm.State σ} {r : Nat}
    (h : Wf A roots upperHalf s) (hr : roots r) (virt phys flags : Nat) :
    Filled A roots s (vmmMapPage A s r virt phys flags).2 := by
  rcases vmmMapPage_spec virt phys flags h hr with
    ⟨⟨-, hwf, hkeep, hsame⟩, -⟩ | ⟨⟨-, hwf, hkeep, hput⟩, hno⟩
  · exact ⟨hwf, hkeep, fun r' v hr' _ => hsame r' v hr'⟩
  · refine ⟨hwf, hkeep, fun r' v hr' hp => (hput r' v hr').2 fun hs => hno ?_⟩
    -- the entry would be the one that was not there
    unfold Present at *
    rwa [← h.pte_sameEntry hr hr' hs]

theorem vmmMapPage_true {A : PageAllocator σ} {s vm : Vmm.State σ} {r virt phys flags : Nat}
    (h : Wf A roots upperHalf s) (hr : roots r)
    (hm : vmmMapPage A s r virt phys flags = (true, vm)) :
    Wf A roots upperHalf vm ∧ Put roots upperHalf s vm r virt (phys ||| flags) ∧
      ¬ Present s r virt := by
  rcases vmmMapPage_spec virt phys flags h hr with ⟨⟨hfalse, -⟩, -⟩ | ⟨⟨-, hwf, -, hput⟩, habs⟩
  · rw [hm] at hfalse
    simp at hfalse
  · rw [hm] at hwf hput
    exact ⟨hwf, hput, habs⟩

theorem vmmMapPage_maps {A : PageAllocator σ} {s : Vmm.State σ} {r virt n : Nat}
    (h : Wf A roots upperHalf s) (hr : roots r) (phys flags : Nat) (hno : ¬ Present s r virt)
    (hsup : A.Supplies s.pmm (3 + n)) : ∃ vm, vmmMapPage A s r virt phys flags = (true, vm) ∧
      Wf A roots upperHalf vm ∧ Put roots upperHalf s vm r virt (phys ||| flags) ∧
      A.Supplies vm.pmm n ∧ A.Took s.pmm vm.pmm 3 := by
  obtain ⟨hne, hsup'⟩ := vmmMapPage_supply r virt phys flags hsup
  have htook := vmmMapPage_took (A := A) s r virt phys flags
  rcases vmmMapPage_spec virt phys flags h hr with ⟨-, hp | hp⟩ | ⟨⟨htrue, hwf, -, hput⟩, -⟩
  · exact absurd hp hno
  · exact absurd hp hne
  · rcases hm : vmmMapPage A s r virt phys flags with ⟨ok, vm⟩
    rw [hm] at htrue hwf hput hsup' htook
    obtain rfl : ok = true := htrue
    exact ⟨vm, rfl, hwf, hput, hsup', htook⟩

theorem ptFlags_present (prot : Prot) : ptFlags prot &&& ptePresent ≠ 0 := by
  unfold ptFlags
  cases prot.write <;> cases prot.exec <;> decide

theorem mapInLocals_filled {A : PageAllocator σ} {virt phys flags : Nat} : ∀ {ids : List Nat} {s s' : State σ} {ok : Bool},
    Wf A roots upperHalf s.vm → (∀ id ∈ ids, roots (s.locals id).pagemap) →
    mapInLocals A virt phys flags ids s = some (ok, s') → Filled A roots s.vm s'.vm
  | [], s, s', ok, h, _, hm => by
    obtain ⟨-, rfl⟩ : true = ok ∧ s = s' := by simpa [mapInLocals] using hm
    exact .refl h
  | id :: ids, s, s', ok, h, hids, hm => by
    have hrest : ∀ id ∈ ids, roots (s.locals id).pagemap :=
      fun x hx => hids x (List.mem_cons_of_mem id hx)
    rw [mapInLocals] at hm
    split at hm
    · simp at hm
    · split at hm
      · have hfill := vmmMapPage_filled h (hids id List.mem_cons_self) virt phys flags
        split at hm
        · next vm hvm =>
          rw [hvm] at hfill
          obtain ⟨-, rfl⟩ : false = ok ∧ { s with vm } = s' := by simpa using hm
          exact hfill
        · next vm hvm =>
          rw [hvm] at hfill
          exact hfill.trans (mapInLocals_filled (s := { s with vm }) hfill.wf hrest hm)
      · exact mapInLocals_filled h hrest hm

/-- The page tables of a global range and of its pieces are among the roots. -/
structure Rooted (roots : Nat → Prop) (s : State σ) (global : Nat) : Prop where
  shadow : roots (s.globals global).shadowPagemap
  locals : ∀ id ∈ (s.globals global).locals, roots (s.locals id).pagemap

theorem mmapPageInRange_filled {A : PageAllocator σ} {s s' : State σ} {global virt phys : Nat}
    {prot : Prot} {ok : Bool} (h : Wf A roots upperHalf s.vm) (hR : Rooted roots s global)
    (hm : mmapPageInRange A s global virt phys prot = some (ok, s')) :
    (∃ vm, s' = { s with vm }) ∧ Filled A roots s.vm s'.vm := by
  have hfill := vmmMapPage_filled h hR.shadow virt phys (ptFlags prot)
  unfold mmapPageInRange at hm
  split at hm
  · next vm hvm =>
    rw [hvm] at hfill
    obtain ⟨-, rfl⟩ : false = ok ∧ { s with vm } = s' := by simpa using hm
    exact ⟨⟨vm, rfl⟩, hfill⟩
  · next vm hvm =>
    rw [hvm] at hfill
    obtain ⟨vm', hs'⟩ := mapInLocals_frame hm
    exact ⟨⟨vm', hs'⟩, hfill.trans
      (mapInLocals_filled (s := { s with vm }) hfill.wf hR.locals hm)⟩

theorem mmapRangePages_filled {global virt phys length : Nat} {prot : Prot} :
    ∀ {fuel i : Nat} {s s' : State σ} {ok : Bool}, Wf A.toPageAllocator roots upperHalf s.vm →
    Rooted roots s global → mmapRangePages A global virt phys length prot fuel i s = some (ok, s') →
    (∃ vm, s' = { s with vm }) ∧ Filled A.toPageAllocator roots s.vm s'.vm
  | 0, _, _, _, _, _, _, hm => by simp [mmapRangePages] at hm
  | fuel + 1, i, s, s', ok, h, hR, hm => by
    rw [mmapRangePages] at hm
    split at hm
    · split at hm
      · simp at hm
      · next s₁ hpage =>
        obtain ⟨-, rfl⟩ : false = ok ∧ s₁ = s' := by simpa using hm
        exact mmapPageInRange_filled h hR hpage
      · next s₁ hpage =>
        obtain ⟨⟨vm, rfl⟩, hfill⟩ := mmapPageInRange_filled h hR hpage
        obtain ⟨⟨vm', hs'⟩, hfill'⟩ := mmapRangePages_filled hfill.wf ⟨hR.shadow, hR.locals⟩ hm
        exact ⟨⟨vm', hs'⟩, hfill.trans hfill'⟩
    · obtain ⟨-, rfl⟩ : true = ok ∧ s = s' := by simpa using hm
      exact ⟨⟨s.vm, rfl⟩, .refl h⟩

/-! ## Mapping every page -/

/-- In some pagemaps, the pages from `b` up to `e` are mapped, and nothing else in the lower half. -/
def MapsPages (roots : Nat → Prop) (rs : List Nat) (s s' : Vmm.State σ) (b e : Nat) : Prop :=
  ∀ r v, roots r → v < lowEnd → (Present s' r v ↔ Present s r v ∨ (r ∈ rs ∧ b ≤ v ∧ v < e))

theorem MapsPages.trans {rs : List Nat} {s s₁ s' : Vmm.State σ} {b j e : Nat}
    (h : MapsPages roots rs s s₁ b j) (h' : MapsPages roots rs s₁ s' j e) (hb : b ≤ j) (he : j ≤ e) :
    MapsPages roots rs s s' b e := by
  intro r v hr hv
  have hsplit : b ≤ v ∧ v < e ↔ (b ≤ v ∧ v < j) ∨ (j ≤ v ∧ v < e) := by omega
  rw [h' r v hr hv, h r v hr hv, hsplit]
  tauto

/-- In some pagemaps, the pages from `b` up to `e` have the entries `f`. Every other entry of the lower
half is as it was. -/
def Gets (roots : Nat → Prop) (rs : List Nat) (s s' : Vmm.State σ) (b e : Nat) (f : Nat → Nat) :
    Prop :=
  ∀ r v, roots r → v < lowEnd → pte s' r v = if r ∈ rs ∧ b ≤ v ∧ v < e then f v else pte s r v

theorem Gets.trans {rs : List Nat} {s s₁ s' : Vmm.State σ} {b j e : Nat} {f : Nat → Nat}
    (h : Gets roots rs s s₁ b j f) (h' : Gets roots rs s₁ s' j e f) (hb : b ≤ j) (he : j ≤ e) :
    Gets roots rs s s' b e f := by
  intro r v hr hv
  rw [h' r v hr hv, h r v hr hv]
  by_cases hin : r ∈ rs ∧ b ≤ v ∧ v < e
  · rw [if_pos hin]
    split
    · rfl
    · next hnot => exact if_pos ⟨hin.1, hin.2.1, Nat.lt_of_not_le fun hj => hnot ⟨hin.1, hj, hin.2.2⟩⟩
  · rw [if_neg hin, if_neg fun hc => hin ⟨hc.1, by omega, hc.2.2⟩,
      if_neg fun hc => hin ⟨hc.1, hc.2.1, by omega⟩]

theorem Gets.congr {rs : List Nat} {s s' : Vmm.State σ} {b e : Nat} {f g : Nat → Nat}
    (h : Gets roots rs s s' b e f) (hfg : ∀ v, b ≤ v → v < e → g v = f v) :
    Gets roots rs s s' b e g := by
  intro r v hr hv
  rw [h r v hr hv]
  split
  · next hin => rw [hfg v hin.2.1 hin.2.2]
  · rfl

theorem Gets.of_put {s s' : Vmm.State σ} {r j value : Nat} (h : Put roots upperHalf s s' r j value)
    (hj : pageSize ∣ j) (hlow : j < lowEnd) :
    Gets roots [r] s s' j (j + pageSize) fun _ => value := by
  intro r' v hr' hv
  rw [h.low hj hlow hr' hv]
  simp only [List.mem_singleton]

theorem MapsPages.of_put {s s' : Vmm.State σ} {r j value : Nat}
    (h : Put roots upperHalf s s' r j value) (hval : value &&& ptePresent ≠ 0) (hj : pageSize ∣ j)
    (hlow : j < lowEnd) : MapsPages roots [r] s s' j (j + pageSize) := by
  intro r' v hr' hv
  unfold Present
  rw [Gets.of_put h hj hlow r' v hr' hv]
  simp only [List.mem_singleton]
  split
  · next hin => exact ⟨fun _ => Or.inr hin, fun _ => hval⟩
  · next hin => exact ⟨Or.inl, fun hc => hc.resolve_right hin⟩

/-- A range with one piece: the pages it gets go to its shadow pagemap and to one other. -/
structure OnePiece (roots : Nat → Prop) (s : State σ) (global shadow id pm : Nat) : Prop where
  root_shadow : roots shadow
  root : roots pm
  ne : pm ≠ shadow
  shadow : (s.globals global).shadowPagemap = shadow
  locals : (s.globals global).locals = [id]
  pagemap : (s.locals id).pagemap = pm
  live : s.localFreed id = false

section

variable {s s' : State σ} {global shadow id pm : Nat}

theorem OnePiece.rooted (h : OnePiece roots s global shadow id pm) : Rooted roots s global where
  shadow := by rw [h.shadow]; exact h.root_shadow
  locals x hx := by
    rw [h.locals, List.mem_singleton] at hx
    rw [hx, h.pagemap]
    exact h.root

/-- One page, mapped in neither pagemap, with memory for the tables of both. -/
theorem mmapPageInRange_maps {A : PageAllocator σ} {virt n : Nat} (phys : Nat) (prot : Prot)
    (h : Wf A roots upperHalf s.vm) (hone : OnePiece roots s global shadow id pm)
    (hcov : (s.locals id).covers virt = true) (hvirt : pageSize ∣ virt) (hlow : virt < lowEnd)
    (habs : ¬ Present s.vm shadow virt ∧ ¬ Present s.vm pm virt)
    (hsup : A.Supplies s.vm.pmm (6 + n)) :
    ∃ vm, mmapPageInRange A s global virt phys prot = some (true, { s with vm }) ∧
      Wf A roots upperHalf vm ∧ MapsPages roots [shadow, pm] s.vm vm virt (virt + pageSize) ∧
      A.Supplies vm.pmm n ∧ A.Took s.vm.pmm vm.pmm 6 := by
  have hval : (phys ||| ptFlags prot) &&& ptePresent ≠ 0 := present_or (ptFlags_present prot)
  have hsup' : A.Supplies s.vm.pmm (3 + (3 + n)) := by rwa [← Nat.add_assoc]
  obtain ⟨vm, hmap, hwf, hput, hsup₁, htook⟩ :=
    vmmMapPage_maps h hone.root_shadow phys (ptFlags prot) habs.1 hsup'
  have hone₁ := MapsPages.of_put hput hval hvirt hlow
  have habs₁ : ¬ Present vm pm virt := by
    rw [hone₁ pm virt hone.root hlow, List.mem_singleton]
    rintro (hc | ⟨hc, -⟩)
    · exact habs.2 hc
    · exact hone.ne hc
  obtain ⟨vm', hmap', hwf', hput', hsup₂, htook'⟩ :=
    vmmMapPage_maps hwf hone.root phys (ptFlags prot) habs₁ hsup₁
  have htwo := MapsPages.of_put hput' hval hvirt hlow
  refine ⟨vm', ?_, hwf', ?_, hsup₂, htook.trans htook'⟩
  · unfold mmapPageInRange
    rw [hone.shadow, hone.locals, hmap]
    simp only [mapInLocals, hone.live, Bool.false_eq_true, if_false, hcov, if_true, hone.pagemap,
      hmap']
  · intro r v hr hv
    rw [htwo r v hr hv, hone₁ r v hr hv]
    simp only [List.mem_cons, List.not_mem_nil, or_false]
    tauto

/-- A page that has been mapped was not mapped before, and has an entry now. -/
theorem mmapPageInRange_gets {A : PageAllocator σ} {virt phys : Nat} {prot : Prot}
    (h : Wf A roots upperHalf s.vm) (hone : OnePiece roots s global shadow id pm)
    (hcov : (s.locals id).covers virt = true) (hvirt : pageSize ∣ virt) (hlow : virt < lowEnd)
    (hm : mmapPageInRange A s global virt phys prot = some (true, s')) :
    ¬ Present s.vm pm virt ∧
      Gets roots [shadow, pm] s.vm s'.vm virt (virt + pageSize) fun _ => phys ||| ptFlags prot := by
  unfold mmapPageInRange at hm
  rw [hone.shadow, hone.locals] at hm
  split at hm
  · simp at hm
  · next vm hvm =>
    obtain ⟨hwf, hput, -⟩ := vmmMapPage_true h hone.root_shadow hvm
    have hone₁ := Gets.of_put hput hvirt hlow
    simp only [mapInLocals, hone.live, Bool.false_eq_true, if_false, hcov, if_true,
      hone.pagemap] at hm
    split at hm
    · simp at hm
    · next vm' hvm' =>
      obtain ⟨-, hput', habs⟩ := vmmMapPage_true hwf hone.root hvm'
      obtain ⟨-, rfl⟩ := Prod.mk.inj (Option.some.inj hm)
      have htwo := Gets.of_put hput' hvirt hlow
      -- the first call was about another pagemap
      have hsame : pte vm pm virt = pte s.vm pm virt := by
        rw [hone₁ pm virt hone.root hlow, if_neg fun hc => hone.ne (List.mem_singleton.mp hc.1)]
      refine ⟨fun hp => habs (by unfold Present at *; rwa [hsame]), fun r v hr hv => ?_⟩
      rw [htwo r v hr hv, hone₁ r v hr hv]
      simp only [List.mem_cons, List.not_mem_nil, or_false]
      split_ifs <;> tauto

theorem mmapPageInRange_upper {A : PageAllocator σ} {virt phys : Nat} {prot : Prot}
    (h : Wf A roots upperHalf s.vm) (hone : OnePiece roots s global shadow id pm)
    (hcov : (s.locals id).covers virt = true) (hup : upperHalf (pml4Entry virt)) :
    mmapPageInRange A s global virt phys prot ≠ some (true, s') := by
  intro hm
  unfold mmapPageInRange at hm
  rw [hone.shadow, hone.locals] at hm
  split at hm
  · simp at hm
  · next vm hvm =>
    obtain ⟨hwf, hput, -⟩ := vmmMapPage_true h hone.root_shadow hvm
    simp only [mapInLocals, hone.live, Bool.false_eq_true, if_false, hcov, if_true,
      hone.pagemap] at hm
    split at hm
    · simp at hm
    · next vm' hvm' =>
      obtain ⟨-, -, habs⟩ := vmmMapPage_true hwf hone.root hvm'
      -- the entry that the shadow pagemap has got
      refine habs ?_
      unfold Present
      rw [(hput pm virt hone.root).1 ⟨rfl, Or.inr hup⟩]
      exact present_or (ptFlags_present prot)

/-- The interval that `mmap_range` maps: whole pages in the lower half. -/
structure LowPages (virt length : Nat) : Prop where
  start : pageSize ∣ virt
  size : pageSize ∣ length
  fits : virt + length ≤ lowEnd

theorem LowPages.lt {virt length : Nat} (h : LowPages virt length) : virt + length < 2 ^ 64 := by
  have := h.fits
  have hlow : lowEnd = 2 ^ 47 := rfl
  omega

theorem LowPages.page {virt length i : Nat} (h : LowPages virt length) (hi : pageSize ∣ i) (hlt : i < length) :
    u64 (virt + i) = virt + i ∧ u64 (i + pageSize) = i + pageSize ∧ pageSize ∣ virt + i ∧
      virt + i < lowEnd ∧ i + pageSize ≤ length := by
  have := h.fits
  have := h.size
  have hlow : lowEnd = 2 ^ 47 := rfl
  refine ⟨u64_of_lt (by omega), u64_of_lt ?_, Nat.dvd_add h.start hi, by omega, ?_⟩ <;>
    unfold pageSize at * <;> omega

/-- The loop, with nothing mapped in the interval and memory for all tables. -/
theorem mmapRangePages_maps {virt length n : Nat} (phys : Nat) (prot : Prot)
    (hwin : LowPages virt length) : ∀ (fuel : Nat) {i k : Nat} {s : State σ}, Wf A.toPageAllocator roots upperHalf s.vm →
    OnePiece roots s global shadow id pm →
    (∀ v, virt ≤ v → v < virt + length → (s.locals id).covers v = true) →
    pageSize ∣ i → i + k * pageSize = length → k < fuel →
    (∀ v, virt + i ≤ v → v < virt + length → ¬ Present s.vm shadow v ∧ ¬ Present s.vm pm v) →
    A.Supplies s.vm.pmm (6 * k + n) →
    ∃ vm, mmapRangePages A global virt phys length prot fuel i s = some (true, { s with vm }) ∧
      Wf A.toPageAllocator roots upperHalf vm ∧
      MapsPages roots [shadow, pm] s.vm vm (virt + i) (virt + length) ∧ A.Supplies vm.pmm n ∧
      A.Took s.vm.pmm vm.pmm (6 * k)
  | 0, _, _, _, _, _, _, _, _, hfuel, _, _ => absurd hfuel (Nat.not_lt_zero _)
  | fuel + 1, i, 0, s, h, _, _, _, hk, _, _, hsup => by
    have hi : i = length := by omega
    refine ⟨s.vm, ?_, h, ?_, by simpa using hsup, .refl _ _⟩
    · rw [mmapRangePages, if_neg (by omega)]
    · intro r v _ _
      rw [hi]
      exact ⟨Or.inl, fun hc => hc.resolve_right fun hc => by omega⟩
  | fuel + 1, i, k + 1, s, h, hone, hcov, hi, hk, hfuel, habs, hsup => by
    have hlt : i < length := by unfold pageSize at hk; omega
    obtain ⟨hu, hu', hdvd, hlow, hle⟩ := hwin.page hi hlt
    obtain ⟨vm, hpage, hwf, hmaps, hsup₁, htook⟩ := mmapPageInRange_maps (n := 6 * k + n)
      (u64 (phys + i)) prot h hone (hcov _ (by omega) (by omega)) hdvd hlow
      (habs _ (Nat.le_refl _) (by omega)) (by rwa [show 6 + (6 * k + n) = 6 * (k + 1) + n by omega])
    have hone₁ : OnePiece roots { s with vm } global shadow id pm :=
      ⟨hone.root_shadow, hone.root, hone.ne, hone.shadow, hone.locals, hone.pagemap, hone.live⟩
    -- the pages behind are still not mapped
    have habs₁ : ∀ v, virt + (i + pageSize) ≤ v → v < virt + length →
        ¬ Present vm shadow v ∧ ¬ Present vm pm v := by
      intro v hv hv'
      have := hwin.fits
      rw [hmaps shadow v hone.root_shadow (by omega), hmaps pm v hone.root (by omega)]
      obtain ⟨h1, h2⟩ := habs v (by omega) hv'
      exact ⟨fun hc => hc.elim h1 fun hc => by omega, fun hc => hc.elim h2 fun hc => by omega⟩
    have hk' : i + pageSize + k * pageSize = length := by rw [Nat.add_mul] at hk; omega
    obtain ⟨vm', hrest, hwf', hmaps', hsup₂, htook'⟩ := mmapRangePages_maps phys prot hwin fuel (s := { s with vm }) hwf
      hone₁ hcov (Nat.dvd_add hi (Nat.dvd_refl _)) hk' (Nat.lt_of_succ_lt_succ hfuel) habs₁ hsup₁
    refine ⟨vm', ?_, hwf', ?_, hsup₂, by
      rw [Nat.mul_succ, Nat.add_comm]
      exact htook.trans htook'⟩
    · rw [mmapRangePages, if_pos hlt, hu, hpage, hu']
      exact hrest
    · rw [Nat.add_assoc] at hmaps
      exact hmaps.trans hmaps' (by omega) (by omega)

/-- The entry that `mmap_range` makes for an address of its interval. -/
def rangeEntry (virt phys : Nat) (prot : Prot) (v : Nat) : Nat :=
  u64 (phys + (v - virt) / pageSize * pageSize) ||| ptFlags prot

/-- When the loop gets to its end, it has mapped pages that were not mapped. -/
theorem mmapRangePages_gets {virt phys length : Nat} {prot : Prot} (hwin : LowPages virt length) :
    ∀ {fuel i : Nat} {s s' : State σ}, Wf A.toPageAllocator roots upperHalf s.vm →
    OnePiece roots s global shadow id pm →
    (∀ v, virt ≤ v → v < virt + length → (s.locals id).covers v = true) →
    pageSize ∣ i → i ≤ length →
    mmapRangePages A global virt phys length prot fuel i s = some (true, s') →
    (∀ v, virt + i ≤ v → v < virt + length → ¬ Present s.vm pm v) ∧
      Gets roots [shadow, pm] s.vm s'.vm (virt + i) (virt + length) (rangeEntry virt phys prot)
  | 0, _, _, _, _, _, _, _, _, hm => by simp [mmapRangePages] at hm
  | fuel + 1, i, s, s', h, hone, hcov, hi, hle, hm => by
    rw [mmapRangePages] at hm
    split at hm
    · next hlt =>
      obtain ⟨hu, hu', hdvd, hlow, hle'⟩ := hwin.page hi hlt
      rw [hu, hu'] at hm
      split at hm
      · simp at hm
      · simp at hm
      · next s₁ hpage =>
        obtain ⟨⟨vm, rfl⟩, hfill⟩ := mmapPageInRange_filled h hone.rooted hpage
        obtain ⟨habs, hgets⟩ :=
          mmapPageInRange_gets h hone (hcov _ (by omega) (by omega)) hdvd hlow hpage
        have hone₁ : OnePiece roots { s with vm } global shadow id pm :=
          ⟨hone.root_shadow, hone.root, hone.ne, hone.shadow, hone.locals, hone.pagemap, hone.live⟩
        obtain ⟨habs', hgets'⟩ := mmapRangePages_gets hwin hfill.wf hone₁ hcov
          (Nat.dvd_add hi (Nat.dvd_refl _)) hle' hm
        have hentry : Gets roots [shadow, pm] s.vm vm (virt + i) (virt + i + pageSize)
            (rangeEntry virt phys prot) := by
          refine hgets.congr fun v hv hv' => ?_
          have hback : (v - virt) / pageSize * pageSize = i := by
            unfold pageSize at *
            omega
          rw [rangeEntry, hback]
        rw [← Nat.add_assoc] at hgets'
        refine ⟨fun v hv hv' => ?_, hentry.trans hgets' (by omega) (by omega)⟩
        by_cases hin : v < virt + i + pageSize
        · have hpg : v / pageSize = (virt + i) / pageSize := by unfold pageSize at *; omega
          unfold Present at *
          rwa [pte_page hpg]
        · exact fun hp => habs' v (by omega) hv' (hfill.present pm v hone.root hp)
    · obtain ⟨-, rfl⟩ := Prod.mk.inj (Option.some.inj hm)
      obtain rfl : i = length := by omega
      exact ⟨fun v hv hv' => by omega, fun r v _ _ => by rw [if_neg (by omega)]⟩

theorem mmapRangePages_low {virt phys length : Nat} {prot : Prot} (hvirt : pageSize ∣ virt)
    (hlength : pageSize ∣ length) : ∀ {fuel i : Nat} {s s' : State σ},
    Wf A.toPageAllocator roots upperHalf s.vm → OnePiece roots s global shadow id pm →
    (∀ v, virt ≤ v → v < virt + length → (s.locals id).covers v = true) →
    pageSize ∣ i → virt + i ≤ lowEnd →
    mmapRangePages A global virt phys length prot fuel i s = some (true, s') →
    virt + length ≤ lowEnd
  | 0, _, _, _, _, _, _, _, _, hm => by simp [mmapRangePages] at hm
  | fuel + 1, i, s, s', h, hone, hcov, hi, hle, hm => by
    rw [mmapRangePages] at hm
    split at hm
    · next hlt =>
      have hlow : lowEnd = 2 ^ 47 := rfl
      rw [u64_of_lt (by omega)] at hm
      split at hm
      · simp at hm
      · simp at hm
      · next s₁ hpage =>
        have hcovi := hcov (virt + i) (Nat.le_add_right _ _) (Nat.add_lt_add_left hlt _)
        have hne : virt + i ≠ lowEnd := fun he =>
          mmapPageInRange_upper h hone hcovi (by rw [he]; decide) hpage
        obtain ⟨⟨vm, rfl⟩, hfill⟩ := mmapPageInRange_filled h hone.rooted hpage
        have hone₁ : OnePiece roots { s with vm } global shadow id pm :=
          ⟨hone.root_shadow, hone.root, hone.ne, hone.shadow, hone.locals, hone.pagemap, hone.live⟩
        rw [u64_of_lt (by unfold pageSize; omega)] at hm
        exact mmapRangePages_low hvirt hlength hfill.wf hone₁ hcov
          (Nat.dvd_add hi (Nat.dvd_refl _)) (by unfold pageSize at *; omega) hm
    · omega

end

/-! ## Calls that make a range -/

/-- What making a range needs of the mappings. -/
structure Ready (A : PageAllocator σ) (roots : Nat → Prop) (s : State σ) : Prop where
  wf : Wf A roots upperHalf s.vm
  kernel : roots s.kernelTop
  unfreed : ∀ id, s.nextId ≤ id → s.localFreed id = false

/-- What making a range keeps; `before` and `after` are the pagemaps there are. -/
structure Maintains (A : PageAllocator σ) (before after : Nat → Prop) (s s' : State σ) : Prop where
  ready : Ready A after s'
  data : ∀ q, A.Owned s.vm.pmm q → ¬ TablePage before s.vm q →
    A.Owned s'.vm.pmm q ∧ ¬ TablePage after s'.vm q
  contents : ∀ q, A.Owned s.vm.pmm q → ¬ TablePage before s.vm q →
    ∀ i, s'.vm.mem q i = s.vm.mem q i
  entry : ∀ r v, before r → after r → Present s.vm r v → pte s'.vm r v = pte s.vm r v

section

variable {A : PageAllocator σ} {before after : Nat → Prop} {s s₁ s' : State σ} {shadow : Nat}

theorem Maintains.present (h : Maintains A before after s s') (r v : Nat) (hb : before r)
    (ha : after r) (hp : Present s.vm r v) : Present s'.vm r v := by
  unfold Present at *
  rwa [h.entry r v hb ha hp]

theorem Maintains.trans (h : Maintains A before roots s s₁) (h' : Maintains A roots after s₁ s')
    (hsub : ∀ r, before r → after r → roots r) : Maintains A before after s s' where
  ready := h'.ready
  data q hq ht := by
    obtain ⟨hq₁, ht₁⟩ := h.data q hq ht
    exact h'.data q hq₁ ht₁
  contents q hq ht i := by
    obtain ⟨hq₁, ht₁⟩ := h.data q hq ht
    rw [h'.contents q hq₁ ht₁, h.contents q hq ht]
  entry r v hb ha hp := by
    have hr := hsub r hb ha
    rw [h'.entry r v hr ha (h.present r v hb hr hp), h.entry r v hb hr hp]

theorem Ready.of_filled {vm : Vmm.State σ} (h : Ready A roots s) (hf : Filled A roots s.vm vm) :
    Maintains A roots roots s { s with vm } where
  ready := ⟨hf.wf, h.kernel, h.unfreed⟩
  data q hq ht := ⟨hf.keeps.owned q hq, hf.keeps.not_table hq ht⟩
  contents := hf.keeps.data
  entry r v hr _ hp := hf.entry r v hr hp

theorem Ready.of_same (h : Ready A roots s) (hm : s'.vm.mem = s.vm.mem)
    (hp : s'.vm.pmm = s.vm.pmm) (hk : s'.kernelTop = s.kernelTop)
    (hu : ∀ id, s'.nextId ≤ id → s'.localFreed id = false) : Maintains A roots roots s s' where
  ready := ⟨h.wf.of_eq hm hp, by rw [hk]; exact h.kernel, hu⟩
  data q hq ht := by
    unfold TablePage at *
    rw [hp, hm]
    exact ⟨hq, ht⟩
  contents q _ _ i := by rw [hm]
  entry r v _ _ _ := by rw [pte, pte, hm]

theorem Ready.heapAlloc (h : Ready A roots s) {n : Option Nat} (hn : Mmap.heapAlloc s = (n, s')) :
    Maintains A roots roots s s' := by
  obtain ⟨-, rfl⟩ := Prod.mk.inj hn
  exact h.of_same rfl rfl rfl fun id hid => h.unfreed id (Nat.le_of_succ_le hid)

theorem Ready.setErrno (h : Ready A roots s) (e : Errno) :
    Maintains A roots roots s (Mmap.setErrno s e) :=
  h.of_same rfl rfl rfl h.unfreed

theorem Ready.newPagemap (h : Ready A roots s) (hn : Mmap.newPagemap A s = (some shadow, s')) :
    ¬ roots shadow ∧ s'.ranges shadow = [] ∧
      Maintains A roots (fun r => roots r ∨ r = shadow) s s' := by
  obtain ⟨vm, hvm, rfl⟩ := newPagemap_some hn
  have hc := vmmNewPagemap_some h.wf h.kernel hvm
  have hnew : ¬ roots shadow := fun hr => hc.fresh (h.wf.owned shadow (IsTable.root hr))
  refine ⟨hnew, by simp, ⟨hc.wf, Or.inl h.kernel, fun id hid => h.unfreed id (by simp at hid; omega)⟩,
    ?_, hc.ext.data, fun r v hr _ _ => hc.ext.pte_eq hr⟩
  intro q hq ht
  refine ⟨hc.ext.owned q hq, fun htab => ?_⟩
  rcases hc.tables_new q htab with htab | rfl
  · exact ht htab
  · exact hc.fresh hq

theorem Ready.newPagemap_none (h : Ready A roots s) (hn : Mmap.newPagemap A s = (none, s')) :
    Maintains A roots roots s s' := by
  unfold Mmap.newPagemap at hn
  split at hn
  · next s₁ hheap =>
    obtain ⟨-, rfl⟩ := Prod.mk.inj hn
    have hkept := h.heapAlloc hheap
    exact hkept.trans (hkept.ready.setErrno .enomem) fun _ hr _ => hr
  · next id s₁ hheap =>
    have hkept := h.heapAlloc hheap
    split at hn
    · next vm hvm =>
      obtain ⟨-, rfl⟩ := Prod.mk.inj hn
      obtain ⟨hwf, hext⟩ := vmmNewPagemap_none hkept.ready.wf hkept.ready.kernel hvm
      exact hkept.trans (hkept.ready.of_filled (.of_ext hwf hext)) fun _ hr _ => hr
    · simp at hn

theorem Maintains.write_run {mem : Mem Nat Nat Nat} {page n : Nat}
    (h : Maintains A roots roots s s') (hnew : ∀ q, InRun page n q → ¬ A.Owned s.vm.pmm q)
    (hused : ∀ q, InRun page n q → ¬ TablePage roots s'.vm q)
    (hmem : ∀ t, ¬ InRun page n t → ∀ i, mem t i = s'.vm.mem t i) :
    Maintains A roots roots s { s' with vm := { s'.vm with mem } } := by
  have htables : ∀ t, TablePage roots s'.vm t → ∀ i, mem t i = s'.vm.mem t i :=
    fun t ht => hmem t fun hin => hused t hin ht
  have htable : ∀ t, TablePage roots { s'.vm with mem } t ↔ TablePage roots s'.vm t :=
    fun t => isTable_congr htables
  refine ⟨⟨⟨h.ready.wf.forest.frame htables, h.ready.wf.alloc,
      fun t ht => h.ready.wf.owned t ((htable t).mp ht)⟩, h.ready.kernel, h.ready.unfreed⟩,
    fun q hq ht => ?_, fun q hq ht i => ?_, fun r v hr _ hp => ?_⟩
  · obtain ⟨howned, hnot⟩ := h.data q hq ht
    exact ⟨howned, fun hc => hnot ((htable q).mp hc)⟩
  · exact (hmem q (fun hin => hnew q hin hq) i).trans (h.contents q hq ht i)
  · exact (leaf_congr htables hr (Nat.le_of_eq (length_levels v))).trans (h.entry r v hr hr hp)

theorem Ready.destroy (h : Ready A (fun r => roots r ∨ r = shadow) s) (hnew : ¬ roots shadow)
    (hk : roots s.kernelTop) (hranges : s.ranges shadow = []) :
    ∃ s', vmmDestroyPagemap A 1 s shadow = some s' ∧
      Maintains A (fun r => roots r ∨ r = shadow) roots s s' := by
  refine ⟨_, vmmDestroyPagemap_empty 0 hranges, ⟨?_, hk, h.unfreed⟩, ?_, ?_, ?_⟩
  · exact h.wf.destroy (Or.inr rfl) fun r hr => ⟨Or.inl hr, fun he => hnew (he ▸ hr)⟩
  · intro q hq ht
    have howned : ∀ q ∈ ownTables s.vm shadow, A.Owned s.vm.pmm q ∧
        TablePage (fun r => roots r ∨ r = shadow) s.vm q := by
      intro q hq
      obtain ⟨p, hp, hw, -⟩ := (mem_ownTables.mp hq).path
      have htab : TablePage (fun r => roots r ∨ r = shadow) s.vm q := ⟨shadow, p, Or.inr rfl, hp, hw⟩
      exact ⟨h.wf.owned q htab, htab⟩
    obtain ⟨-, hown⟩ := foldl_free h.wf.alloc (nodup_ownTables h.wf.forest (Or.inr rfl))
      fun q hq => (howned q hq).1
    rw [destroyLevel_eq]
    exact ⟨(hown q).mpr ⟨hq, fun hc => ht (howned q hc).2⟩,
      fun hc => ht (IsTable.mono (fun _ hr => Or.inl hr) hc)⟩
  · intro q _ _ i
    rw [destroyLevel_eq]
  · intro r v _ _ _
    rw [destroyLevel_eq]
    rfl

end

/-- `pmm_alloc` of several pages. -/
theorem pmmAllocRun_maintains {s s' : State σ} {n : Nat} {r : Option Nat} (hA : A.Lawful)
    (hn : 0 < n) (h : Ready A.toPageAllocator roots s) (hr : pmmAllocRun A s n = (r, s')) :
    Maintains A.toPageAllocator roots roots s s' := by
  obtain ⟨⟨vm, rfl⟩, hwf, hext, -⟩ := pmmAllocRun_ext hA hn h.wf hr
  exact h.of_filled (.of_ext hwf hext)

/-- The state in which `mmap_range` starts on the pages. -/
def rangeMade (s : State σ) (pm global shadow id virt length : Nat) (prot : Prot)
    (flags : MapFlags) : State σ :=
  let g : GlobalRange :=
    { shadowPagemap := shadow, locals := [id], res := none, base := virt, length, offset := 0 }
  let l : LocalRange :=
    { pagemap := pm, global, base := virt, length, offset := 0, prot
      flags := { flags with anonymous := true } }
  pushRange (setLocal { s with globals := Function.update s.globals global g } id l) pm id

section

variable {s s' : State σ} {pm global shadow id virt phys length : Nat} {prot : Prot}
  {flags : MapFlags} {ok : Bool}

theorem mmapRangeAt_eq : mmapRangeAt A s (some pm) global shadow id virt phys length prot flags =
    match mmapRangePages A global virt phys length prot loopFuel 0
      (rangeMade s pm global shadow id virt length prot flags) with
    | none => none
    | some (true, s) => some (true, s)
    | some (false, s) =>
      (vmmDestroyPagemap A.toPageAllocator 1 (freeLocal s id) shadow).map fun s => (false, s) := rfl

theorem rangeMade_onePiece (hpm : roots pm) (hnew : ¬ roots shadow)
    (hlive : s.localFreed id = false) :
    OnePiece (fun r => roots r ∨ r = shadow)
      (rangeMade s pm global shadow id virt length prot flags) global shadow id pm where
  root_shadow := Or.inr rfl
  root := Or.inl hpm
  ne he := hnew (he ▸ hpm)
  shadow := by simp [rangeMade, pushRange, setLocal]
  locals := by simp [rangeMade, pushRange, setLocal]
  pagemap := by simp [rangeMade, pushRange, setLocal]
  live := hlive

/-- The second half of `mmap_range`. -/
theorem mmapRangeAt_maintains (h : Ready A.toPageAllocator (fun r => roots r ∨ r = shadow) s)
    (hnew : ¬ roots shadow) (hk : roots s.kernelTop) (hpm : roots pm)
    (hranges : s.ranges shadow = []) (hid : id < s.nextId) (hlive : s.localFreed id = false)
    (hm : mmapRangeAt A s (some pm) global shadow id virt phys length prot flags = some (ok, s')) :
    Maintains A.toPageAllocator (fun r => roots r ∨ r = shadow) roots s s' := by
  have hmade : Ready A.toPageAllocator (fun r => roots r ∨ r = shadow)
      (rangeMade s pm global shadow id virt length prot flags) := ⟨h.wf, h.kernel, h.unfreed⟩
  have hone : OnePiece (fun r => roots r ∨ r = shadow)
      (rangeMade s pm global shadow id virt length prot flags) global shadow id pm :=
    rangeMade_onePiece hpm hnew hlive
  rw [mmapRangeAt_eq] at hm
  split at hm
  · simp at hm
  · next s₁ hpages =>
    obtain ⟨-, rfl⟩ := Prod.mk.inj (Option.some.inj hm)
    obtain ⟨⟨vm, rfl⟩, hfill⟩ := mmapRangePages_filled hmade.wf hone.rooted hpages
    have hkept := hmade.of_filled hfill
    exact ⟨⟨hkept.ready.wf.mono fun _ => Or.inl, hk, hkept.ready.unfreed⟩,
      fun q hq ht => ⟨(hkept.data q hq ht).1,
        fun hc => (hkept.data q hq ht).2 (IsTable.mono (fun _ => Or.inl) hc)⟩,
      hkept.contents, fun r v hr _ hp => hkept.entry r v hr hr hp⟩
  · next s₁ hpages =>
    obtain ⟨⟨vm, rfl⟩, hfill⟩ := mmapRangePages_filled hmade.wf hone.rooted hpages
    have hkept := hmade.of_filled hfill
    have hfreed : Maintains A.toPageAllocator (fun r => roots r ∨ r = shadow)
        (fun r => roots r ∨ r = shadow) s
        (freeLocal { rangeMade s pm global shadow id virt length prot flags with vm } id) := by
      refine ⟨⟨hkept.ready.wf, h.kernel, fun x hx => ?_⟩, hkept.data, hkept.contents, hkept.entry⟩
      exact (Function.update_of_ne (Nat.ne_of_gt (Nat.lt_of_lt_of_le hid hx)) _ _).trans
        (h.unfreed x hx)
    have hempty : (freeLocal { rangeMade s pm global shadow id virt length prot flags with vm }
        id).ranges shadow = [] :=
      (Function.update_of_ne hone.ne.symm _ _).trans hranges
    obtain ⟨s₂, hdestroy, hdone⟩ := hfreed.ready.destroy hnew hk hempty
    rw [hdestroy] at hm
    obtain ⟨-, rfl⟩ := Prod.mk.inj (Option.some.inj hm)
    exact hfreed.trans hdone fun _ hr _ => hr

/-- **Whatever comes of `mmap_range`**, the pagemaps there were stay a forest, what was mapped stays
mapped, and a page in use that is no table does not become one. -/
theorem mmapRange_maintains (h : Ready A.toPageAllocator roots s) (hpm : roots pm)
    (hm : mmapRange A s (some pm) virt phys length prot flags = some (ok, s')) :
    Maintains A.toPageAllocator roots roots s s' := by
  unfold mmapRange at hm
  simp only at hm
  split at hm
  · next s₁ hheap =>
    obtain ⟨-, rfl⟩ := Prod.mk.inj (Option.some.inj hm)
    have hkept := h.heapAlloc hheap
    exact hkept.trans (hkept.ready.setErrno .enomem) fun _ hr _ => hr
  · next global s₁ hheap =>
    have hkept := h.heapAlloc hheap
    split at hm
    · next s₂ hnone =>
      obtain ⟨-, rfl⟩ := Prod.mk.inj (Option.some.inj hm)
      exact hkept.trans (hkept.ready.newPagemap_none hnone) fun _ hr _ => hr
    · next shadow s₂ hsome =>
      obtain ⟨hnew, hranges, hmap⟩ := hkept.ready.newPagemap hsome
      have htop : s₂.kernelTop = s₁.kernelTop := by
        obtain ⟨vm, -, rfl⟩ := newPagemap_some hsome
        rfl
      have hkept₂ := hkept.trans hmap fun _ hr _ => hr
      split at hm
      · next s₃ hheap₃ =>
        have hkept₃ := (hmap.ready.heapAlloc hheap₃)
        obtain ⟨-, rfl⟩ := Prod.mk.inj hheap₃
        have hk : roots s₂.kernelTop := htop ▸ hkept.ready.kernel
        have herr := hkept₃.ready.setErrno .enomem
        obtain ⟨s₄, hdestroy, hdone⟩ := herr.ready.destroy hnew hk hranges
        rw [hdestroy] at hm
        obtain ⟨-, rfl⟩ := Prod.mk.inj (Option.some.inj hm)
        exact (hkept₂.trans (hkept₃.trans (herr.trans hdone fun _ hr _ => hr) fun _ hr _ => hr)
          fun _ hr _ => Or.inl hr)
      · next id s₃ hheap₃ =>
        have hkept₃ := (hmap.ready.heapAlloc hheap₃)
        obtain ⟨-, rfl, rfl⟩ := heapAlloc_some hheap₃
        have hat := mmapRangeAt_maintains hkept₃.ready hnew (htop ▸ hkept.ready.kernel) hpm hranges
          (Nat.lt_succ_self _) (hmap.ready.unfreed _ (Nat.le_refl _)) hm
        exact hkept₂.trans (hkept₃.trans hat fun _ hr _ => hr) fun _ hr _ => Or.inl hr

/-- The state behind the three allocations of `mmap_range`. -/
structure Prepared (A : PageAllocator σ) (roots : Nat → Prop) (s s' : State σ) (shadow id : Nat) :
    Prop where
  ready : Ready A (fun r => roots r ∨ r = shadow) s'
  new : ¬ roots shadow
  live : s'.localFreed id = false
  same : ∀ r v, roots r → pte s'.vm r v = pte s.vm r v
  empty : ∀ v < lowEnd, ¬ Present s'.vm shadow v

theorem Ready.prepared {A : PageAllocator σ} {s s₁ s₂ s₃ : State σ} {global shadow id : Nat}
    (h : Ready A roots s) (hglobal : Mmap.heapAlloc s = (some global, s₁))
    (hshadow : Mmap.newPagemap A s₁ = (some shadow, s₂))
    (hid : Mmap.heapAlloc s₂ = (some id, s₃)) : Prepared A roots s s₃ shadow id := by
  have hkept := h.heapAlloc hglobal
  obtain ⟨hnew, -, hmap⟩ := hkept.ready.newPagemap hshadow
  have hkept₃ := hmap.ready.heapAlloc hid
  obtain ⟨-, -, rfl⟩ := heapAlloc_some hglobal
  obtain ⟨-, rfl, rfl⟩ := heapAlloc_some hid
  obtain ⟨vm, hvm, rfl⟩ := newPagemap_some hshadow
  have hc := vmmNewPagemap_some hkept.ready.wf hkept.ready.kernel hvm
  refine ⟨hkept₃.ready, hnew, hmap.ready.unfreed _ (Nat.le_refl _),
    fun r v hr => hc.ext.pte_eq hr, fun v hv => ?_⟩
  unfold Present
  rw [hc.pte_zero v (not_upperHalf_of_low hv)]
  simp

theorem rangeMade_covers (hwrap : virt + length < 2 ^ 64) {v : Nat} (hv : virt ≤ v)
    (hv' : v < virt + length) :
    ((rangeMade s pm global shadow id virt length prot flags).locals id).covers v = true := by
  simp only [rangeMade, pushRange, setLocal, Function.update_self, LocalRange.covers, LocalRange.stop]
  rw [u64_of_lt hwrap]
  simp
  omega

/-- The arguments of `mmap_range` that name whole pages are taken as they are. -/
theorem LowPages.aligned (hwin : LowPages virt length) :
    alignDown virt pageSize = virt ∧
      alignUp (u64 (length + (virt - alignDown virt pageSize))) pageSize = length := by
  have hfits := hwin.fits
  have hlow : lowEnd = 2 ^ 47 := rfl
  have hdown : alignDown virt pageSize = virt := Nat.div_mul_cancel hwin.start
  rw [hdown, Nat.sub_self, Nat.add_zero, u64_of_lt (by omega)]
  exact ⟨rfl, alignUp_of_dvd hwin.size (by omega)⟩

/-- The interval of `mmap_range`: whole pages from the one of `virt` on. The length is rounded up
behind the offset of `virt` in its page. -/
def rangeBase (virt : Nat) : Nat := alignDown virt pageSize

def rangeLength (virt length : Nat) : Nat :=
  alignUp (u64 (length + (virt - rangeBase virt))) pageSize

theorem LowPages.range (hwin : LowPages virt length) :
    rangeBase virt = virt ∧ rangeLength virt length = length := hwin.aligned

theorem mmapRange_true (h : Ready A.toPageAllocator roots s)
    (hm : mmapRange A s (some pm) virt phys length prot flags = some (true, s')) :
    ∃ global shadow id s₃, Prepared A.toPageAllocator roots s s₃ shadow id ∧
      mmapRangePages A global (rangeBase virt) phys (rangeLength virt length) prot loopFuel 0
        (rangeMade s₃ pm global shadow id (rangeBase virt) (rangeLength virt length) prot flags)
        = some (true, s') := by
  unfold mmapRange at hm
  simp only at hm
  split at hm
  · simp at hm
  · next global s₁ hglobal =>
    split at hm
    · simp at hm
    · next shadow s₂ hshadow =>
      split at hm
      · simp at hm
      · next id s₃ hid =>
        rw [mmapRangeAt_eq] at hm
        split at hm
        · simp at hm
        · next s₄ hpages =>
          obtain ⟨-, rfl⟩ := Prod.mk.inj (Option.some.inj hm)
          exact ⟨global, shadow, id, s₃, h.prepared hglobal hshadow hid, hpages⟩
        · simp at hm

/-- **What a call that succeeds has done**: no page of the interval was mapped, and now each has the
entry for its part of the memory. -/
theorem mmapRange_gets (h : Ready A.toPageAllocator roots s) (hpm : roots pm)
    (hwin : LowPages (rangeBase virt) (rangeLength virt length))
    (hm : mmapRange A s (some pm) virt phys length prot flags = some (true, s')) :
    (∀ v, rangeBase virt ≤ v → v < rangeBase virt + rangeLength virt length →
      ¬ Present s.vm pm v) ∧
    Gets roots [pm] s.vm s'.vm (rangeBase virt) (rangeBase virt + rangeLength virt length)
      (rangeEntry (rangeBase virt) phys prot) := by
  obtain ⟨global, shadow, id, s₃, hprep, hpages⟩ := mmapRange_true h hm
  obtain ⟨habs, hgets⟩ := mmapRangePages_gets hwin
    (s := rangeMade s₃ pm global shadow id (rangeBase virt) (rangeLength virt length) prot flags)
    hprep.ready.wf (rangeMade_onePiece hpm hprep.new hprep.live) (fun v => rangeMade_covers hwin.lt)
    (Nat.dvd_zero _) (Nat.zero_le _) hpages
  refine ⟨fun v hv hv' hp => habs v (by omega) hv' ?_, fun r v hr hv => ?_⟩
  · show Present s₃.vm pm v
    unfold Present at *
    rwa [hprep.same pm v hpm]
  · have hne : r ≠ shadow := fun he => hprep.new (he ▸ hr)
    have hold : pte (rangeMade s₃ pm global shadow id (rangeBase virt)
        (rangeLength virt length) prot flags).vm r v = pte s.vm r v := hprep.same r v hr
    rw [hgets r v (Or.inl hr) hv, hold]
    simp only [List.mem_cons, hne, List.not_mem_nil, or_false, false_or, Nat.add_zero]

/-- **A range does not reach into the upper half**: there the pagemap and the shadow pagemap have the
same tables, and the second of the two cannot be given the page. -/
theorem mmapRange_low (h : Ready A.toPageAllocator roots s) (hpm : roots pm)
    (hstart : rangeBase virt < lowEnd) (hlength : rangeLength virt length ≤ 2 ^ 60)
    (hm : mmapRange A s (some pm) virt phys length prot flags = some (true, s')) :
    LowPages (rangeBase virt) (rangeLength virt length) := by
  obtain ⟨global, shadow, id, s₃, hprep, hpages⟩ := mmapRange_true h hm
  have hdvd : pageSize ∣ rangeBase virt := Nat.dvd_mul_left _ _
  have hdvd' : pageSize ∣ rangeLength virt length := alignUp_dvd _
  have hlow : lowEnd = 2 ^ 47 := rfl
  have hstart' : rangeBase virt + 0 ≤ lowEnd := by omega
  have hwrap : rangeBase virt + rangeLength virt length < 2 ^ 64 := by omega
  exact ⟨hdvd, hdvd', mmapRangePages_low (i := 0) hdvd hdvd'
    (s := rangeMade s₃ pm global shadow id (rangeBase virt) (rangeLength virt length) prot flags)
    hprep.ready.wf (rangeMade_onePiece hpm hprep.new hprep.live)
    (fun v => rangeMade_covers hwrap) (Nat.dvd_zero _) hstart' hpages⟩

theorem mmapRange_new (h : Ready A.toPageAllocator roots s) (hpm : roots pm)
    (hwin : LowPages virt length)
    (hm : mmapRange A s (some pm) virt phys length prot flags = some (true, s')) :
    ∀ v, virt ≤ v → v < virt + length → ¬ Present s.vm pm v ∧ Present s'.vm pm v := by
  obtain ⟨hbase, hlength⟩ := hwin.range
  obtain ⟨habs, hgets⟩ := mmapRange_gets h hpm (by rwa [hbase, hlength]) hm
  rw [hbase, hlength] at habs hgets
  intro v hv hv'
  have hfits := hwin.fits
  refine ⟨habs v hv hv', ?_⟩
  unfold Present
  rw [hgets pm v hpm (by omega), if_pos ⟨List.mem_singleton_self pm, hv, hv'⟩]
  exact present_or (ptFlags_present prot)

/-- Memory for `mmap_range`: a global range, a shadow pagemap, a local range, and the tables for `k`
pages in two pagemaps. -/
structure RangeMemory (A : PageAllocator σ) (s : State σ) (k : Nat) : Prop where
  heap : ∀ id, s.nextId ≤ id → id < s.nextId + 3 → s.heapOk id = true
  pages : A.Supplies s.vm.pmm (1 + 6 * k)

theorem heapAlloc_ok {s : State σ} (h : s.heapOk s.nextId = true) :
    heapAlloc s = (some s.nextId, { s with nextId := s.nextId + 1 }) := by
  rw [heapAlloc, h, if_pos rfl]

theorem newPagemap_ok {A : PageAllocator σ} {s : State σ} {n : Nat}
    (h : s.heapOk s.nextId = true) (hsup : A.Supplies s.vm.pmm (1 + n)) :
    ∃ shadow s', newPagemap A s = (some shadow, s') ∧ A.Supplies s'.vm.pmm n ∧
      A.Took s.vm.pmm s'.vm.pmm 1 ∧ s'.nextId = s.nextId + 1 ∧ s'.heapOk = s.heapOk := by
  rw [Nat.add_comm] at hsup
  obtain ⟨hne, hsup⟩ := hsup
  unfold newPagemap
  rw [heapAlloc_ok h]
  simp only [vmmNewPagemap, Vmm.pmmAlloc, hne, if_false]
  exact ⟨_, _, rfl, hsup, .one _, rfl, rfl⟩

/-- **With memory, and nothing mapped in the interval, `mmap_range` succeeds.** It takes no more
memory than it needs. -/
theorem mmapRange_maps {k : Nat} (phys : Nat) (prot : Prot) (flags : MapFlags)
    (h : Ready A.toPageAllocator roots s) (hpm : roots pm)
    (hwin : LowPages virt length) (hk : k * pageSize = length)
    (hmem : RangeMemory A.toPageAllocator s k)
    (habs : ∀ v, virt ≤ v → v < virt + length → ¬ Present s.vm pm v) :
    ∃ s', mmapRange A s (some pm) virt phys length prot flags = some (true, s') ∧
      s'.nextId = s.nextId + 3 ∧ s'.heapOk = s.heapOk ∧
      A.Took s.vm.pmm s'.vm.pmm (1 + 6 * k) := by
  have hglobal := heapAlloc_ok (hmem.heap s.nextId (Nat.le_refl _) (by omega))
  obtain ⟨shadow, s₂, hshadow, hsup, htook, hnext, hheap⟩ := newPagemap_ok (A := A.toPageAllocator)
    (s := { s with nextId := s.nextId + 1 })
    (hmem.heap (s.nextId + 1) (Nat.le_succ _) (by omega)) hmem.pages
  have hid := heapAlloc_ok (s := s₂) (by
    rw [hheap, hnext]
    exact hmem.heap (s.nextId + 1 + 1) (by omega) (by omega))
  have hprep := h.prepared hglobal hshadow hid
  have hfits := hwin.fits
  have hlow : lowEnd = 2 ^ 47 := rfl
  -- nothing is mapped in the interval when the loop starts
  have hnone : ∀ v, virt + 0 ≤ v → v < virt + length → ¬ Present s₂.vm shadow v ∧
      ¬ Present s₂.vm pm v := fun v hv hv' =>
    ⟨hprep.empty v (by omega), fun hp => habs v hv hv' (by
      unfold Present at *
      rwa [← hprep.same pm v hpm])⟩
  obtain ⟨vm, hpages, -, -, -, htook'⟩ := mmapRangePages_maps (n := 0) phys prot hwin loopFuel (i := 0) (k := k)
    (s := rangeMade { s₂ with nextId := s₂.nextId + 1 } pm s.nextId shadow s₂.nextId virt length prot
      flags) hprep.ready.wf (rangeMade_onePiece hpm hprep.new hprep.live)
    (fun v => rangeMade_covers hwin.lt) (Nat.dvd_zero _) (by omega)
    (by unfold loopFuel pageSize at *; omega) hnone hsup
  obtain ⟨hdown, hup⟩ := hwin.aligned
  unfold mmapRange
  simp only [hdown] at hup
  simp only [hdown, hup, hglobal, hshadow, hid]
  rw [mmapRangeAt_eq, hpages]
  exact ⟨_, rfl, congrArg (· + 1) hnext, hheap, htook.trans htook'⟩

end

end

end Mmap

end Lyre
