import Lyre.Infra.Run
import Lyre.Infra.Traverse
import Lyre.Mm.Mmap
import Lyre.Mm.Vmm
import Lyre.Properties.Vmm

/-!
# Creating and destroying pagemaps

The pagemaps of the system as a transition system: `vmm_init` makes the kernel's, and then pagemaps
are created, filled, emptied and destroyed in any order.

* `vmmInit_wf` — what `vmm_init` leaves is a forest whose upper entries all lead somewhere, so that
  no pagemap ever hangs a table of its own there;
* `vmmInit_maps` — `vmm_init` returns exactly if no page is listed twice, and maps what is listed;
* `pagemaps_sound` — the invariant of every run;
* `destroyLevel_eq` — the pages that `destroy_level` gives back, in their order;
* `pagemaps_shared` — in every state reached the upper half is the kernel's, and destroying a
  pagemap gives back its own tables and nothing else.
-/

namespace Lyre.Vmm

open Infra Infra.Radix

section

variable {σ : Type} {A : PageAllocator σ} {roots shared : Nat → Prop} {s s' : State σ}
  {r t kernel : Nat}

/-! ## `vmm_init` -/

/-- The top level page as `pmm_alloc` returns it: no table hangs below it. -/
theorem wf_of_alloc (h : A.Inv s.pmm) (h0 : (A.alloc s.pmm).1 ≠ 0) :
    Wf A (· = (A.alloc s.pmm).1) (fun _ => False) (pmmAlloc A s).2 := by
  have hempty : ∀ i, nextTable ((pmmAlloc A s).2.mem (A.alloc s.pmm).1 i) = none := by
    intro i
    rw [pmmAlloc_zeroed h0]
    exact nextTable_zero
  have hshallow : Forest.Shallow nextTable (pmmAlloc A s).2.mem (A.alloc s.pmm).1 :=
    { empty := fun hu => by simp [hempty] at hu
      ne := fun hu => by simp [hempty] at hu
      inj := fun hu => by simp [hempty] at hu }
  refine ⟨.shallow hshallow fun i hi => hi.elim, A.inv_alloc h, fun t ht => ?_⟩
  rcases hshallow.isTable ht with rfl | ⟨i, hi⟩
  · exact (A.owned_alloc h).mpr (Or.inr ⟨rfl, h0⟩)
  · simp [hempty] at hi

theorem initUpper_spec : ∀ {is : List Nat} {s s' : State σ},
    Wf A roots shared s → roots r → initUpper A r is s = some s' →
    Wf A roots shared s' ∧ ∀ i, i ∈ is ∨ nextTable (s.mem r i) ≠ none → nextTable (s'.mem r i) ≠ none
  | [], s, s', h, _, hi => by
    obtain rfl : s = s' := by simpa [initUpper] using hi
    exact ⟨h, fun i hi => hi.resolve_left List.not_mem_nil⟩
  | j :: is, s, s', h, hr, hi => by
    obtain ⟨hwf, hext, hwalk⟩ := getNextLevel_spec (A := A) (p := []) j true h hr (by simp) rfl
    rw [initUpper] at hi
    rcases hg : getNextLevel A s r j true with ⟨_ | u, s₁⟩
    · simp [hg] at hi
    · rw [hg] at hwf hext hwalk hi
      obtain ⟨hwf', hlead⟩ := initUpper_spec hwf hr hi
      refine ⟨hwf', fun i hi => hlead i ?_⟩
      -- a path of one entry is a walk
      have hone : ∀ {m : Mem Nat Nat Nat} {i v : Nat},
          walk nextTable m r [i] = some v ↔ nextTable (m r i) = some v := by
        intro m i v
        rw [walk_cons]
        cases nextTable (m r i) <;> simp
      rcases hi with hi | hi
      · rcases List.mem_cons.mp hi with rfl | hi
        · right
          rw [hone.mp (hwalk u rfl)]
          simp
        · exact Or.inl hi
      · right
        obtain ⟨v, hv⟩ := Option.ne_none_iff_exists'.mp hi
        rw [hone.mp (hext.walk_some r [i] v hr (by simp) (hone.mpr hv))]
        simp

theorem Wf.share (h : Wf A (· = r) (fun _ => False) s)
    (hs : ∀ i, shared i → nextTable (s.mem r i) ≠ none) : Wf A (· = r) shared s where
  forest :=
    { sep := fun {a b p q t} ha hb hp hq hw hw' => by
        obtain ⟨heq, -⟩ := h.forest.sep ha hb hp hq hw hw'
        exact ⟨heq, Or.inl (ha.trans hb.symm)⟩
      top_eq := fun {a b i} ha hb _ => by rw [ha, hb]
      top_some := fun {a i} ha hi => by rw [ha]; exact hs i hi }
  alloc := h.alloc
  owned := h.owned

theorem vmmMapPage_wf (h : Wf A roots shared s) (hr : roots r) (virt phys flags : Nat) :
    Wf A roots shared (vmmMapPage A s r virt phys flags).2 := by
  rcases vmmMapPage_spec virt phys flags h hr with ⟨⟨-, hwf, -⟩, -⟩ | ⟨⟨-, hwf, -⟩, -⟩ <;> exact hwf

theorem initPages_wf : ∀ {pages : List BootPage} {s s' : State σ},
    Wf A roots shared s → roots r → initPages A r pages s = some s' → Wf A roots shared s'
  | [], s, s', h, _, hi => by
    obtain rfl : s = s' := by simpa [initPages] using hi
    exact h
  | (virt, phys, flags) :: pages, s, s', h, hr, hi => by
    have hwf := vmmMapPage_wf h hr virt phys flags
    rw [initPages] at hi
    rcases hm : vmmMapPage A s r virt phys flags with ⟨_ | _, s₁⟩
    · simp [hm] at hi
    · rw [hm] at hwf hi
      exact initPages_wf hwf hr hi

/-- **What `vmm_init` leaves.** -/
theorem vmmInit_wf {pages : List BootPage} (h : A.Inv s.pmm)
    (hi : vmmInit A pages s = some (kernel, s')) : Wf A (· = kernel) upperHalf s' := by
  unfold vmmInit at hi
  simp only at hi
  split at hi
  · simp at hi
  · next h0 =>
    split at hi
    · simp at hi
    · next s₁ hup =>
      rw [Option.map_eq_some_iff] at hi
      obtain ⟨s₂, hpages, he⟩ := hi
      obtain ⟨rfl, rfl⟩ : (pmmAlloc A s).1 = kernel ∧ s₂ = s' := by simpa using he
      have hwf₀ : Wf A (· = (pmmAlloc A s).1) (fun _ => False) (pmmAlloc A s).2 := wf_of_alloc h h0
      obtain ⟨hwf, hlead⟩ := initUpper_spec hwf₀ rfl hup
      refine initPages_wf (hwf.share fun i hi => hlead i (Or.inl ?_)) rfl hpages
      rw [List.mem_range'_1]
      have := hi.1
      have := hi.2
      omega

/-! ## What `vmm_init` maps -/

theorem Put.present_iff {virt virt' phys flags : Nat} (h : Put roots shared s s' r virt (phys ||| flags))
    (hr : roots r) (hflags : flags &&& ptePresent ≠ 0) :
    Present s' r virt' ↔ vpn virt = vpn virt' ∨ Present s r virt' := by
  unfold Present
  by_cases hv : vpn virt = vpn virt'
  · rw [(h r virt' hr).1 ⟨hv, .inl rfl⟩]
    exact iff_of_true (present_or hflags) (.inl hv)
  · rw [(h r virt' hr).2 fun hs => hv hs.1, or_iff_right hv]

/-- The pagemaps there are: the kernel's and those created and not destroyed. -/
structure Pagemaps (σ : Type) where
  vm : State σ
  kernel : Nat
  maps : List Nat

/-- Calls on pagemaps. Whether the kernel heap has room for a `struct pagemap` is part of the
call. -/
inductive PagemapCall
  | newPagemap (heapOk : Bool)
  | mapPage (pagemap virt phys flags : Nat)
  | unmapPage (pagemap virt : Nat)
  | virt2pte (pagemap virt : Nat) (allocate : Bool)
  | destroyPagemap (pagemap : Nat)

namespace PagemapCall

variable (A) in
/-- A pagemap that is destroyed has no ranges left. -/
def exec (p : Pagemaps σ) : PagemapCall → Pagemaps σ
  | .newPagemap false => { p with vm := { p.vm with errno := some .enomem } }
  | .newPagemap true =>
    match vmmNewPagemap A p.vm p.kernel with
    | (none, vm) => { p with vm }
    | (some r, vm) => { p with vm, maps := r :: p.maps }
  | .mapPage r virt phys flags => { p with vm := (vmmMapPage A p.vm r virt phys flags).2 }
  | .unmapPage r virt => { p with vm := (vmmUnmapPage A p.vm r virt).2 }
  | .virt2pte r virt allocate => { p with vm := (vmmVirt2pte A p.vm r virt allocate).2 }
  | .destroyPagemap r =>
    { p with vm := Mmap.destroyLevel A 4 p.vm r 0 256, maps := p.maps.erase r }

/-- The pagemap of the call is there; the kernel's is never destroyed. -/
def Known (p : Pagemaps σ) : PagemapCall → Prop
  | .newPagemap _ => True
  | .mapPage r _ _ _ => r = p.kernel ∨ r ∈ p.maps
  | .unmapPage r _ => r = p.kernel ∨ r ∈ p.maps
  | .virt2pte r _ _ => r = p.kernel ∨ r ∈ p.maps
  | .destroyPagemap r => r ∈ p.maps

end PagemapCall

/-- The system after `vmm_init`. -/
def Started (A : PageAllocator σ) (p : Pagemaps σ) : Prop :=
  p.maps = [] ∧ ∃ s pages, A.Inv s.pmm ∧ vmmInit A pages s = some (p.kernel, p.vm)

/-- The pagemaps of the system. -/
def Pagemaps.Root (p : Pagemaps σ) (r : Nat) : Prop := r = p.kernel ∨ r ∈ p.maps

/-- The invariant of the system. -/
structure Pagemaps.Sound (A : PageAllocator σ) (p : Pagemaps σ) : Prop where
  wf : Wf A p.Root upperHalf p.vm
  kernel : p.kernel ∉ p.maps
  nodup : p.maps.Nodup

/-! ## Destroying a pagemap -/

/-- A loop whose turns only free pages. What a turn frees may depend on memory. -/
theorem foldl_frees {f : State σ → Nat → State σ} {freed : Nat → List Nat} (mem : Mem Nat Nat Nat)
    (hf : ∀ i (s : State σ), s.mem = mem →
      f s i = { s with pmm := (freed i).foldl A.free s.pmm }) :
    ∀ (is : List Nat) (s : State σ), s.mem = mem →
      is.foldl f s = { s with pmm := (is.flatMap freed).foldl A.free s.pmm }
  | [], s, _ => rfl
  | i :: is, s, hs => by
    rw [List.foldl_cons, hf i s hs, List.flatMap_cons, List.foldl_append]
    exact foldl_frees mem hf is _ hs

/-- `destroy_level` only frees pages: the tables below the entries it looks at, from the leaves
up. -/
theorem destroyLevel_eq : ∀ (level : Nat) (vm : State σ) (pml start stop : Nat),
    Mmap.destroyLevel A level vm pml start stop =
      { vm with pmm := (below nextTable vm.mem 512 level pml
          (List.range' start (stop - start))).foldl A.free vm.pmm }
  | 0, vm, pml, start, stop => rfl
  | level + 1, vm, pml, start, stop => by
    rw [Mmap.destroyLevel, below, List.foldl_append]
    refine congrArg (fun s => pmmFree A s pml) (foldl_frees vm.mem ?_ _ vm rfl)
    -- one entry
    intro i s hs
    rw [← hs]
    cases nextTable (s.mem pml i) with
    | none => rfl
    | some u =>
      simp only
      rw [destroyLevel_eq level, Nat.sub_zero, ← List.range_eq_range']

theorem foldl_free : ∀ {l : List Nat} {pmm : σ}, A.Inv pmm → l.Nodup →
    (∀ q ∈ l, A.Owned pmm q) → A.Inv (l.foldl A.free pmm) ∧
      ∀ q, A.Owned (l.foldl A.free pmm) q ↔ A.Owned pmm q ∧ q ∉ l
  | [], pmm, h, _, _ => ⟨h, fun q => by simp⟩
  | p :: l, pmm, h, hn, ho => by
    obtain ⟨hp, hn⟩ := List.nodup_cons.mp hn
    have hop := ho p List.mem_cons_self
    obtain ⟨hinv, howned⟩ := foldl_free (A.inv_free h hop) hn fun q hq =>
      (A.owned_free h hop).mpr ⟨ho q (List.mem_cons_of_mem p hq), fun he => hp (he ▸ hq)⟩
    refine ⟨hinv, fun q => ?_⟩
    rw [List.foldl_cons, howned, A.owned_free h hop, List.mem_cons, not_or, and_assoc]

/-- The tables that a pagemap shares with no other: those behind the entries of its lower half, and
its top level page. -/
def OwnTable (s : State σ) (r q : Nat) : Prop :=
  q = r ∨ ∃ i < 256, ∃ p : List Nat, p.length ≤ 2 ∧ (∀ j ∈ p, j < 512) ∧
    walk nextTable s.mem r (i :: p) = some q

/-- The pages that `destroy_level` gives back. -/
def ownTables (s : State σ) (r : Nat) : List Nat :=
  below nextTable s.mem 512 4 r (List.range' 0 (256 - 0))

theorem mem_ownTables {q : Nat} : q ∈ ownTables s r ↔ OwnTable s r q := by
  unfold ownTables OwnTable
  rw [mem_below]
  simp only [Nat.zero_lt_succ, true_and, List.mem_range'_1, Nat.zero_le, Nat.zero_add, Nat.sub_zero]
  constructor
  · rintro (h | ⟨i, hi, p, hp, hw⟩)
    · exact Or.inl h
    · exact Or.inr ⟨i, hi, p, by omega, hw⟩
  · rintro (h | ⟨i, hi, p, hp, hw⟩)
    · exact Or.inl h
    · exact Or.inr ⟨i, hi, p, by omega, hw⟩

theorem OwnTable.path {q : Nat} (h : OwnTable s r q) : ∃ p : List Nat, p.length ≤ 3 ∧
    walk nextTable s.mem r p = some q ∧ ∀ i, p.head? = some i → ¬ upperHalf i := by
  rcases h with rfl | ⟨i, hi, p, hp, -, hw⟩
  · exact ⟨[], Nat.zero_le _, rfl, by simp⟩
  · refine ⟨i :: p, by rw [List.length_cons]; omega, hw, ?_⟩
    intro j hj
    obtain rfl : i = j := by simpa using hj
    exact fun hc => Nat.not_lt.mpr hc.1 hi

theorem OwnTable.not_table {q r' : Nat} (h : OwnTable s r q) (hf : Forest nextTable 3 roots upperHalf s.mem)
    (hr : roots r) (hr' : roots r') (hne : r' ≠ r) {p' : List Nat} (hp' : p'.length ≤ 3) :
    walk nextTable s.mem r' p' ≠ some q := by
  intro hw'
  obtain ⟨p, hp, hw, hlow⟩ := h.path
  obtain ⟨-, hroot | ⟨i, hi, hup⟩⟩ := hf.sep hr hr' hp hp' hw hw'
  · exact hne hroot.symm
  · exact hlow i hi hup

theorem OwnTable.not_upper {q i : Nat} (h : OwnTable s r q)
    (hf : Forest nextTable 3 roots upperHalf s.mem) (hr : roots r) {r' : Nat} (hr' : roots r')
    (hi : upperHalf i) {p' : List Nat} (hp' : p'.length ≤ 2) :
    walk nextTable s.mem r' (i :: p') ≠ some q := by
  intro hw'
  obtain ⟨p, hp, hw, hlow⟩ := h.path
  obtain ⟨heq, -⟩ := hf.sep hr hr' hp (by rw [List.length_cons]; omega) hw hw'
  exact hlow i (by rw [heq]; rfl) hi

theorem nodup_ownTables (hf : Forest nextTable 3 roots upperHalf s.mem) (hr : roots r) :
    (ownTables s r).Nodup := by
  refine nodup_below List.nodup_range' fun p p' q hp hp' hw hw' => ?_
  exact (hf.sep hr hr (by omega) (by omega) hw hw').1

/-- **Destroying a pagemap** leaves a forest of the others, whose tables are still owned. -/
theorem Wf.destroy (h : Wf A roots upperHalf s) (hr : roots r) {roots' : Nat → Prop}
    (hsub : ∀ x, roots' x → roots x ∧ x ≠ r) :
    Wf A roots' upperHalf (Mmap.destroyLevel A 4 s r 0 256) := by
  have howned : ∀ q ∈ ownTables s r, A.Owned s.pmm q := by
    intro q hq
    obtain ⟨p, hp, hw, -⟩ := (mem_ownTables.mp hq).path
    exact h.owned q ⟨r, p, hr, hp, hw⟩
  obtain ⟨hinv, hown⟩ := foldl_free h.alloc (nodup_ownTables h.forest hr) howned
  rw [destroyLevel_eq]
  refine ⟨h.forest.mono fun x hx => (hsub x hx).1, hinv, ?_⟩
  rintro t ⟨r', p', hr', hp', hw'⟩
  obtain ⟨hroot, hne⟩ := hsub r' hr'
  refine (hown t).mpr ⟨h.owned t ⟨r', p', hroot, hp', hw'⟩, fun hq => ?_⟩
  exact (mem_ownTables.mp hq).not_table h.forest hr hroot hne hp' hw'

/-- A pagemap without ranges has nothing to unmap before its tables are given back. -/
theorem vmmDestroyPagemap_empty {m : Mmap.State σ} (fuel : Nat) (h : m.ranges r = []) :
    Mmap.vmmDestroyPagemap A (fuel + 1) m r
      = some { m with vm := Mmap.destroyLevel A 4 m.vm r 0 256 } := by
  rw [Mmap.vmmDestroyPagemap, Mmap.destroyLoop, h]
  rfl

/-! ## Runs -/

theorem Started.sound {p : Pagemaps σ} (h : Started A p) : p.Sound A := by
  obtain ⟨hnil, s, pages, hinv, hi⟩ := h
  refine ⟨(vmmInit_wf hinv hi).mono ?_, by simp [hnil], by simp [hnil]⟩
  rintro r (hr | hr)
  · exact hr
  · rw [hnil] at hr
    exact absurd hr List.not_mem_nil

theorem Pagemaps.Sound.exec {p : Pagemaps σ} {c : PagemapCall} (h : p.Sound A) (hk : c.Known p) :
    (c.exec A p).Sound A := by
  cases c with
  | newPagemap heapOk =>
    cases heapOk with
    | false => exact ⟨h.wf.of_eq rfl rfl, h.kernel, h.nodup⟩
    | true =>
      rcases vmmNewPagemap_spec h.wf (Or.inl rfl : p.Root p.kernel) with ⟨hres, hwf, -⟩ | ⟨r₀, hres, hc⟩
      · rcases hn : vmmNewPagemap A p.vm p.kernel with ⟨r, vm⟩
        rw [hn] at hres hwf
        obtain rfl : r = none := hres
        simp only [PagemapCall.exec, hn]
        exact ⟨hwf, h.kernel, h.nodup⟩
      · rcases hn : vmmNewPagemap A p.vm p.kernel with ⟨r, vm⟩
        rw [hn] at hres hc
        obtain rfl : r = some r₀ := hres
        -- the new top level page was nobody's
        have hnew : ¬ p.Root r₀ := fun hr => hc.fresh (h.wf.owned r₀ (IsTable.root hr))
        simp only [PagemapCall.exec, hn]
        refine ⟨hc.wf.mono ?_, ?_, List.nodup_cons.mpr ⟨fun hr => hnew (Or.inr hr), h.nodup⟩⟩
        · rintro r (hr | hr)
          · exact Or.inl (Or.inl hr)
          · rcases List.mem_cons.mp hr with hr | hr
            · exact Or.inr hr
            · exact Or.inl (Or.inr hr)
        · rw [List.mem_cons, not_or]
          exact ⟨fun he => hnew (Or.inl he.symm), h.kernel⟩
  | mapPage r virt phys flags => exact ⟨vmmMapPage_wf h.wf hk virt phys flags, h.kernel, h.nodup⟩
  | unmapPage r virt =>
    refine ⟨?_, h.kernel, h.nodup⟩
    obtain ⟨-, ⟨⟨-, hwf, -⟩, -⟩ | ⟨⟨-, hwf, -⟩, -⟩⟩ := vmmUnmapPage_spec virt h.wf hk <;> exact hwf
  | virt2pte r virt allocate =>
    obtain ⟨hwf, -, -⟩ := walkLevels_spec allocate hk (levels virt) [] h.wf (by simp) rfl
    refine ⟨?_, h.kernel, h.nodup⟩
    simp only [PagemapCall.exec, vmmVirt2pte]
    rcases hw : walkLevels A allocate p.vm r (levels virt) with ⟨_ | pml1, s₁⟩ <;>
    · rw [hw] at hwf
      exact hwf
  | destroyPagemap r =>
    refine ⟨h.wf.destroy (Or.inr hk) ?_, fun hr => h.kernel (List.mem_of_mem_erase hr),
      h.nodup.erase r⟩
    rintro x (hx | hx)
    · obtain rfl : x = p.kernel := hx
      exact ⟨Or.inl rfl, fun he => h.kernel (he ▸ hk)⟩
    · obtain ⟨hne, hx⟩ := h.nodup.mem_erase_iff.mp hx
      exact ⟨Or.inr hx, hne⟩

theorem pagemaps_sound {p₀ p : Pagemaps σ} (h₀ : Started A p₀)
    (hrun : Reach (fun p c p' => PagemapCall.exec A p c = p') (fun p c => c.Known p) p₀ p) :
    p.Sound A :=
  hrun.invariant h₀.sound fun _ _ _ h hk hs => hs ▸ h.exec hk

/--
**The kernel half is shared, and only the rest is given back.** After `vmm_init` and any calls on
the pagemaps there are, the upper top-level entries of each of them are the kernel's. Destroying one
without ranges frees its own tables, each once: no table of another pagemap, none of the kernel
half, and no mapped page that is not itself a table. It touches no memory, so the others translate
every address as before, and their tables are still theirs.
-/
theorem pagemaps_shared {p₀ p : Pagemaps σ} (h₀ : Started A p₀)
    (hrun : Reach (fun p c p' => PagemapCall.exec A p c = p') (fun p c => c.Known p) p₀ p) :
    (∀ r ∈ p.maps, ∀ i, 256 ≤ i → i < 512 → p.vm.mem r i = p.vm.mem p.kernel i) ∧
    ∀ r ∈ p.maps, ∃ l : List Nat,
      (∀ (m : Mmap.State σ) fuel, m.vm = p.vm → m.ranges r = [] →
        Mmap.vmmDestroyPagemap A (fuel + 1) m r
          = some { m with vm := { p.vm with pmm := l.foldl A.free p.vm.pmm } }) ∧
      l.Nodup ∧ (∀ q, q ∈ l ↔ OwnTable p.vm r q) ∧
      (∀ r' virt, p.Root r' → Present p.vm r' virt →
        ¬ TablePage p.Root p.vm (pteGetAddr (pte p.vm r' virt)) →
        pteGetAddr (pte p.vm r' virt) ∉ l) ∧
      (∀ i path q, 256 ≤ i → i < 512 → path.length ≤ 2 →
        walk nextTable p.vm.mem p.kernel (i :: path) = some q → q ∉ l) ∧
      ∀ r', p.Root r' → r' ≠ r →
        (∀ path q, path.length ≤ 3 → walk nextTable p.vm.mem r' path = some q →
          q ∉ l ∧ A.Owned (l.foldl A.free p.vm.pmm) q) ∧
        ∀ virt, vmmVirt2phys A { p.vm with pmm := l.foldl A.free p.vm.pmm } r' virt
          = vmmVirt2phys A p.vm r' virt := by
  have h := pagemaps_sound h₀ hrun
  refine ⟨fun r hr i hi hlt => h.wf.forest.top_eq (Or.inr hr) (Or.inl rfl) ⟨hi, hlt⟩, ?_⟩
  intro r hr
  have hroot : p.Root r := Or.inr hr
  have hdestroy := h.wf.destroy hroot fun x hx => hx
  rw [destroyLevel_eq] at hdestroy
  refine ⟨ownTables p.vm r, ?_, nodup_ownTables h.wf.forest hroot, fun q => mem_ownTables, ?_, ?_, ?_⟩
  · intro m fuel hvm hranges
    rw [vmmDestroyPagemap_empty fuel hranges, destroyLevel_eq, hvm]
    rfl
  · intro r' virt hr' hp hnt hq
    obtain ⟨path, hlen, hw, -⟩ := (mem_ownTables.mp hq).path
    exact hnt ⟨r, path, hroot, hlen, hw⟩
  · intro i path q hi hlt hlen hw hq
    exact (mem_ownTables.mp hq).not_upper h.wf.forest hroot (Or.inl rfl) ⟨hi, hlt⟩ hlen hw
  · intro r' hr' hne
    refine ⟨fun path q hlen hw => ⟨fun hq => ?_, ?_⟩, fun virt => ?_⟩
    · exact (mem_ownTables.mp hq).not_table h.wf.forest hroot hr' hne hlen hw
    · exact hdestroy.owned q ⟨r', path, ⟨hr', hne⟩, hlen, hw⟩
    · rw [vmmVirt2phys_eq, vmmVirt2phys_eq]
      rfl

end

/-- Memory before `vmm_init`: four megabytes, of which the first eight pages are taken. -/
def rawState : State Pmm.State where
  mem := fun _ _ => 0xcc
  pmm :=
    { bitmap := fun byte => if byte = 0 then 0xff#8 else 0#8
      bitmapBase := 0
      highestPageIndex := 1024
      lastUsedIndex := 0 }
  errno := none

theorem rawState_sound : Pmm.Sound rawState.pmm :=
  { cursor := by decide, zero := by decide, addressable := by decide }

/-- The kernel maps a page of the upper half; a process gets a pagemap with one page in it. -/
theorem pagemaps_shared_raw : ∃ (p₀ p : Pagemaps Pmm.State) (r : Nat) (l : List Nat),
    Started Pmm.allocator p₀ ∧
    Reach (fun p c p' => PagemapCall.exec Pmm.allocator p c = p') (fun p c => c.Known p) p₀ p ∧
    p.maps = [r] ∧ Present p.vm r 0x5000 ∧ p.vm.mem r 511 = p.vm.mem p.kernel 511 ∧
    l.Nodup ∧ ∀ q, q ∈ l ↔ OwnTable p.vm r q := by
  have hrun : ((vmmInit Pmm.allocator [(0xffff800000001000, 0x1000, ptePresent)] rawState).bind
      fun k => match vmmNewPagemap Pmm.allocator k.2 k.1 with
        | (none, _) => none
        | (some r, vm) => some (decide (Present (vmmMapPage Pmm.allocator vm r 0x5000 0x9000
            (ptePresent ||| pteUser)).2 r 0x5000))) = some true := by
    decide +kernel
  obtain ⟨⟨kernel, vm₀⟩, hinit, hrun⟩ := Option.bind_eq_some_iff.mp hrun
  simp only at hrun
  split at hrun
  · simp at hrun
  · next r vm hnew =>
    have hpres := of_decide_eq_true (Option.some.inj hrun)
    let p₀ : Pagemaps Pmm.State := ⟨vm₀, kernel, []⟩
    have h₀ : Started Pmm.allocator p₀ := ⟨rfl, rawState, _, rawState_sound, hinit⟩
    have hstep : PagemapCall.exec Pmm.allocator p₀ (.newPagemap true) = ⟨vm, kernel, [r]⟩ := by
      simp only [PagemapCall.exec, p₀, hnew]
    have hreach : Reach (fun p c p' => PagemapCall.exec Pmm.allocator p c = p')
        (fun p c => c.Known p) p₀
        ⟨(vmmMapPage Pmm.allocator vm r 0x5000 0x9000 (ptePresent ||| pteUser)).2, kernel, [r]⟩ :=
      .tail (.tail .refl (a := .newPagemap true) trivial hstep)
        (a := .mapPage r 0x5000 0x9000 (ptePresent ||| pteUser)) (Or.inr List.mem_cons_self) rfl
    obtain ⟨htop, hfree⟩ := pagemaps_shared h₀ hreach
    obtain ⟨l, -, hnodup, hmem, -⟩ := hfree r List.mem_cons_self
    exact ⟨p₀, _, r, l, h₀, hreach, rfl, hpres, htop r List.mem_cons_self 511 (by decide) (by decide),
      hnodup, hmem⟩

end Lyre.Vmm
