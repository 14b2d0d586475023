import Lyre.Mm.Fork
import Lyre.Properties.Pages

/-!
# The pages that a fork copies

A fork adds pagemaps: the child's, and a shadow pagemap for each private range. What it does to
memory is said by `Evolved`, from a state with one set of pagemaps to a state with more: pages in
use that are no tables keep their contents.

Each loop over the pages of a range sweeps an interval of the new pagemaps (`Sweep`): no other
entry changes.

* `forkPrivate_loop` — copies of the pages that are present, for the child and a shadow pagemap;
* `forkShared_loop` — the entries of the parent, for the child.
-/

namespace Lyre.Vmm

open Infra.Radix

section

variable {σ : Type} {A : PageAllocator σ} {roots R R' : Nat → Prop} {s s' s'' : State σ}

/-! ## More pagemaps -/

/-- `s'` comes from `s` by work on tables and on pages that nobody owned. -/
structure Evolved (A : PageAllocator σ) (roots R : Nat → Prop) (s s' : State σ) : Prop where
  wf : Wf A R upperHalf s'
  sub : ∀ r, roots r → R r
  owned : ∀ q, A.Owned s.pmm q → A.Owned s'.pmm q
  tables_new : ∀ t, TablePage R s' t → TablePage roots s t ∨ ¬ A.Owned s.pmm t
  data : ∀ q, A.Owned s.pmm q → ¬ TablePage roots s q → ∀ i, s'.mem q i = s.mem q i

namespace Evolved

theorem refl (h : Wf A roots upperHalf s) : Evolved A roots roots s s :=
  ⟨h, fun _ hr => hr, fun _ hq => hq, fun _ ht => Or.inl ht, fun _ _ _ _ => rfl⟩

theorem of_keeps (h : Wf A roots upperHalf s') (hk : Keeps A roots s s') :
    Evolved A roots roots s s' :=
  ⟨h, fun _ hr => hr, hk.owned, hk.tables_new, hk.data⟩

theorem not_table (h : Evolved A roots R s s') {q : Nat} (hq : A.Owned s.pmm q)
    (ht : ¬ TablePage roots s q) : ¬ TablePage R s' q := by
  intro hc
  rcases h.tables_new q hc with h1 | h1
  · exact ht h1
  · exact h1 hq

theorem trans (h : Evolved A roots R s s') (h' : Evolved A R R' s' s'') :
    Evolved A roots R' s s'' where
  wf := h'.wf
  sub r hr := h'.sub r (h.sub r hr)
  owned q hq := h'.owned q (h.owned q hq)
  tables_new t ht := by
    rcases h'.tables_new t ht with h1 | h1
    · exact h.tables_new t h1
    · exact Or.inr fun h2 => h1 (h.owned t h2)
  data q hq ht i := by
    rw [h'.data q (h.owned q hq) (h.not_table hq ht) i, h.data q hq ht i]

end Evolved

/-- From `s` to `s'` entries have changed in the pagemaps `own` only, and there, of the lower
half, only those of `[b, e)`. -/
structure Sweep (A : PageAllocator σ) (R own : Nat → Prop) (s s' : State σ) (b e : Nat) : Prop where
  evolved : Evolved A R R s s'
  others : ∀ r v, R r → ¬ own r → pte s' r v = pte s r v
  outside : ∀ r v, R r → v < lowEnd → ¬ (b ≤ v ∧ v < e) → pte s' r v = pte s r v

namespace Sweep

variable {own : Nat → Prop} {b e j value : Nat}

theorem refl (h : Wf A R upperHalf s) (own : Nat → Prop) (b : Nat) : Sweep A R own s s b b :=
  ⟨.refl h, fun _ _ _ _ => rfl, fun _ _ _ _ _ => rfl⟩

theorem skip (h : Sweep A R own s s' b e) {e' : Nat} (he : e ≤ e') : Sweep A R own s s' b e' :=
  ⟨h.evolved, h.others, fun r v hr hv hin => h.outside r v hr hv (by omega)⟩

theorem put (h : Sweep A R own s s' b e) {r : Nat} (hown : own r) (hbj : b ≤ j) (hje : j + pageSize ≤ e)
    (hj : pageSize ∣ j) (hlow : j < lowEnd) (hwf : Wf A R upperHalf s'')
    (hkeep : Keeps A R s' s'') (hput : Put R upperHalf s' s'' r j value) :
    Sweep A R own s s'' b e where
  evolved := h.evolved.trans (.of_keeps hwf hkeep)
  others r' v hr' hown' := by
    rw [← h.others r' v hr' hown']
    refine (hput r' v hr').2 fun hc => ?_
    rcases hc.2 with rfl | hup
    · exact hown' hown
    · exact not_upperHalf_of_low hlow hup
  outside r' v hr' hv hin := by
    rw [hput.low hj hlow hr' hv, if_neg (by omega)]
    exact h.outside r' v hr' hv hin

end Sweep

/-! ## Pointers to entries -/

end

end Lyre.Vmm

namespace Lyre.Mmap

open Vmm Infra.Radix

section

variable {σ : Type} {A : PageAllocator σ} {R : Nat → Prop} {vm vm' : Vmm.State σ}
variable {p c sh i : Nat}

/-! ## One page -/

/-- The page of an entry is copied to `page`, which nobody owned. -/
structure NewPage (A : PageAllocator σ) (R : Nat → Prop) (vm vm' : Vmm.State σ)
    (entry page : Nat) : Prop where
  addr : PageAddr page
  fresh : ¬ A.Owned vm.pmm page
  owned : A.Owned vm'.pmm page
  data : ¬ TablePage R vm' page
  contents : ∀ j, vm'.mem page j = vm.mem (pteGetAddr entry) j

theorem NewPage.earlier {roots R₀ : Nat → Prop} {vm₀ : Vmm.State σ} {entry page : Nat}
    (h : NewPage A R vm vm' entry page) (he : Evolved A roots R₀ vm₀ vm)
    (hown : A.Owned vm₀.pmm (pteGetAddr entry))
    (hdata : ¬ TablePage roots vm₀ (pteGetAddr entry)) : NewPage A R vm₀ vm' entry page where
  addr := h.addr
  fresh hq := h.fresh (he.owned page hq)
  owned := h.owned
  data := h.data
  contents j := by rw [h.contents j, he.data _ hown hdata j]

theorem NewPage.evolve {R' : Nat → Prop} {vm'' : Vmm.State σ} {entry page : Nat}
    (h : NewPage A R vm vm' entry page) (he : Evolved A R R' vm' vm'') :
    NewPage A R' vm vm'' entry page where
  addr := h.addr
  fresh := h.fresh
  owned := he.owned page h.owned
  data := he.not_table h.owned h.data
  contents j := by rw [he.data page h.owned h.data j, h.contents j]

/-- What a private page gets that was present: the same entry in the child and in the shadow
pagemap, with a new page. `vm₁` is the state between the two writes. -/
def Duplicated (A : PageAllocator σ) (R : Nat → Prop) (vm vm' : Vmm.State σ) (p c sh i : Nat) :
    Prop :=
  ∃ vm₁ page, Wf A R upperHalf vm₁ ∧ Keeps A R vm vm₁ ∧
    Put R upperHalf vm vm₁ c i (pteGetFlags (pte vm p i) ||| page) ∧
    Wf A R upperHalf vm' ∧ Keeps A R vm₁ vm' ∧
    Put R upperHalf vm₁ vm' sh i (pteGetFlags (pte vm p i) ||| page) ∧
    NewPage A R vm vm' (pte vm p i) page

theorem Duplicated.of_ext {vm₀ : Vmm.State σ} (hp : R p) (hwf : Wf A R upperHalf vm)
    (he : Ext A R vm₀ vm) (hown : A.Owned vm₀.pmm (pteGetAddr (pte vm₀ p i)))
    (hdata : ¬ TablePage R vm₀ (pteGetAddr (pte vm₀ p i)))
    (h : Duplicated A R vm vm' p c sh i) : Duplicated A R vm₀ vm' p c sh i := by
  obtain ⟨vm₁, page, hwf₁, hk₁, hp₁, hwf₂, hk₂, hp₂, hn⟩ := h
  rw [he.pte_eq hp] at hp₁ hp₂ hn
  exact ⟨vm₁, page, hwf₁, he.toKeeps.trans hk₁, he.sameEntries.put hp₁, hwf₂, hk₂, hp₂,
    hn.earlier (.of_keeps hwf he.toKeeps) hown hdata⟩

/-- The page is present in the child if and only if it is in the parent, then with the same flags
and a new page that the shadow pagemap has as well. -/
structure PageCopied (A : PageAllocator σ) (R : Nat → Prop) (vm vm' : Vmm.State σ)
    (p c sh v : Nat) : Prop where
  present : Present vm' c v ↔ Present vm p v
  flags : Present vm p v → pteGetFlags (pte vm' c v) = pteGetFlags (pte vm p v)
  shadow : Present vm p v → pte vm' sh v = pte vm' c v
  page : Present vm p v → NewPage A R vm vm' (pte vm p v) (pteGetAddr (pte vm' c v))

/-- What `forkPrivatePage` writes. -/
theorem PageCopied.of_entry {v : Nat} (page : Nat) (hp : Present vm p v)
    (hn : NewPage A R vm vm' (pte vm p v) page)
    (hc : pte vm' c v = pteGetFlags (pte vm p v) ||| page) (hs : pte vm' sh v = pte vm' c v) :
    PageCopied A R vm vm' p c sh v where
  present := by
    refine ⟨fun _ => hp, fun _ => ?_⟩
    unfold Present
    rw [hc, Nat.or_comm]
    exact present_or (by rw [getFlags_and_present]; exact hp)
  flags _ := by rw [hc, pteGetFlags_flags_or hn.addr]
  shadow _ := hs
  page _ := by
    rw [hc, pteGetAddr_flags_or hn.addr]
    exact hn

theorem PageCopied.of_absent {v : Nat} (hp : ¬ Present vm p v) (hc : ¬ Present vm' c v) :
    PageCopied A R vm vm' p c sh v :=
  ⟨iff_of_false hc hp, fun h => absurd h hp, fun h => absurd h hp, fun h => absurd h hp⟩

theorem PageCopied.evolve {R' : Nat → Prop} {vm'' : Vmm.State σ} {v : Nat}
    (h : PageCopied A R vm vm' p c sh v) (he : Evolved A R R' vm' vm'')
    (hc : pte vm'' c v = pte vm' c v) (hs : pte vm'' sh v = pte vm' sh v) :
    PageCopied A R' vm vm'' p c sh v where
  present := by
    unfold Present
    rw [hc]
    exact h.present
  flags hp := by rw [hc, h.flags hp]
  shadow hp := by rw [hc, hs, h.shadow hp]
  page hp := by
    rw [hc]
    exact (h.page hp).evolve he

theorem PageCopied.earlier {roots R₀ : Nat → Prop} {vm₀ : Vmm.State σ} {v : Nat}
    (h : PageCopied A R vm vm' p c sh v) (he : Evolved A roots R₀ vm₀ vm)
    (hp : pte vm p v = pte vm₀ p v)
    (hown : Present vm₀ p v → A.Owned vm₀.pmm (pteGetAddr (pte vm₀ p v)))
    (hdata : Present vm₀ p v → ¬ TablePage roots vm₀ (pteGetAddr (pte vm₀ p v))) :
    PageCopied A R vm₀ vm' p c sh v := by
  have hpres : Present vm₀ p v ↔ Present vm p v := by
    unfold Present
    rw [hp]
  refine ⟨h.present.trans hpres.symm, fun hpv => ?_, fun hpv => h.shadow (hpres.mp hpv),
    fun hpv => ?_⟩
  · rw [← hp]
    exact h.flags (hpres.mp hpv)
  · have hn := h.page (hpres.mp hpv)
    rw [hp] at hn
    exact hn.earlier he (hown hpv) (hdata hpv)

/-- No two pages of an interval have the same copy. -/
def Distinct (vm vm' : Vmm.State σ) (p c : Nat) (S : Nat → Prop) : Prop :=
  ∀ v w, S v → S w → Present vm p v → Present vm p w →
    pteGetAddr (pte vm' c v) = pteGetAddr (pte vm' c w) → v / pageSize = w / pageSize

/-- A private range after its pages below `e`. -/
structure Copying (A : PageAllocator σ) (R : Nat → Prop) (vm vm' : Vmm.State σ)
    (p c sh b e : Nat) : Prop where
  sweep : Sweep A R (fun r => r = c ∨ r = sh) vm vm' b e
  pages : ∀ v, b ≤ v → v < e → PageCopied A R vm vm' p c sh v
  distinct : Distinct vm vm' p c fun v => b ≤ v ∧ v < e

namespace Copying

variable {b j : Nat}

theorem skip (h : Copying A R vm vm' p c sh b j) (hpc : p ≠ c ∧ p ≠ sh) (hp : R p) (hc : R c)
    (hj : pageSize ∣ j) (hlow : j + pageSize ≤ lowEnd)
    (hempty : ∀ v, j ≤ v → v < j + pageSize → ¬ Present vm c v) (habs : ¬ Present vm' p j) :
    Copying A R vm vm' p c sh b (j + pageSize) := by
  have hpp : ∀ v, j ≤ v → v < j + pageSize → ¬ Present vm p v := by
    intro v hv hv' hpv
    refine habs ?_
    unfold Present at hpv ⊢
    rw [h.sweep.others p j hp (by simp [hpc]), pte_page (w := v) (by unfold pageSize at *; omega)]
    exact hpv
  refine ⟨h.sweep.skip (by omega), fun v hbv hv => ?_, fun v w hv hw hpv hpw he => ?_⟩
  · by_cases hvj : v < j
    · exact h.pages v hbv hvj
    · refine .of_absent (hpp v (by omega) hv) fun hpv => hempty v (by omega) hv ?_
      unfold Present at hpv ⊢
      rw [← h.sweep.outside c v hc (by omega) (by omega)]
      exact hpv
  · have hvj : v < j := Nat.lt_of_not_le fun hle => hpp v hle hv.2 hpv
    have hwj : w < j := Nat.lt_of_not_le fun hle => hpp w hle hw.2 hpw
    exact h.distinct v w ⟨hv.1, hvj⟩ ⟨hw.1, hwj⟩ hpv hpw he

theorem copy {vm'' : Vmm.State σ} (h : Copying A R vm vm' p c sh b j) (hbj : b ≤ j)
    (hpc : p ≠ c ∧ p ≠ sh) (hcs : c ≠ sh) (hp : R p) (hc : R c) (hs : R sh) (hj : pageSize ∣ j)
    (hlow : j + pageSize ≤ lowEnd)
    (hown : Present vm p j → A.Owned vm.pmm (pteGetAddr (pte vm p j)))
    (hdata : Present vm p j → ¬ TablePage R vm (pteGetAddr (pte vm p j)))
    (hpres : Present vm' p j) (hd : Duplicated A R vm' vm'' p c sh j) :
    Copying A R vm vm'' p c sh b (j + pageSize) := by
  obtain ⟨vm₁, page, hwf₁, hk₁, hp₁, hwf₂, hk₂, hp₂, hn⟩ := hd
  have hjlow : j < lowEnd := by unfold pageSize at *; omega
  have hev : Evolved A R R vm' vm'' := (Evolved.of_keeps hwf₁ hk₁).trans (.of_keeps hwf₂ hk₂)
  have hpj : pte vm' p j = pte vm p j := h.sweep.others p j hp (by simp [hpc])
  have hpresj : Present vm p j := by
    unfold Present at hpres ⊢
    rw [← hpj]
    exact hpres
  rw [hpj] at hp₁ hp₂ hn
  have hnew := hn.earlier h.sweep.evolved (hown hpresj) (hdata hpresj)
  -- the entries of the page, and of the pages before it
  have hcj : ∀ v, v < lowEnd → pte vm'' c v = if j ≤ v ∧ v < j + pageSize then
      pteGetFlags (pte vm p j) ||| page else pte vm' c v := by
    intro v hv
    rw [hp₂.low hj hjlow hc hv, if_neg (by simp [hcs]), hp₁.low hj hjlow hc hv]
    simp
  have hsj : ∀ v, v < lowEnd → pte vm'' sh v = if j ≤ v ∧ v < j + pageSize then
      pteGetFlags (pte vm p j) ||| page else pte vm' sh v := by
    intro v hv
    rw [hp₂.low hj hjlow hs hv, hp₁.low hj hjlow hs hv]
    simp [hcs.symm]
  have hpage : ∀ v, j ≤ v → v < j + pageSize → pte vm p j = pte vm p v := fun v hv hv' =>
    pte_page (by unfold pageSize at *; omega)
  have hold : ∀ v, b ≤ v → v < j → pte vm'' c v = pte vm' c v := fun v _ hvj => by
    rw [hcj v (by omega), if_neg (by omega)]
  have hnewc : ∀ v, j ≤ v → v < j + pageSize →
      pte vm'' c v = pteGetFlags (pte vm p j) ||| page := fun v hv hv' => by
    rw [hcj v (by omega), if_pos ⟨hv, hv'⟩]
  -- an earlier copy is owned when the new page is taken
  have hne : ∀ v, b ≤ v → v < j → Present vm p v → pteGetAddr (pte vm'' c v) ≠ page := by
    intro v hbv hvj hpv he
    rw [hold v hbv hvj] at he
    exact hn.fresh (he ▸ ((h.pages v hbv hvj).page hpv).owned)
  refine ⟨?_, fun v hbv hv => ?_, fun v w hv hw hpv hpw he => ?_⟩
  · have h₁ := (h.sweep.skip (Nat.le_add_right j pageSize)).put (Or.inl rfl) hbj (Nat.le_refl _) hj
      hjlow hwf₁ hk₁ hp₁
    exact h₁.put (Or.inr rfl) hbj (Nat.le_refl _) hj hjlow hwf₂ hk₂ hp₂
  · by_cases hvj : v < j
    · exact (h.pages v hbv hvj).evolve hev (hold v hbv hvj)
        (by rw [hsj v (by omega), if_neg (by omega)])
    · have hin : j ≤ v ∧ v < j + pageSize := ⟨by omega, hv⟩
      refine .of_entry page ?_ ?_ ?_ ?_
      · unfold Present at hpresj ⊢
        rw [← hpage v hin.1 hin.2]
        exact hpresj
      · rw [← hpage v hin.1 hin.2]
        exact hnew
      · rw [hnewc v hin.1 hin.2, hpage v hin.1 hin.2]
      · rw [hnewc v hin.1 hin.2, hsj v (by omega), if_pos hin]
  · have haddr : ∀ v, j ≤ v → v < j + pageSize → pteGetAddr (pte vm'' c v) = page :=
      fun v hv hv' => by rw [hnewc v hv hv', pteGetAddr_flags_or hn.addr]
    by_cases hvj : v < j <;> by_cases hwj : w < j
    · rw [hold v hv.1 hvj, hold w hw.1 hwj] at he
      exact h.distinct v w ⟨hv.1, hvj⟩ ⟨hw.1, hwj⟩ hpv hpw he
    · exact absurd (he.trans (haddr w (by omega) hw.2)) (hne v hv.1 hvj hpv)
    · exact absurd (he.symm.trans (haddr v (by omega) hv.2)) (hne w hw.1 hwj hpw)
    · unfold pageSize at *
      omega

end Copying

end

end Lyre.Mmap
