import Lyre.Properties.Mmap

/-!
# Loops over the pages of the lower half

Processes live in the lower half of the address space, where no two pagemaps share a table. The
entries there depend on the page number alone, and the loops of `mmap.c` edit them one page after
the other.

* `Edited` — what unmapping or re-flagging the pages of an interval does;
* `Released` — what giving back the pages of a shadow pagemap does.
-/

namespace Lyre.Vmm

/-! ## Addresses of the lower half -/

/-- End of the lower half. -/
def lowEnd : Nat := 2 ^ 47

theorem not_upperHalf_of_low {virt : Nat} (h : virt < lowEnd) : ¬ upperHalf (pml4Entry virt) := by
  rw [pml4Entry_eq]
  unfold upperHalf lowEnd at *
  omega

section

variable {σ : Type} {A : PageAllocator σ} {roots : Nat → Prop} {s s' : State σ} {r : Nat}

theorem sameEntry_low (r r' : Nat) {j virt : Nat} (hj : pageSize ∣ j) (hlow : j < lowEnd)
    (hv : virt < lowEnd) :
    SameEntry upperHalf r j r' virt ↔ r' = r ∧ j ≤ virt ∧ virt < j + pageSize := by
  have hup := not_upperHalf_of_low hlow
  have hvpn : vpn j = vpn virt ↔ j ≤ virt ∧ virt < j + pageSize := by
    unfold vpn lowEnd pageSize at *
    omega
  unfold SameEntry
  rw [hvpn]
  constructor
  · rintro ⟨h1, h2 | h2⟩
    · exact ⟨h2.symm, h1⟩
    · exact absurd h2 hup
  · rintro ⟨h1, h2⟩
    exact ⟨h2, Or.inl h1.symm⟩

theorem pte_page {v w : Nat} (h : v / pageSize = w / pageSize) : pte s r v = pte s r w := by
  have hvpn : vpn v = vpn w := by
    unfold vpn
    unfold pageSize at h
    omega
  obtain ⟨h1, h2⟩ := vpn_eq_iff.mp hvpn
  unfold pte
  rw [h1, h2]

theorem Put.low {j value : Nat} (h : Put roots upperHalf s s' r j value) (hj : pageSize ∣ j)
    (hlow : j < lowEnd) {r' v : Nat} (hr : roots r') (hv : v < lowEnd) :
    pte s' r' v =
      if r' = r ∧ j ≤ v ∧ v < j + pageSize then value else pte s r' v := by
  have hsame := sameEntry_low r r' hj hlow hv
  split
  · next hin => exact (h r' v hr).1 (hsame.mpr hin)
  · next hin => exact (h r' v hr).2 fun hc => hin (hsame.mp hc)

/-- A present entry without its mapping. -/
def unmapped (entry : Nat) : Nat := if entry &&& ptePresent = 0 then entry else 0

/-- A present entry with other flags. -/
def reflagged (flags entry : Nat) : Nat :=
  if entry &&& ptePresent = 0 then entry else pteGetAddr entry ||| flags

theorem not_present_unmapped (entry : Nat) : unmapped entry &&& ptePresent = 0 := by
  unfold unmapped
  split
  · assumption
  · exact present_zero

/-! ## Editing an interval -/

/-- The entries of `[b, e)` below `r` have become `f` of themselves, and nothing else happened. -/
structure Edited (A : PageAllocator σ) (roots : Nat → Prop) (s s' : State σ) (r b e : Nat)
    (f : Nat → Nat) : Prop where
  wf : Wf A roots upperHalf s'
  pmm : s'.pmm = s.pmm
  tables : ∀ t, TablePage roots s' t → TablePage roots s t
  pte : ∀ r' v, roots r' → v < lowEnd →
    pte s' r' v = if r' = r ∧ b ≤ v ∧ v < e then f (pte s r v) else pte s r' v

theorem Edited.refl (h : Wf A roots upperHalf s) (r b : Nat) (f : Nat → Nat) :
    Edited A roots s s r b b f :=
  ⟨h, rfl, fun _ ht => ht, fun r' v _ _ => by rw [if_neg (by omega)]⟩

theorem Edited.other {b e : Nat} {f : Nat → Nat} (h : Edited A roots s s' r b e f) {r' v : Nat}
    (hr : roots r') (hne : r' ≠ r) (hv : v < lowEnd) : Vmm.pte s' r' v = Vmm.pte s r' v := by
  rw [h.pte r' v hr hv, if_neg fun hc => hne hc.1]

/-- An entry put at the end of an interval that was edited by `f` makes it a page longer. -/
theorem Put.interval {f : Nat → Nat} {s'' : State σ} {b j : Nat}
    (h : Put roots upperHalf s' s'' r j (f (Vmm.pte s r j))) (hbj : b ≤ j) (hj : pageSize ∣ j)
    (hlow : j < lowEnd)
    (hpte : ∀ r' v, roots r' → v < lowEnd → Vmm.pte s' r' v =
      if r' = r ∧ b ≤ v ∧ v < j then f (Vmm.pte s r v) else Vmm.pte s r' v) :
    ∀ r' v, roots r' → v < lowEnd → Vmm.pte s'' r' v =
      if r' = r ∧ b ≤ v ∧ v < j + pageSize then f (Vmm.pte s r v) else Vmm.pte s r' v := by
  intro r' v hr' hv
  rw [h.low hj hlow hr' hv]
  by_cases hin : r' = r ∧ j ≤ v ∧ v < j + pageSize
  · rw [if_pos hin, if_pos (by omega)]
    exact congrArg f (pte_page (by unfold pageSize at *; omega))
  · rw [if_neg hin, hpte r' v hr' hv]
    by_cases hold : r' = r ∧ b ≤ v ∧ v < j
    · rw [if_pos hold, if_pos (by omega)]
    · rw [if_neg hold, if_neg (by omega)]

theorem Edited.step {f : Nat → Nat} {s'' : State σ} {b j value : Nat}
    (h : Edited A roots s s' r b j f) (hbj : b ≤ j) (hj : pageSize ∣ j)
    (hlow : j < lowEnd) (hwf : Wf A roots upperHalf s'') (hpmm : s''.pmm = s'.pmm)
    (hkeep : Keeps A roots s' s'') (hval : value = f (Vmm.pte s r j))
    (hput : Put roots upperHalf s' s'' r j value) :
    Edited A roots s s'' r b (j + pageSize) f where
  wf := hwf
  pmm := by rw [hpmm, h.pmm]
  tables t ht := by
    rcases hkeep.tables_new t ht with h1 | h1
    · exact h.tables t h1
    · exact absurd (hwf.owned t ht) (by rw [hpmm]; exact h1)
  pte := (hval ▸ hput).interval hbj hj hlow h.pte

theorem Edited.skip {f : Nat → Nat} {s'' : State σ} {b j : Nat}
    (h : Edited A roots s s' r b j f) (hr : roots r) (hbj : b ≤ j) (hj : pageSize ∣ j)
    (hlow : j < lowEnd) (hwf : Wf A roots upperHalf s'') (hpmm : s''.pmm = s'.pmm)
    (hkeep : Keeps A roots s' s'') (hval : f (Vmm.pte s r j) = Vmm.pte s r j)
    (hsame : SameEntries roots s' s'') : Edited A roots s s'' r b (j + pageSize) f := by
  have hpj : Vmm.pte s' r j = Vmm.pte s r j := by
    rw [h.pte r j hr hlow, if_neg (by omega)]
  refine h.step hbj hj hlow hwf hpmm hkeep rfl ?_
  intro r' v hr'
  refine ⟨fun hs => ?_, fun _ => hsame r' v hr'⟩
  obtain ⟨hvpn, hrr⟩ := hs
  rcases hrr with rfl | hup
  · rw [hsame _ v hr', hval, ← hpj]
    obtain ⟨h1, h2⟩ := vpn_eq_iff.mp hvpn
    unfold Vmm.pte
    rw [h1, h2]
  · exact absurd hup (not_upperHalf_of_low hlow)

/-- A loop that edits a page where it is mapped and otherwise leaves it alone. -/
theorem edited_of_loop {op : Nat → State σ → State σ} {f : Nat → Nat} {b e : Nat}
    (hop : ∀ j s, Wf A roots upperHalf s →
      (op j s).pmm = s.pmm ∧ Wf A roots upperHalf (op j s) ∧ Keeps A roots s (op j s) ∧
      ((¬ Present s r j ∧ SameEntries roots s (op j s)) ∨
        (Present s r j ∧ Put roots upperHalf s (op j s) r j (f (pte s r j)))))
    (hf : ∀ entry, entry &&& ptePresent = 0 → f entry = entry) (h : Wf A roots upperHalf s)
    (hr : roots r) (hb : pageSize ∣ b) (he : pageSize ∣ e) (hbe : b ≤ e) (hlow : e ≤ lowEnd) :
    Edited A roots s (Mmap.pageLoop op e Mmap.loopFuel b s) r b e f := by
  have hlt : e < 2 ^ 64 := Nat.lt_of_le_of_lt hlow (by decide)
  refine (Mmap.pageLoop_rule (P := fun j s' => b ≤ j ∧ Edited A roots s s' r b j f) he hlt ?_ hb
    hbe ?_ ⟨Nat.le_refl _, .refl h r b f⟩).2
  · rintro j s' hj hje ⟨hbj, hed⟩
    have hjlow : j < lowEnd := Nat.lt_of_lt_of_le hje hlow
    have hpj : Vmm.pte s' r j = Vmm.pte s r j := by
      rw [hed.pte r j hr hjlow, if_neg (by omega)]
    obtain ⟨hpmm, hwf, hkeep, ⟨habs, hsame⟩ | ⟨_, hput⟩⟩ := hop j s' hed.wf
    · refine ⟨by omega, hed.skip hr hbj hj hjlow hwf hpmm hkeep (hf _ ?_) hsame⟩
      unfold Present at habs
      rw [hpj] at habs
      exact not_not.mp habs
    · exact ⟨by omega, hed.step hbj hj hjlow hwf hpmm hkeep (by rw [hpj]) hput⟩
  · unfold Mmap.loopFuel pageSize
    omega

theorem unmapPages_edited {s : State σ} {b e : Nat} (h : Wf A roots upperHalf s) (hr : roots r)
    (hb : pageSize ∣ b) (he : pageSize ∣ e) (hbe : b ≤ e) (hlow : e ≤ lowEnd) :
    Edited A roots s
      (Mmap.pageLoop (fun j vm => (vmmUnmapPage A vm r j).2) e Mmap.loopFuel b s) r b e unmapped := by
  refine edited_of_loop ?_ (fun entry h => if_pos h) h hr hb he hbe hlow
  intro j s hwf
  obtain ⟨hpmm, ⟨⟨_, hwf', hkeep, hsame⟩, habs⟩ | ⟨⟨_, hwf', hkeep, hput⟩, hpres⟩⟩ :=
    vmmUnmapPage_spec j hwf hr
  · exact ⟨hpmm, hwf', hkeep, Or.inl ⟨habs, hsame⟩⟩
  · exact ⟨hpmm, hwf', hkeep, Or.inr ⟨hpres, by rw [unmapped, if_neg hpres]; exact hput⟩⟩

theorem flagPages_edited {s : State σ} {b e : Nat} (flags : Nat) (h : Wf A roots upperHalf s)
    (hr : roots r) (hb : pageSize ∣ b) (he : pageSize ∣ e) (hbe : b ≤ e) (hlow : e ≤ lowEnd) :
    Edited A roots s
      (Mmap.pageLoop (fun j vm => (vmmFlagPage A vm r j flags).2) e Mmap.loopFuel b s) r b e
      (reflagged flags) := by
  refine edited_of_loop ?_ (fun entry h => if_pos h) h hr hb he hbe hlow
  intro j s hwf
  obtain ⟨hpmm, ⟨⟨_, hwf', hkeep, hsame⟩, habs⟩ | ⟨⟨_, hwf', hkeep, hput⟩, hpres⟩⟩ :=
    vmmFlagPage_spec j flags hwf hr
  · exact ⟨hpmm, hwf', hkeep, Or.inl ⟨habs, hsame⟩⟩
  · exact ⟨hpmm, hwf', hkeep, Or.inr ⟨hpres, by rw [reflagged, if_neg hpres]; exact hput⟩⟩

/-! ## Giving pages back -/

theorem Wf.pmmFree {p : Nat} (h : Wf A roots upperHalf s) (hp : A.Owned s.pmm p)
    (hnt : ¬ TablePage roots s p) : Wf A roots upperHalf (Vmm.pmmFree A s p) :=
  ⟨h.forest, A.inv_free h.alloc hp, fun t ht =>
    (A.owned_free h.alloc hp).mpr ⟨h.owned t ht, fun he => hnt (he ▸ ht)⟩⟩

/-- The pages that the entries of `[b, e)` below `r` hold are given back: they are in `l`, the
entries are gone, and nothing else happened. -/
structure Released (A : PageAllocator σ) (roots : Nat → Prop) (s s' : State σ) (r b e : Nat)
    (l : List Nat) : Prop where
  wf : Wf A roots upperHalf s'
  tables : ∀ t, TablePage roots s' t → TablePage roots s t
  owned : ∀ q, A.Owned s'.pmm q ↔ A.Owned s.pmm q ∧ q ∉ l
  pages : ∀ p, p ∈ l ↔ ∃ v, b ≤ v ∧ v < e ∧ Present s r v ∧ pteGetAddr (pte s r v) = p
  pte : ∀ r' v, roots r' → v < lowEnd →
    pte s' r' v = if r' = r ∧ b ≤ v ∧ v < e then unmapped (pte s r v) else pte s r' v

/-- What a shadow pagemap must satisfy for its pages to be given back one by one. -/
structure Owning (A : PageAllocator σ) (roots : Nat → Prop) (s : State σ) (r : Nat) : Prop where
  owned : ∀ v, v < lowEnd → Present s r v → A.Owned s.pmm (pteGetAddr (pte s r v))
  data : ∀ v, v < lowEnd → Present s r v → ¬ TablePage roots s (pteGetAddr (pte s r v))
  unique : ∀ v w, v < lowEnd → w < lowEnd → Present s r v → Present s r w →
    pteGetAddr (pte s r v) = pteGetAddr (pte s r w) → v / pageSize = w / pageSize

theorem Owning.edited {f : Nat → Nat} {r₀ b e : Nat} (h : Owning A roots s r)
    (hed : Edited A roots s s' r₀ b e f) (hr : roots r) (hne : r ≠ r₀) : Owning A roots s' r := by
  have hent : ∀ v, v < lowEnd → Vmm.pte s' r v = Vmm.pte s r v := fun v hv => hed.other hr hne hv
  have hpres : ∀ v, v < lowEnd → Present s' r v → Present s r v := by
    intro v hv hp
    unfold Present at *
    rwa [hent v hv] at hp
  refine ⟨fun v hv hp => ?_, fun v hv hp ht => ?_, fun v w hv hw hpv hpw he => ?_⟩
  · rw [hent v hv, hed.pmm]
    exact h.owned v hv (hpres v hv hp)
  · rw [hent v hv] at ht
    exact h.data v hv (hpres v hv hp) (hed.tables _ ht)
  · rw [hent v hv, hent w hw] at he
    exact h.unique v w hv hw (hpres v hv hpv) (hpres w hw hpw) he

namespace Released

variable {s'' : State σ} {b j : Nat} {l : List Nat}

theorem skip (h : Released A roots s s' r b j l) (hj : pageSize ∣ j) (habs : ¬ Present s r j) :
    Released A roots s s' r b (j + pageSize) l := by
  have hpage : ∀ v, j ≤ v → v < j + pageSize → Vmm.pte s r v = Vmm.pte s r j :=
    fun v h1 h2 => pte_page (by unfold pageSize at *; omega)
  refine ⟨h.wf, h.tables, h.owned, ?_, ?_⟩
  · intro p
    rw [h.pages p]
    constructor
    · rintro ⟨v, h1, h2, h3, h4⟩
      exact ⟨v, h1, by omega, h3, h4⟩
    · rintro ⟨v, h1, h2, h3, h4⟩
      by_cases hvj : v < j
      · exact ⟨v, h1, hvj, h3, h4⟩
      · unfold Present at h3
        rw [hpage v (by omega) h2] at h3
        exact absurd h3 habs
  · intro r' v hr' hv
    rw [h.pte r' v hr' hv]
    by_cases hold : r' = r ∧ b ≤ v ∧ v < j
    · rw [if_pos hold, if_pos (by omega)]
    · rw [if_neg hold]
      by_cases hin : r' = r ∧ j ≤ v ∧ v < j + pageSize
      · obtain ⟨rfl, h1, h2⟩ := hin
        have hzero : Vmm.pte s r' v &&& ptePresent = 0 := by
          rw [hpage v h1 h2]
          exact not_not.mp habs
        rw [unmapped, if_pos hzero, ite_self]
      · rw [if_neg (by omega)]

theorem free (h : Released A roots s s' r b j l) (hO : Owning A roots s r) (hbj : b ≤ j)
    (hj : pageSize ∣ j) (hlow : j < lowEnd) (hp : Present s r j)
    (hwf : Wf A roots upperHalf s'') (hpmm : s''.pmm = s'.pmm) (hkeep : Keeps A roots s' s'')
    (hput : Put roots upperHalf s' s'' r j 0) :
    Released A roots s (Vmm.pmmFree A s'' (pteGetAddr (Vmm.pte s r j))) r b (j + pageSize)
      (pteGetAddr (Vmm.pte s r j) :: l) := by
  -- the page is still owned: the pages freed before belong to other addresses
  have hnotin : pteGetAddr (Vmm.pte s r j) ∉ l := by
    intro hin
    obtain ⟨v, hbv, hvj, hv, he⟩ := (h.pages _).mp hin
    have := hO.unique v j (by omega) hlow hv hp he
    unfold pageSize at *
    omega
  have hown : A.Owned s''.pmm (pteGetAddr (Vmm.pte s r j)) := by
    rw [hpmm]
    exact (h.owned _).mpr ⟨hO.owned j hlow hp, hnotin⟩
  have htab : ∀ t, TablePage roots s'' t → TablePage roots s t := by
    intro t ht
    rcases hkeep.tables_new t ht with h1 | h1
    · exact h.tables t h1
    · exact absurd (hwf.owned t ht) (by rw [hpmm]; exact h1)
  have hnt : ¬ TablePage roots s'' (pteGetAddr (Vmm.pte s r j)) :=
    fun ht => hO.data j hlow hp (htab _ ht)
  refine ⟨hwf.pmmFree hown hnt, htab, ?_, ?_, ?_⟩
  · intro q
    show A.Owned (A.free s''.pmm _) q ↔ _
    rw [A.owned_free hwf.alloc hown, hpmm, h.owned q, List.mem_cons]
    tauto
  · intro p
    rw [List.mem_cons, h.pages p]
    constructor
    · rintro (rfl | ⟨v, h1, h2, h3, h4⟩)
      · exact ⟨j, hbj, by unfold pageSize; omega, hp, rfl⟩
      · exact ⟨v, h1, by omega, h3, h4⟩
    · rintro ⟨v, h1, h2, h3, h4⟩
      by_cases hvj : v < j
      · exact Or.inr ⟨v, h1, hvj, h3, h4⟩
      · have hv : Vmm.pte s r v = Vmm.pte s r j := pte_page (by unfold pageSize at *; omega)
        exact Or.inl (by rw [← h4, hv])
  · have hzero : unmapped (Vmm.pte s r j) = 0 := by rw [unmapped, if_neg hp]
    exact Put.interval (by rw [hzero]; exact hput) hbj hj hlow h.pte

end Released

end

end Lyre.Vmm

namespace Lyre.Mmap

open Vmm

section

variable {σ : Type} {A : PageAllocator σ} {roots : Nat → Prop} {s : State σ} {r b e : Nat}

theorem releasePage_spec {vm : Vmm.State σ} {l : List Nat} {j : Nat} (hO : Owning A roots s.vm r)
    (hr : roots r) (hbj : b ≤ j) (hj : pageSize ∣ j) (hlow : j < lowEnd)
    (h : Released A roots s.vm vm r b j l) :
    ∃ vm' l', releasePage A r j (true, { s with vm, freed := l ++ s.freed })
        = (true, { s with vm := vm', freed := l' ++ s.freed }) ∧
      Released A roots s.vm vm' r b (j + pageSize) l' := by
  have hpj : pte vm r j = pte s.vm r j := by
    rw [h.pte r j hr hlow, if_neg (by omega)]
  unfold releasePage
  simp only [Bool.true_eq_false, if_false]
  by_cases hp : Present s.vm r j
  · have hp' : Present vm r j := by unfold Present at *; rwa [hpj]
    have hphys : vmmVirt2phys A vm r j = pteGetAddr (pte s.vm r j) := by
      rw [vmmVirt2phys_eq, if_pos hp', hpj]
    rcases (vmmUnmapPage_spec j h.wf hr).2 with ⟨_, habs⟩ | ⟨⟨hres, hwf, hkeep, hput⟩, _⟩
    · exact absurd hp' habs
    · have hpmm := (vmmUnmapPage_spec j h.wf hr).1
      rcases hu : vmmUnmapPage A vm r j with ⟨ok, vm₁⟩
      rw [hu] at hres hwf hkeep hput hpmm
      obtain rfl : ok = true := hres
      rw [hphys, if_neg (pteGetAddr_ne_invalid _)]
      exact ⟨_, _, rfl, h.free hO hbj hj hlow hp hwf hpmm hkeep hput⟩
  · have hp' : ¬ Present vm r j := by unfold Present at *; rwa [hpj]
    rw [vmmVirt2phys_eq, if_neg hp', if_pos rfl]
    exact ⟨vm, l, rfl, h.skip hj hp⟩

/-- **The pages of a shadow pagemap are given back**, each of them once. -/
theorem releaseShadow_spec {g : Nat} (hr : roots (s.globals g).shadowPagemap)
    (hwf : Wf A roots upperHalf s.vm) (hO : Owning A roots s.vm (s.globals g).shadowPagemap)
    (hb : pageSize ∣ (s.globals g).base) (hl : pageSize ∣ (s.globals g).length)
    (hlow : (s.globals g).base + (s.globals g).length ≤ lowEnd) :
    ∃ vm l, releaseShadow A s g = (true, { s with vm, freed := l ++ s.freed }) ∧
      Released A roots s.vm vm (s.globals g).shadowPagemap (s.globals g).base
        ((s.globals g).base + (s.globals g).length) l := by
  have hlt : (s.globals g).base + (s.globals g).length < 2 ^ 64 :=
    Nat.lt_of_le_of_lt hlow (by decide)
  unfold releaseShadow
  simp only
  rw [u64_of_lt hlt]
  refine (pageLoop_rule
    (P := fun j acc => (s.globals g).base ≤ j ∧ ∃ vm l,
      acc = (true, { s with vm, freed := l ++ s.freed }) ∧
        Released A roots s.vm vm (s.globals g).shadowPagemap (s.globals g).base j l)
    (Nat.dvd_add hb hl) hlt ?_ hb (Nat.le_add_right _ _) ?_ ⟨Nat.le_refl _, s.vm, [], rfl, ?_⟩).2
  · rintro j _ hj hjs ⟨hbj, vm, l, rfl, hrel⟩
    exact ⟨by omega,
      releasePage_spec hO hr hbj hj (Nat.lt_of_lt_of_le hjs hlow) hrel⟩
  · unfold loopFuel pageSize
    omega
  · refine ⟨hwf, fun _ ht => ht, by simp, ?_, ?_⟩
    · intro p
      simp only [List.not_mem_nil, false_iff, not_exists]
      omega
    · intro r' v _ _
      rw [if_neg (by omega)]

end

end Lyre.Mmap
