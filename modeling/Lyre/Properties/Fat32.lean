import Lyre.Infra.Holders
import Lyre.Fs.Fat32
import Mathlib.Order.Interval.Finset.Nat

/-!
# The entries of a FAT

What `fsinfo` says is exact if `free` is the number of zero entries and no zero entry is below
`startat` (`Exact`). Under it the search for a free cluster stays within the table
(`nextfree_spec`), and `fat32fs_freeclusters` gives back a chain (`freeclusters_spec`).
-/

namespace Lyre.Fat32

open Infra Fat32fs

variable {fs fs' fs'' : Fat32fs} {a c d i k v z count : Nat} {l m : List Nat}

/-! ## Counting zero entries -/

/-- The number of zero entries from `a` on. -/
def zerosFrom (fs : Fat32fs) (a : Nat) : Nat :=
  holders (Finset.Ico a fs.entries) (fun c => some (fs.fat 0 c)) 0

theorem exists_zero (h : 0 < zerosFrom fs a) : ∃ z, a ≤ z ∧ z < fs.entries ∧ fs.fat 0 z = 0 := by
  obtain ⟨z, hz, hfat⟩ := holders_pos.mp h
  rw [Finset.mem_Ico] at hz
  exact ⟨z, hz.1, hz.2, Option.some.inj hfat⟩

theorem zerosFrom_skip (haz : a ≤ z)
    (hno : ∀ i, a ≤ i → i < z → i < fs.entries → fs.fat 0 i ≠ 0) :
    zerosFrom fs a = zerosFrom fs z := by
  unfold zerosFrom holders
  congr 1
  ext i
  rw [Finset.mem_filter, Finset.mem_filter, Finset.mem_Ico, Finset.mem_Ico]
  constructor
  · rintro ⟨⟨hai, hi⟩, hfat⟩
    refine ⟨⟨?_, hi⟩, hfat⟩
    by_contra hiz
    exact hno i hai (by omega) hi (Option.some.inj hfat)
  · rintro ⟨⟨hzi, hi⟩, hfat⟩
    exact ⟨⟨by omega, hi⟩, hfat⟩

theorem zerosFrom_succ (hz : z < fs.entries) (hfat : fs.fat 0 z = 0) :
    zerosFrom fs z = zerosFrom fs (z + 1) + 1 := by
  have hmem : z ∈ Finset.Ico z fs.entries := Finset.mem_Ico.mpr ⟨le_refl z, hz⟩
  have herase : (Finset.Ico z fs.entries).erase z = Finset.Ico (z + 1) fs.entries := by
    ext i
    rw [Finset.mem_erase, Finset.mem_Ico, Finset.mem_Ico]
    omega
  unfold zerosFrom
  rw [holders_erase hmem, herase, if_pos (by rw [hfat])]

theorem zerosFrom_congr (he : fs'.entries = fs.entries)
    (h : ∀ i, a ≤ i → fs'.fat 0 i = fs.fat 0 i) : zerosFrom fs' a = zerosFrom fs a := by
  unfold zerosFrom
  rw [he]
  refine holders_congr fun i hi => ?_
  rw [h i (Finset.mem_Ico.mp hi).1]

/-! ## One entry is set -/

/-- What `fat32fs_setnext` leaves. -/
def put (fs : Fat32fs) (c v : Nat) : Fat32fs :=
  { fs with fat := (List.range fs.fatcount).foldl (setEntry c v) fs.fat }

theorem setnext_eq (hc : c < fs.entries) : fs.setnext c v = some (put fs c v) := if_pos hc

theorem next_eq (hc : c < fs.entries) : fs.next c = some (fs.fat 0 c) := if_pos hc

@[simp] theorem put_entries : (put fs c v).entries = fs.entries := rfl
@[simp] theorem put_fatcount : (put fs c v).fatcount = fs.fatcount := rfl
@[simp] theorem put_clustersize : (put fs c v).clustersize = fs.clustersize := rfl
@[simp] theorem put_free : (put fs c v).free = fs.free := rfl
@[simp] theorem put_startat : (put fs c v).startat = fs.startat := rfl
@[simp] theorem put_data : (put fs c v).data = fs.data := rfl

theorem foldl_setEntry (fat : Nat → Nat → Nat) (n : Nat) :
    (List.range n).foldl (setEntry c v) fat k i = if k < n ∧ i = c then v else fat k i := by
  induction n with
  | zero => simp
  | succ n ih =>
    rw [List.range_succ, List.foldl_append, List.foldl_cons, List.foldl_nil, setEntry]
    by_cases hk : k = n
    · subst hk
      rw [Function.update_self]
      by_cases hi : i = c
      · subst hi
        simp
      · rw [Function.update_of_ne hi, ih, if_neg (by omega), if_neg (by omega)]
    · rw [Function.update_of_ne hk, ih]
      congr 1
      exact propext (by omega)

theorem put_fat : (put fs c v).fat k i = if k < fs.fatcount ∧ i = c then v else fs.fat k i :=
  foldl_setEntry fs.fat fs.fatcount

theorem put_fat_self (hk : k < fs.fatcount) : (put fs c v).fat k c = v := by
  rw [put_fat, if_pos ⟨hk, rfl⟩]

theorem put_fat_of_ne (hi : i ≠ c) : (put fs c v).fat k i = fs.fat k i := by
  rw [put_fat, if_neg fun h => hi h.2]

@[simp] theorem zero_entries : (fs.zero c).entries = fs.entries := rfl
@[simp] theorem zero_fatcount : (fs.zero c).fatcount = fs.fatcount := rfl
@[simp] theorem zero_clustersize : (fs.zero c).clustersize = fs.clustersize := rfl
@[simp] theorem zero_free : (fs.zero c).free = fs.free := rfl
@[simp] theorem zero_startat : (fs.zero c).startat = fs.startat := rfl
@[simp] theorem zero_fat : (fs.zero c).fat = fs.fat := rfl

theorem zero_data_self (hi : i < fs.clustersize) : (fs.zero c).data c i = 0 := by
  simp only [zero, Function.update_self, if_pos hi]

theorem zero_data_of_ne (hd : d ≠ c) : (fs.zero c).data d = fs.data d :=
  Function.update_of_ne hd _ _

/-! ## What changes outside of some clusters -/

/-- All copies of the FAT are equal. -/
def Mirrored (fs : Fat32fs) : Prop :=
  ∀ k < fs.fatcount, ∀ c < fs.entries, fs.fat k c = fs.fat 0 c

/-- At most the entries and the contents of the clusters `l` differ, besides `fsinfo`. -/
structure Written (fs fs' : Fat32fs) (l : List Nat) : Prop where
  fatcount : fs'.fatcount = fs.fatcount
  entries : fs'.entries = fs.entries
  clustersize : fs'.clustersize = fs.clustersize
  mirrored : 0 < fs.fatcount → Mirrored fs → Mirrored fs'
  fat : ∀ c ∉ l, fs'.fat 0 c = fs.fat 0 c
  data : ∀ c ∉ l, fs'.data c = fs.data c

namespace Written

theorem rfl' : Written fs fs l := ⟨rfl, rfl, rfl, fun _ h => h, fun _ _ => rfl, fun _ _ => rfl⟩

theorem trans (h : Written fs fs' l) (h' : Written fs' fs'' m) : Written fs fs'' (l ++ m) where
  fatcount := h'.fatcount.trans h.fatcount
  entries := h'.entries.trans h.entries
  clustersize := h'.clustersize.trans h.clustersize
  mirrored := fun hpos hm => h'.mirrored (by rw [h.fatcount]; exact hpos) (h.mirrored hpos hm)
  fat := by
    intro c hc
    rw [List.mem_append, not_or] at hc
    rw [h'.fat c hc.2, h.fat c hc.1]
  data := by
    intro c hc
    rw [List.mem_append, not_or] at hc
    rw [h'.data c hc.2, h.data c hc.1]

theorem mono (h : Written fs fs' l) (hlm : ∀ c ∈ l, c ∈ m) : Written fs fs' m :=
  { h with
    fat := fun c hc => h.fat c fun hl => hc (hlm c hl)
    data := fun c hc => h.data c fun hl => hc (hlm c hl) }

theorem put (fs : Fat32fs) (c v : Nat) : Written fs (put fs c v) [c] where
  fatcount := rfl
  entries := rfl
  clustersize := rfl
  mirrored := by
    intro hpos hm k hk i hi
    rw [put_fat, put_fat]
    by_cases hic : i = c
    · rw [if_pos ⟨hk, hic⟩, if_pos ⟨hpos, hic⟩]
    · rw [if_neg fun h => hic h.2, if_neg fun h => hic h.2]
      exact hm k hk i hi
  fat := fun i hi => put_fat_of_ne fun h => hi (h ▸ List.mem_singleton_self _)
  data := fun _ _ => rfl

theorem zero (fs : Fat32fs) (c : Nat) : Written fs (fs.zero c) [c] where
  fatcount := rfl
  entries := rfl
  clustersize := rfl
  mirrored := fun _ hm => hm
  fat := fun _ _ => rfl
  data := fun _ hi => zero_data_of_ne fun h => hi (h ▸ List.mem_singleton_self _)

/-- `fsinfo` is not part of it. -/
theorem fsinfo (h : Written fs fs' l) (free startat : Nat) :
    Written fs { fs' with free := free, startat := startat } l :=
  ⟨h.fatcount, h.entries, h.clustersize, h.mirrored, h.fat, h.data⟩

end Written

/-! ## What `fsinfo` says -/

/-- A FAT with exact `fsinfo`. -/
structure Exact (fs : Fat32fs) : Prop where
  copies : 0 < fs.fatcount
  mirrored : Mirrored fs
  /-- Every cluster number is below the numbers that mark an end. -/
  entries : fs.entries ≤ finalCluster
  /-- The first two entries belong to no cluster and are in use. -/
  reserved : ∀ c < 2, fs.fat 0 c ≠ 0
  free : fs.free = zerosFrom fs 0
  hint : ∀ c < fs.startat, c < fs.entries → fs.fat 0 c ≠ 0

namespace Exact

theorem two_le (h : Exact fs) (hc : fs.fat 0 c = 0) : 2 ≤ c := by
  by_contra hlt
  exact h.reserved c (by omega) hc

theorem free_le (h : Exact fs) : fs.free ≤ finalCluster := by
  have hcard : zerosFrom fs 0 ≤ (Finset.Ico 0 fs.entries).card := holders_le_card
  rw [Nat.card_Ico] at hcard
  rw [h.free]
  exact le_trans hcard h.entries

theorem put (h : Exact fs) (hc : fs.fat 0 c ≠ 0) (hv : v ≠ 0) : Exact (put fs c v) := by
  have hzero : ∀ i, (Fat32.put fs c v).fat 0 i = 0 ↔ fs.fat 0 i = 0 := by
    intro i
    by_cases hi : i = c
    · subst hi
      rw [put_fat_self h.copies]
      exact iff_of_false hv hc
    · rw [put_fat_of_ne hi]
  refine ⟨h.copies, (Written.put fs c v).mirrored h.copies h.mirrored, h.entries, ?_, ?_, ?_⟩
  · exact fun i hi => (not_congr (hzero i)).mpr (h.reserved i hi)
  · rw [put_free, h.free]
    unfold zerosFrom holders
    congr 1
    refine Finset.filter_congr fun i _ => ?_
    rw [Option.some_inj, Option.some_inj]
    exact (hzero i).symm
  · exact fun i hi hin => (not_congr (hzero i)).mpr (h.hint i hi hin)

end Exact

/-! ## `nextfree` -/

theorem nextfreeLoop_spec {fuel : Nat} (hc : c ≠ 0) (hcz : c ≤ z) (hz : z < fs.entries)
    (hsize : fs.entries ≤ finalCluster) (hfat : fs.fat 0 z = 0) (hfuel : z - c < fuel) :
    ∃ r, nextfreeLoop fs fuel c = some r ∧ c ≤ r ∧ r < fs.entries ∧ fs.fat 0 r = 0
      ∧ ∀ i, c ≤ i → i < r → fs.fat 0 i ≠ 0 := by
  induction fuel generalizing c with
  | zero => omega
  | succ fuel ih =>
    rw [nextfreeLoop, if_neg hc, next_eq (by omega), Option.bind_eq_bind, Option.bind_some]
    by_cases h0 : fs.fat 0 c = 0
    · rw [if_pos h0]
      exact ⟨c, rfl, le_refl c, by omega, h0, fun i hi hi' => by omega⟩
    · have hne : c ≠ z := fun h => h0 (h ▸ hfat)
      have hmod : (c + 1) % 2 ^ 32 = c + 1 := by
        unfold finalCluster at hsize
        omega
      rw [if_neg h0, hmod]
      obtain ⟨r, hr, hcr, hrN, hr0, hno⟩ := ih (by omega : c + 1 ≠ 0) (by omega) (by omega)
      refine ⟨r, hr, by omega, hrN, hr0, fun i hi hir => ?_⟩
      rcases Nat.eq_or_lt_of_le hi with rfl | hi
      · exact h0
      · exact hno i hi hir

theorem nextfree_spec (hc : c ≠ 0) (hsize : fs.entries ≤ finalCluster) (h : 0 < zerosFrom fs c) :
    ∃ r, fs.nextfree c = some r ∧ c ≤ r ∧ r < fs.entries ∧ fs.fat 0 r = 0
      ∧ zerosFrom fs c = zerosFrom fs (r + 1) + 1 ∧ ∀ i, c ≤ i → i < r → fs.fat 0 i ≠ 0 := by
  obtain ⟨z, hcz, hz, hfat⟩ := exists_zero h
  have hfuel : z - c < fs.turns := by
    unfold turns
    omega
  obtain ⟨r, hr, hcr, hrN, hr0, hno⟩ := nextfreeLoop_spec hc hcz hz hsize hfat hfuel
  refine ⟨r, hr, hcr, hrN, hr0, ?_, hno⟩
  rw [zerosFrom_skip hcr fun i hi hir _ => hno i hi hir, zerosFrom_succ hrN hr0]

/-! ## `fat32fs_freeclusters` -/

/-- The clusters `l` are free again. -/
structure Freed (fs fs' : Fat32fs) (l : List Nat) : Prop where
  written : Written fs fs' l
  zero : ∀ c ∈ l, fs'.fat 0 c = 0
  free : fs'.free = fs.free + l.length
  startat : fs'.startat ≤ fs.startat
  startat_le : ∀ c ∈ l, fs'.startat ≤ c
  /-- The hint only moves to a cluster that is freed. -/
  startat_mem : fs'.startat = fs.startat ∨ fs'.startat ∈ l
  data : fs'.data = fs.data

/-- The state after the first cluster of a chain is freed. -/
def freeOne (fs : Fat32fs) (c : Nat) : Fat32fs :=
  { put fs c 0 with
    free := (fs.free + 1) % 2 ^ 32
    startat := if c < fs.startat then c else fs.startat }

theorem freeclustersLoop_cons {fuel : Nat} (hc : c < fs.entries) (hsize : fs.entries ≤ finalCluster) :
    freeclustersLoop (fuel + 1) fs c = freeclustersLoop fuel (freeOne fs c) (fs.fat 0 c) := by
  rw [freeclustersLoop, if_neg (by unfold IsFinalCluster; omega), next_eq hc]
  simp only [Option.bind_eq_bind, Option.bind_some, setnext_eq hc]
  rfl

theorem Freed.cons (hl : c ∉ l) (hcopies : 0 < fs.fatcount) (hfree : fs.free + 1 < 2 ^ 32)
    (h : Freed (freeOne fs c) fs' l) : Freed fs fs' (c :: l) where
  written := ((Written.put fs c 0).fsinfo _ _).trans h.written
  zero := by
    intro i hi
    rcases List.mem_cons.mp hi with rfl | hi
    · rw [h.written.fat i hl]
      exact put_fat_self hcopies
    · exact h.zero i hi
  free := by
    rw [h.free, List.length_cons]
    show (fs.free + 1) % 2 ^ 32 + l.length = _
    omega
  startat := by
    refine le_trans h.startat ?_
    show (if c < fs.startat then c else fs.startat) ≤ fs.startat
    split <;> omega
  startat_le := by
    intro i hi
    rcases List.mem_cons.mp hi with rfl | hi
    · refine le_trans h.startat ?_
      show (if i < fs.startat then i else fs.startat) ≤ i
      split <;> omega
    · exact h.startat_le i hi
  startat_mem := by
    rcases h.startat_mem with heq | hmem
    · rw [heq]
      show (if c < fs.startat then c else fs.startat) = _ ∨ (if c < fs.startat then c else _) ∈ _
      by_cases hlt : c < fs.startat
      · rw [if_pos hlt]
        exact Or.inr List.mem_cons_self
      · rw [if_neg hlt]
        exact Or.inl rfl
    · exact Or.inr (List.mem_cons_of_mem c hmem)
  data := h.data

theorem freeclustersLoop_spec {fuel e : Nat} (hcopies : 0 < fs.fatcount)
    (hsize : fs.entries ≤ finalCluster) (hp : Path (fs.fat 0) c l e) (he : IsFinalCluster e)
    (hin : ∀ x ∈ l, x < fs.entries) (hnd : l.Nodup) (hfree : fs.free + l.length < 2 ^ 32)
    (hfuel : l.length < fuel) :
    ∃ fs', freeclustersLoop fuel fs c = some fs' ∧ Freed fs fs' l := by
  induction l generalizing fs c fuel with
  | nil =>
    obtain rfl : c = e := hp
    obtain ⟨fuel, rfl⟩ : ∃ n, fuel = n + 1 := ⟨fuel - 1, by omega⟩
    refine ⟨fs, by rw [freeclustersLoop, if_pos he], .rfl', ?_, rfl, le_refl _, ?_, Or.inl rfl, rfl⟩
    · intro x hx
      simp at hx
    · intro x hx
      simp at hx
  | cons x l ih =>
    obtain ⟨rfl, hp⟩ := hp
    rw [List.length_cons] at hfree hfuel
    obtain ⟨hcl, hnd⟩ := List.nodup_cons.mp hnd
    obtain ⟨fuel, rfl⟩ : ∃ n, fuel = n + 1 := ⟨fuel - 1, by omega⟩
    rw [freeclustersLoop_cons (hin c List.mem_cons_self) hsize]
    have hp' : Path ((freeOne fs c).fat 0) (fs.fat 0 c) l e :=
      hp.congr fun i hi => put_fat_of_ne fun h => hcl (h ▸ hi)
    have hfree' : (freeOne fs c).free + l.length < 2 ^ 32 := by
      show (fs.free + 1) % 2 ^ 32 + l.length < 2 ^ 32
      omega
    have hcopies' : 0 < (freeOne fs c).fatcount := hcopies
    have hfuel' : l.length < fuel := by omega
    obtain ⟨fs', hrun, hfreed⟩ := ih hcopies' hsize hp'
      (fun i hi => hin i (List.mem_cons_of_mem c hi)) hnd hfree' hfuel'
    exact ⟨fs', hrun, hfreed.cons hcl hcopies (by omega)⟩

theorem length_le_entries (hnd : l.Nodup) (hin : ∀ x ∈ l, x < fs.entries) :
    l.length ≤ fs.entries := by
  rw [← List.toFinset_card_of_nodup hnd, ← Finset.card_range fs.entries]
  refine Finset.card_le_card fun x hx => ?_
  exact Finset.mem_range.mpr (hin x (List.mem_toFinset.mp hx))

/-- **A chain is given back.** -/
theorem freeclusters_spec {e : Nat} (h : Exact fs) (hp : Path (fs.fat 0) c l e)
    (he : IsFinalCluster e) (hin : ∀ x ∈ l, x < fs.entries) (hnd : l.Nodup) :
    ∃ fs', fs.freeclusters c = some fs' ∧ Freed fs fs' l := by
  have hlen := length_le_entries hnd hin
  have hfree := h.free_le
  have hsize := h.entries
  refine freeclustersLoop_spec h.copies h.entries hp he hin hnd ?_ ?_
  · unfold finalCluster at *
    omega
  · unfold turns
    omega

/-- `fsinfo` stays exact. -/
theorem Exact.freed (h : Exact fs) (hf : Freed fs fs' l) (hnd : l.Nodup)
    (hin : ∀ c ∈ l, 2 ≤ c ∧ c < fs.entries) (hused : ∀ c ∈ l, fs.fat 0 c ≠ 0) : Exact fs' where
  copies := by
    rw [hf.written.fatcount]
    exact h.copies
  mirrored := hf.written.mirrored h.copies h.mirrored
  entries := by
    rw [hf.written.entries]
    exact h.entries
  reserved := by
    intro c hc
    rw [hf.written.fat c fun hl => by have := (hin c hl).1; omega]
    exact h.reserved c hc
  free := by
    have hcount := holders_add_length (S := Finset.Ico 0 fs.entries) (d := 0)
      (f := fun c => some (fs'.fat 0 c)) (g := fun c => some (fs.fat 0 c)) hnd
      (fun c hc => Finset.mem_Ico.mpr ⟨Nat.zero_le c, (hin c hc).2⟩)
      (fun c hc => congrArg some (hf.zero c hc))
      (fun c hc heq => hused c hc (Option.some.inj heq))
      (fun c _ hc => congrArg some (hf.written.fat c hc).symm)
    rw [hf.free, h.free]
    unfold zerosFrom
    rw [hf.written.entries]
    exact hcount
  hint := by
    intro c hc hcN
    have hcl : c ∉ l := fun hl => by
      have := hf.startat_le c hl
      omega
    rw [hf.written.fat c hcl]
    rw [hf.written.entries] at hcN
    exact h.hint c (lt_of_lt_of_le hc hf.startat) hcN

end Lyre.Fat32
