import Lyre.Properties.Fat32

/-!
# Clusters are allocated

`fat32fs_allocateclusters` returns 0 and changes nothing (`allocateclusters_none`), or it returns
the first cluster of a new chain (`allocateclusters_some`). The loop links one zero entry to the
next one, so that behind it no zero entry is left before the last cluster (`Linked`): this is why
the hint is exact again.
-/

namespace Lyre.Fat32

open Infra Fat32fs

variable {fs fs' fs'' : Fat32fs} {c v count : Nat} {l m : List Nat}

/-- Clusters that were free are written with zeroes. -/
structure Zeroed (fs fs' : Fat32fs) (l : List Nat) : Prop where
  written : Written fs fs' l
  wasFree : ∀ c ∈ l, fs.fat 0 c = 0 ∧ c < fs.entries
  used : ∀ c ∈ l, fs'.fat 0 c ≠ 0
  zero : ∀ c ∈ l, ∀ i < fs.clustersize, fs'.data c i = 0

theorem Zeroed.single (hcopies : 0 < fs.fatcount) (hc : c < fs.entries) (hfat : fs.fat 0 c = 0)
    (hv : v ≠ 0) : Zeroed fs ((put fs c v).zero c) [c] where
  written := ((Written.put fs c v).trans (Written.zero _ c)).mono (by simp)
  wasFree := by
    intro i hi
    rw [List.mem_singleton.mp hi]
    exact ⟨hfat, hc⟩
  used := by
    intro i hi
    rw [List.mem_singleton.mp hi, zero_fat, put_fat_self hcopies]
    exact hv
  zero := by
    intro i hi j hj
    rw [List.mem_singleton.mp hi]
    exact zero_data_self hj

theorem Zeroed.append (h : Zeroed fs fs' l) (h' : Zeroed fs' fs'' m) (hdisj : ∀ c ∈ l, c ∉ m) :
    Zeroed fs fs'' (l ++ m) where
  written := h.written.trans h'.written
  wasFree := by
    intro c hc
    rcases List.mem_append.mp hc with hl | hm
    · exact h.wasFree c hl
    · by_cases hl : c ∈ l
      · exact h.wasFree c hl
      · have hfree := h'.wasFree c hm
        rw [h.written.fat c hl, h.written.entries] at hfree
        exact hfree
  used := by
    intro c hc
    rcases List.mem_append.mp hc with hl | hm
    · rw [h'.written.fat c (hdisj c hl)]
      exact h.used c hl
    · exact h'.used c hm
  zero := by
    intro c hc i hi
    rcases List.mem_append.mp hc with hl | hm
    · rw [h'.written.data c (hdisj c hl)]
      exact h.zero c hl i hi
    · exact h'.zero c hm i (by rw [h.written.clustersize]; exact hi)

/-- What the loop has done when it is at `last`: it has linked `l`, and there is no zero entry left
before `last`. -/
structure Linked (fs fs' : Fat32fs) (c last : Nat) (l : List Nat) : Prop where
  path : Path (fs'.fat 0) c l last
  zeroed : Zeroed fs fs' l
  inside : ∀ x ∈ l, c ≤ x ∧ x < last
  le_last : c ≤ last
  lastFree : fs.fat 0 last = 0 ∧ last < fs.entries
  full : ∀ i, c ≤ i → i < last → fs'.fat 0 i ≠ 0
  free : fs'.free = fs.free

theorem Linked.cons {r last : Nat} (hcopies : 0 < fs.fatcount) (hc : c < fs.entries)
    (hfat : fs.fat 0 c = 0) (hr : c < r) (hno : ∀ i, c < i → i < r → fs.fat 0 i ≠ 0)
    (h : Linked ((put fs c r).zero c) fs' r last l) : Linked fs fs' c last (c :: l) := by
  have hcl : c ∉ l := fun hmem => by
    have := (h.inside c hmem).1
    omega
  have hle := h.le_last
  have hfs' : ∀ i, i < r → fs'.fat 0 i = (put fs c r).fat 0 i := fun i hi =>
    h.zeroed.written.fat i fun hmem => by
      have := (h.inside i hmem).1
      omega
  have hlink : fs'.fat 0 c = r := by
    rw [hfs' c hr, put_fat_self hcopies]
  refine ⟨⟨rfl, ?_⟩, ?_, ?_, by omega, ?_, ?_, h.free⟩
  · rw [hlink]
    exact h.path
  · refine (Zeroed.single hcopies hc hfat (by omega)).append h.zeroed fun x hx => ?_
    rw [List.mem_singleton.mp hx]
    exact hcl
  · intro x hx
    rcases List.mem_cons.mp hx with rfl | hx
    · exact ⟨le_refl x, by omega⟩
    · have := h.inside x hx
      omega
  · have hlast := h.lastFree
    rw [zero_fat, put_fat_of_ne (by omega)] at hlast
    exact hlast
  · intro i hi hil
    by_cases hir : r ≤ i
    · exact h.full i hir hil
    · rcases Nat.eq_or_lt_of_le hi with rfl | hci
      · rw [hlink]
        omega
      · rw [hfs' i (by omega), put_fat_of_ne (by omega)]
        exact hno i hci (by omega)

theorem allocateLoop_spec (hcopies : 0 < fs.fatcount) (hsize : fs.entries ≤ finalCluster)
    (hc : c < fs.entries) (hfat : fs.fat 0 c = 0) (hcount : count ≤ zerosFrom fs (c + 1)) :
    ∃ fs' last l, allocateLoop count fs c = some (fs', last, true) ∧ l.length = count
      ∧ Linked fs fs' c last l := by
  induction count generalizing fs c with
  | zero =>
    refine ⟨fs, c, [], rfl, rfl, rfl, ?_, by simp, le_refl c, ⟨hfat, hc⟩, ?_, rfl⟩
    · exact ⟨.rfl', by simp, by simp, by simp⟩
    · intro i hi hi'
      omega
  | succ count ih =>
    have hmod : (c + 1) % 2 ^ 32 = c + 1 := by
      unfold finalCluster at hsize
      omega
    obtain ⟨r, hr, hcr, hrN, hr0, hzeros, hno⟩ :=
      nextfree_spec (by omega : c + 1 ≠ 0) hsize (by omega : 0 < zerosFrom fs (c + 1))
    have hrest : zerosFrom ((put fs c r).zero c) (r + 1) = zerosFrom fs (r + 1) :=
      zerosFrom_congr rfl fun i hi => put_fat_of_ne (by omega)
    have hcount' : count ≤ zerosFrom ((put fs c r).zero c) (r + 1) := by omega
    have hr0' : ((put fs c r).zero c).fat 0 r = 0 := by
      rw [zero_fat, put_fat_of_ne (by omega)]
      exact hr0
    have hcopies' : 0 < ((put fs c r).zero c).fatcount := hcopies
    obtain ⟨fs', last, l, hrun, hlen, hlinked⟩ := ih hcopies' hsize hrN hr0' hcount'
    refine ⟨fs', last, c :: l, ?_, by rw [List.length_cons, hlen], ?_⟩
    · rw [allocateLoop, hmod, hr]
      simp only [Option.bind_eq_bind, Option.bind_some, if_neg (by omega : ¬ r = 0),
        setnext_eq hc]
      exact hrun
    · exact hlinked.cons hcopies hc hfat (by omega) fun i hi hir => hno i (by omega) hir

/-- A new chain. -/
structure Allocated (fs fs' : Fat32fs) (ret count : Nat) (l : List Nat) : Prop where
  path : Path (fs'.fat 0) ret l finalCluster
  length : l.length = count
  zeroed : Zeroed fs fs' l
  exact : Exact fs'

theorem Linked.nodup {last : Nat} (h : Linked fs fs' c last l) : (l ++ [last]).Nodup := by
  have hnd : l.Nodup := by
    have hbelow : ∀ x ∈ l, ¬ last ≤ x := fun x hx => by
      have := (h.inside x hx).2
      omega
    exact h.path.nodup (le_refl last) hbelow
  rw [← List.concat_eq_append]
  refine hnd.concat fun hmem => ?_
  have := (h.inside last hmem).2
  omega

/-- What `fat32fs_allocateclusters` does behind its loop. -/
def close (fs : Fat32fs) (last count : Nat) : Fat32fs :=
  { put (fs.zero last) last finalCluster with free := fs.free - count, startat := last }

theorem Linked.not_mem {last : Nat} (h : Linked fs fs' c last l) : last ∉ l := fun hmem => by
  have := (h.inside last hmem).2
  omega

theorem Linked.close_zeroed {last : Nat} (hcopies : 0 < fs.fatcount) (h : Linked fs fs' c last l) :
    Zeroed fs (Fat32.close fs' last count) (l ++ [last]) := by
  have hcopies' : 0 < fs'.fatcount := by
    rw [h.zeroed.written.fatcount]
    exact hcopies
  have hlast : fs'.fat 0 last = 0 := by
    rw [h.zeroed.written.fat last h.not_mem]
    exact h.lastFree.1
  have hone : Zeroed fs' ((put fs' last finalCluster).zero last) [last] :=
    .single hcopies' (by rw [h.zeroed.written.entries]; exact h.lastFree.2) hlast (by decide)
  have hall := h.zeroed.append hone fun x hx hmem => by
    rw [List.mem_singleton.mp hmem] at hx
    exact h.not_mem hx
  exact ⟨hall.written.fsinfo _ _, hall.wasFree, hall.used, hall.zero⟩

theorem Linked.close_path {last : Nat} (hcopies : 0 < fs.fatcount) (h : Linked fs fs' c last l) :
    Path ((Fat32.close fs' last count).fat 0) c (l ++ [last]) finalCluster := by
  have hcopies' : 0 < fs'.fatcount := by
    rw [h.zeroed.written.fatcount]
    exact hcopies
  have hpath : Path ((Fat32.close fs' last count).fat 0) c l last :=
    h.path.congr fun x hx => put_fat_of_ne fun heq => h.not_mem (heq ▸ hx)
  have hend : (put (fs'.zero last) last finalCluster).fat 0 last = finalCluster :=
    put_fat_self hcopies'
  exact hpath.append ⟨rfl, hend⟩

theorem Linked.close {last : Nat} (h : Exact fs) (hl : Linked fs fs' c last l)
    (hlen : l.length + 1 = count) (hno : ∀ i < c, i < fs.entries → fs.fat 0 i ≠ 0) :
    Allocated fs (close fs' last count) c count (l ++ [last]) := by
  have hz : Zeroed fs (Fat32.close fs' last count) (l ++ [last]) := hl.close_zeroed h.copies
  have hcount := holders_add_length (S := Finset.Ico 0 fs.entries) (d := 0)
    (f := fun i => some (fs.fat 0 i)) (g := fun i => some ((Fat32.close fs' last count).fat 0 i))
    hl.nodup (fun i hi => Finset.mem_Ico.mpr ⟨Nat.zero_le i, (hz.wasFree i hi).2⟩)
    (fun i hi => congrArg some (hz.wasFree i hi).1)
    (fun i hi heq => hz.used i hi (Option.some.inj heq))
    (fun i _ hi => congrArg some (hz.written.fat i hi))
  refine ⟨hl.close_path h.copies, by rw [List.length_append, List.length_singleton, hlen], hz, ?_⟩
  · have hcopies : 0 < (Fat32.close fs' last count).fatcount := by
      rw [hz.written.fatcount]
      exact h.copies
    refine ⟨hcopies, hz.written.mirrored h.copies h.mirrored, ?_, ?_, ?_, ?_⟩
    · rw [hz.written.entries]
      exact h.entries
    · intro i hi
      rw [hz.written.fat i fun hmem => by
        have := h.two_le (hz.wasFree i hmem).1
        omega]
      exact h.reserved i hi
    · show fs'.free - count = _
      rw [List.length_append, List.length_singleton, hlen] at hcount
      rw [hl.free, h.free]
      unfold zerosFrom
      rw [hz.written.entries]
      omega
    · intro i hi hiN
      rw [hz.written.entries] at hiN
      have hi' : i < last := hi
      have heq : (Fat32.close fs' last count).fat 0 i = fs'.fat 0 i := put_fat_of_ne (by omega)
      rw [heq]
      by_cases hic : i < c
      · rw [hl.zeroed.written.fat i fun hmem => by
          have := (hl.inside i hmem).1
          omega]
        exact hno i hic hiN
      · exact hl.full i (by omega) hi'

theorem allocateclusters_none {memory : Bool} (h : Exact fs) (hcount : 0 < count)
    (hno : fs.free < count ∨ fs.startat = 0 ∨ memory = false) :
    fs.allocateclusters count memory = some (fs, 0) := by
  unfold allocateclusters
  by_cases hfree : fs.free < count
  · rw [if_pos hfree]
  rw [if_neg hfree]
  by_cases hstart : fs.startat = 0
  · have hnext : fs.nextfree fs.startat = some 0 := by
      unfold nextfree turns
      rw [nextfreeLoop, if_pos hstart]
    rw [hnext, Option.bind_eq_bind, Option.bind_some, if_pos rfl]
  have hmem : memory = false := by
    rcases hno with hno | hno | hno
    · exact absurd hno hfree
    · exact absurd hno hstart
    · exact hno
  have hpos : 0 < zerosFrom fs fs.startat := by
    have hskip := zerosFrom_skip (Nat.zero_le fs.startat) fun i _ hi hiN => h.hint i hi hiN
    have := h.free
    omega
  obtain ⟨r, hr, -⟩ := nextfree_spec hstart h.entries hpos
  rw [hr, Option.bind_eq_bind, Option.bind_some, if_pos hmem]
  split <;> rfl

/-- **Clusters are taken.** -/
theorem allocateclusters_some {memory : Bool} (h : Exact fs) (hcount : 0 < count)
    (hcount' : count < 2 ^ 64) (hfree : ¬ fs.free < count) (hstart : fs.startat ≠ 0)
    (hmem : memory = true) :
    ∃ fs' ret l, fs.allocateclusters count memory = some (fs', ret) ∧ ret ≠ 0
      ∧ Allocated fs fs' ret count l := by
  have hskip := zerosFrom_skip (Nat.zero_le fs.startat) fun i _ hi hiN => h.hint i hi hiN
  have hzero := h.free
  obtain ⟨r, hr, hcr, hrN, hr0, hzeros, hno⟩ :=
    nextfree_spec hstart h.entries (by omega : 0 < zerosFrom fs fs.startat)
  have hr2 : 2 ≤ r := h.two_le hr0
  have hturns : u64 (count + (2 ^ 64 - 1)) = count - 1 := by
    unfold u64
    omega
  obtain ⟨fs₁, last, l, hrun, hlen, hlinked⟩ :=
    allocateLoop_spec h.copies h.entries hrN hr0 (by omega : count - 1 ≤ zerosFrom fs (r + 1))
  have hlastN : last < (fs₁.zero last).entries := by
    rw [zero_entries, hlinked.zeroed.written.entries]
    exact hlinked.lastFree.2
  refine ⟨close fs₁ last count, r, l ++ [last], ?_, by omega, ?_⟩
  · unfold allocateclusters
    rw [if_neg hfree, hr, Option.bind_eq_bind, Option.bind_some, if_neg (by omega), hmem,
      if_neg (by decide), hturns, hrun]
    simp only [Option.bind_eq_bind, Option.bind_some, setnext_eq hlastN, if_true]
    rfl
  · refine hlinked.close h (by omega) fun i hi hiN => ?_
    by_cases his : i < fs.startat
    · exact h.hint i his hiN
    · exact hno i (by omega) hi

end Lyre.Fat32
