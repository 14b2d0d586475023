import Lyre.Properties.Ext2Dir
import Lyre.Properties.FatChains

/-!
# Which loops over the disk end

The loops go where the disk leads them. Over the records of an ext2 directory, `ext2fs_populate` and
`ext2fs_removedirentry` stay at a record of size 0, and `ext2fs_createdirentry` does not, as such a
record has room for it. Through a FAT, `fat32fs_getchainsize` follows a cycle for ever.
`fat32fs_freeclusters` clears the entries that it passes: back at one of them it goes to entry 0, and
it ends if the chain from there ends.
-/

namespace Lyre

/-! ## Records of an ext2 directory -/

namespace Ext2

open Infra.Bytes Ext2fs

variable {fs : Ext2fs} {buf : Mem} {linkbuffer : Nat → Mem} {size inodeidx need off i fuel left : Nat}
  {preventry : Option Nat}

/-- The loop of `ext2fs_populate` returns if as many turns as there are records bring it to the end. -/
theorem populateLoop_isSome : (fs.populateLoop buf size linkbuffer fuel i).isSome ↔
    ∃ n < fuel, size ≤ walk (Direntry.entsize buf) n i := by
  induction fuel generalizing i with
  | zero =>
    constructor
    · intro h
      exact absurd h Bool.false_ne_true
    · rintro ⟨n, hn, -⟩
      exact absurd hn (Nat.not_lt_zero n)
  | succ fuel ih =>
    rw [populateLoop]
    split_ifs with hi
    · have hbind : (do
          let children ← fs.populateLoop buf size linkbuffer fuel (i + Direntry.entsize buf i)
          some ((fs.populateEntry buf (linkbuffer i) i).toList ++ children)).isSome =
          (fs.populateLoop buf size linkbuffer fuel (i + Direntry.entsize buf i)).isSome := by
        cases fs.populateLoop buf size linkbuffer fuel (i + Direntry.entsize buf i) <;> rfl
      rw [hbind, ih]
      constructor
      · rintro ⟨n, hn, hle⟩
        exact ⟨n + 1, Nat.succ_lt_succ hn, hle⟩
      · rintro ⟨n, hn, hle⟩
        cases n with
        | zero => exact absurd hi (Nat.not_lt.mpr hle)
        | succ n => exact ⟨n, Nat.lt_of_succ_lt_succ hn, hle⟩
    · exact ⟨fun _ => ⟨0, Nat.zero_lt_succ fuel, Nat.le_of_not_lt hi⟩, fun _ => rfl⟩

/-- The loop of `ext2fs_removedirentry` returns at the end or at a record of the inode. -/
theorem removeLoop_isSome : (removeLoop buf size inodeidx fuel preventry off).isSome ↔
    ∃ n < fuel, size ≤ walk (Direntry.entsize buf) n off ∨
      Direntry.inodeidx buf (walk (Direntry.entsize buf) n off) = inodeidx := by
  induction fuel generalizing off preventry with
  | zero =>
    constructor
    · intro h
      exact absurd h Bool.false_ne_true
    · rintro ⟨n, hn, -⟩
      exact absurd hn (Nat.not_lt_zero n)
  | succ fuel ih =>
    rw [removeLoop]
    split_ifs with hoff hfound
    · exact ⟨fun _ => ⟨0, Nat.zero_lt_succ fuel, .inr hfound⟩, fun _ => rfl⟩
    · rw [ih]
      constructor
      · rintro ⟨n, hn, hstop⟩
        exact ⟨n + 1, Nat.succ_lt_succ hn, hstop⟩
      · rintro ⟨n, hn, hstop⟩
        cases n with
        | zero =>
          rcases hstop with hle | heq
          · exact absurd hoff (Nat.not_lt.mpr hle)
          · exact absurd heq hfound
        | succ n => exact ⟨n, Nat.lt_of_succ_lt_succ hn, hstop⟩
    · exact ⟨fun _ => ⟨0, Nat.zero_lt_succ fuel, .inl (Nat.le_of_not_lt hoff)⟩, fun _ => rfl⟩

/-- The loop of `ext2fs_createdirentry` is left by one of its two ends, however many turns it may
have. -/
theorem slackLoop_ends (hneed : need + 2 ^ 9 ≤ 2 ^ 64) (hleft : size ≤ off + left) :
    ((slackLoop buf size need left off).2 = true ∧ (slackLoop buf size need left off).1 < size) ∨
      size ≤ (slackLoop buf size need left off).1 := by
  induction left generalizing off with
  | zero => exact .inr hleft
  | succ left ih =>
    rw [slackLoop]
    split_ifs with hoff hroom
    · exact .inl ⟨rfl, hoff⟩
    · have hpos := entsize_of_full hneed (Nat.lt_of_not_le hroom)
      exact ih (by omega)
    · exact .inr (Nat.le_of_not_lt hoff)

/-- No record of size 0 comes before the loop stops. -/
def Ext2fs.Advances (buf : Mem) (stop : Nat → Prop) : Prop :=
  ∀ n, (∀ k ≤ n, ¬ stop (walk (Direntry.entsize buf) k 0)) →
    0 < Direntry.entsize buf (walk (Direntry.entsize buf) n 0)

theorem populateLoop_returns_iff : (∃ fuel, (fs.populateLoop buf size linkbuffer fuel 0).isSome) ↔
    Ext2fs.Advances buf (size ≤ ·) := by
  refine Iff.trans ?_ (walk_stops_iff fun _ hx => hx)
  simp only [populateLoop_isSome]
  constructor
  · rintro ⟨fuel, n, -, hle⟩
    exact ⟨n, hle⟩
  · rintro ⟨n, hle⟩
    exact ⟨n + 1, n, Nat.lt_succ_self n, hle⟩

theorem removeLoop_returns_iff : (∃ fuel, (removeLoop buf size inodeidx fuel none 0).isSome) ↔
    Ext2fs.Advances buf fun off => size ≤ off ∨ Direntry.inodeidx buf off = inodeidx := by
  have hstops := @walk_stops_iff (Direntry.entsize buf)
    (fun off => size ≤ off ∨ Direntry.inodeidx buf off = inodeidx) 0 size fun _ hx => .inl hx
  refine Iff.trans ?_ hstops
  simp only [removeLoop_isSome]
  constructor
  · rintro ⟨fuel, n, -, hstop⟩
    exact ⟨n, hstop⟩
  · rintro ⟨n, hstop⟩
    exact ⟨n + 1, n, Nat.lt_succ_self n, hstop⟩

end Ext2

/-! ## Chains of a FAT -/

namespace Fat32

open Infra Fat32fs

variable {fs fs' : Fat32fs} {c d e count fuel : Nat} {l : List Nat}

/-! ### `fat32fs_getchainsize` and `fat32fs_skip` -/

theorem getchainsizeLoop_returns_iff (fs : Fat32fs) (c count : Nat) :
    (∃ fuel n, getchainsizeLoop fs fuel c count = some n) ↔
      Ends (fs.fat 0) IsFinalCluster fs.entries c := by
  constructor
  · rintro ⟨fuel, n, h⟩
    induction fuel generalizing c count with
    | zero => exact absurd h (by simp [getchainsizeLoop])
    | succ fuel ih =>
      rw [getchainsizeLoop] at h
      split_ifs at h with hc
      · exact ⟨[], c, rfl, by simp, List.nodup_nil, hc⟩
      · obtain ⟨next, hnext, h⟩ := Option.bind_eq_some_iff.mp h
        rw [Fat32fs.next] at hnext
        split_ifs at hnext with hlt
        obtain rfl := Option.some.inj hnext
        exact (ends_next hc hlt).mpr (ih _ _ h)
  · rintro ⟨l, e, hp, hin, -, he⟩
    exact ⟨l.length + 1, _, getchainsizeLoop_path hp he hin (Nat.lt_succ_self _)⟩

/-- `fat32fs_skip` ends anyway; it has a result if the chain stays in the FAT. -/
theorem skip_returns (hc : ¬ IsFinalCluster c) (h : ¬ Leaves (fs.fat 0) IsFinalCluster fs.entries c) :
    ∃ r, fs.skip c count = some r := by
  induction count generalizing c with
  | zero => exact ⟨(c, false), rfl⟩
  | succ count ih =>
    have hlt : c < fs.entries := Nat.lt_of_not_le fun hle =>
      h ⟨[], c, rfl, by simp, hc, hle⟩
    rw [skip, next_eq hlt, Option.bind_eq_bind, Option.bind_some]
    split_ifs with hfinal
    · exact ⟨_, rfl⟩
    · refine ih hfinal ?_
      rintro ⟨l, e, hp, hin, he, hle⟩
      refine h ⟨c :: l, e, ⟨rfl, hp⟩, fun x hx => ?_, he, hle⟩
      rcases List.mem_cons.mp hx with rfl | hx
      · exact ⟨hc, hlt⟩
      · exact hin x hx

/-! ### `fat32fs_freeclusters` -/

theorem freeclustersLoop_turn (hc : ¬ IsFinalCluster c) (hlt : c < fs.entries) :
    freeclustersLoop (fuel + 1) fs c = freeclustersLoop fuel (freeOne fs c) (fs.fat 0 c) := by
  rw [freeclustersLoop, if_neg hc, next_eq hlt]
  simp only [Option.bind_eq_bind, Option.bind_some, setnext_eq hlt]
  rfl

theorem freeOne_fat (fs : Fat32fs) (c x : Nat) :
    (freeOne fs c).fat 0 x = if 0 < fs.fatcount ∧ x = c then 0 else fs.fat 0 x := put_fat

theorem freeOne_fat_of_ne (h : d ≠ c) : (freeOne fs c).fat 0 d = fs.fat 0 d := put_fat_of_ne h

theorem freeclustersLoop_walk (hp : Path (fs.fat 0) c l d)
    (hin : ∀ x ∈ l, ¬ IsFinalCluster x ∧ x < fs.entries) (hnd : l.Nodup) :
    ∃ fs', freeclustersLoop (l.length + fuel) fs c = freeclustersLoop fuel fs' d ∧
      fs'.entries = fs.entries ∧ fs'.fatcount = fs.fatcount ∧
      (∀ x, x ∉ l → fs'.fat 0 x = fs.fat 0 x) ∧ (0 < fs.fatcount → ∀ x ∈ l, fs'.fat 0 x = 0) := by
  induction l generalizing c fs with
  | nil =>
    obtain rfl : c = d := hp
    refine ⟨fs, by rw [List.length_nil, Nat.zero_add], rfl, rfl, fun _ _ => rfl, fun _ x hx => ?_⟩
    exact absurd hx List.not_mem_nil
  | cons x l ih =>
    obtain ⟨rfl, hp⟩ := hp
    obtain ⟨hcl, hnd⟩ := List.nodup_cons.mp hnd
    obtain ⟨hstop, hlt⟩ := hin c List.mem_cons_self
    have hp' : Path ((freeOne fs c).fat 0) (fs.fat 0 c) l d :=
      hp.congr fun y hy => freeOne_fat_of_ne fun heq => hcl (heq ▸ hy)
    obtain ⟨fs', hrun, hentries, hcopies, hsame, hzero⟩ :=
      ih hp' (fun y hy => hin y (List.mem_cons_of_mem c hy)) hnd
    refine ⟨fs', ?_, hentries, hcopies, fun y hy => ?_, fun hpos y hy => ?_⟩
    · rw [List.length_cons, Nat.add_right_comm, freeclustersLoop_turn hstop hlt, hrun]
    · rw [List.mem_cons, not_or] at hy
      rw [hsame y hy.2, freeOne_fat_of_ne hy.1]
    · rcases List.mem_cons.mp hy with rfl | hy
      · rw [hsame y hcl, freeOne_fat, if_pos ⟨hpos, rfl⟩]
      · exact hzero hpos y hy

theorem freeclustersLoop_ends (h : Ends (fs.fat 0) IsFinalCluster fs.entries c) :
    ∃ fuel fs', freeclustersLoop fuel fs c = some fs' := by
  obtain ⟨l, e, hp, hin, hnd, he⟩ := h
  obtain ⟨fs', hrun, -⟩ := @freeclustersLoop_walk fs _ _ 1 l hp hin hnd
  exact ⟨l.length + 1, fs', by rw [hrun, freeclustersLoop, if_pos he]⟩

/-- A walk on which an entry has been cleared is a walk if it does not pass that entry. -/
theorem freeOne_path (hc : c ∉ l) :
    Path ((freeOne fs c).fat 0) d l e ↔ Path (fs.fat 0) d l e := by
  have hsame : ∀ x ∈ l, (freeOne fs c).fat 0 x = fs.fat 0 x := fun x hx =>
    freeOne_fat_of_ne fun heq => hc (heq ▸ hx)
  exact ⟨fun h => h.congr fun x hx => (hsame x hx).symm, fun h => h.congr hsame⟩

/-- What ends, comes back to an entry that was cleared or leaves the FAT behind one turn. -/
theorem freeOne_cases (hc : ¬ IsFinalCluster c) (hlt : c < fs.entries)
    (h : Ends ((freeOne fs c).fat 0) IsFinalCluster fs.entries d) (hd : fs.fat 0 c = d) :
    Ends (fs.fat 0) IsFinalCluster fs.entries c ∨
      0 < fs.fatcount ∧ Cyclic (fs.fat 0) IsFinalCluster fs.entries c ∧
        Ends (fs.fat 0) IsFinalCluster fs.entries 0 := by
  obtain ⟨l, e, hp, hin, hnd, he⟩ := h
  by_cases hmem : c ∈ l
  swap
  · refine .inl ((ends_next hc hlt).mpr ?_)
    rw [hd]
    exact ⟨l, e, (freeOne_path hmem).mp hp, hin, hnd, he⟩
  · -- up to `c` the walk is one through the FAT as it was, and behind `c` as well
    obtain ⟨l₁, l₂, rfl⟩ := List.append_of_mem hmem
    obtain ⟨x, hp₁, hx, hp₂⟩ := path_append.mp hp
    obtain rfl : x = c := hx
    obtain ⟨hnd₁, hnd₂, hdisj⟩ := List.nodup_append.mp hnd
    have hout₁ : x ∉ l₁ := fun h => hdisj x h x List.mem_cons_self rfl
    have hout₂ := (List.nodup_cons.mp hnd₂).1
    have hback := (freeOne_path hout₁).mp hp₁
    have hrest := (freeOne_path hout₂).mp hp₂
    have hin₂ : ∀ y ∈ l₂, ¬ IsFinalCluster y ∧ y < fs.entries := fun y hy =>
      hin y (List.mem_append_right _ (List.mem_cons_of_mem _ hy))
    have hends : Ends (fs.fat 0) IsFinalCluster fs.entries ((freeOne fs x).fat 0 x) :=
      ⟨l₂, e, hrest, hin₂, (List.nodup_cons.mp hnd₂).2, he⟩
    by_cases hcopies : 0 < fs.fatcount
    · rw [freeOne_fat, if_pos ⟨hcopies, rfl⟩] at hends
      refine .inr ⟨hcopies, ⟨x :: l₁, x, ⟨rfl, ?_⟩, fun y hy => ?_, ?_, List.mem_cons_self⟩, hends⟩
      · rw [hd]
        exact hback
      · rcases List.mem_cons.mp hy with rfl | hy
        · exact ⟨hc, hlt⟩
        · exact hin y (List.mem_append_left _ hy)
      · exact List.nodup_cons.mpr ⟨hout₁, hnd₁⟩
    · rw [freeOne_fat, if_neg fun h => hcopies h.1] at hends
      exact .inl ((ends_next hc hlt).mpr hends)

theorem freeOne_leaves (hc : ¬ IsFinalCluster c) (hlt : c < fs.entries) (hd : fs.fat 0 c = d)
    (h : Leaves (fs.fat 0) IsFinalCluster fs.entries c) :
    Leaves ((freeOne fs c).fat 0) IsFinalCluster fs.entries d := by
  obtain ⟨l, e, hp, hin, he, hle⟩ := h
  -- from the last time that it is at `c`
  induction hlen : l.length using Nat.strong_induction_on generalizing l with
  | _ n ih =>
    cases l with
    | nil =>
      obtain rfl : c = e := hp
      exact absurd hlt (Nat.not_lt.mpr hle)
    | cons x l =>
      obtain ⟨rfl, hp⟩ := hp
      have hin' : ∀ y ∈ l, ¬ IsFinalCluster y ∧ y < fs.entries := fun y hy =>
        hin y (List.mem_cons_of_mem _ hy)
      by_cases hmem : c ∈ l
      · obtain ⟨l₁, l₂, rfl⟩ := List.append_of_mem hmem
        obtain ⟨y, -, hy, hp₂⟩ := path_append.mp hp
        obtain rfl : y = c := hy
        refine ih _ ?_ (y :: l₂) ⟨rfl, hp₂⟩ (fun z hz => hin' z (List.mem_append_right _ hz)) rfl
        simp only [← hlen, List.length_cons, List.length_append]
        omega
      · rw [hd] at hp
        exact ⟨l, e, (freeOne_path hmem).mpr hp, hin', he, hle⟩

/-- **`fat32fs_freeclusters` returns** if the chain ends, or if it comes back and the chain of entry 0
ends, as an entry that was cleared leads to entry 0. -/
theorem freeclustersLoop_returns_iff (fs : Fat32fs) (c : Nat) :
    (∃ fuel fs', freeclustersLoop fuel fs c = some fs') ↔
      Ends (fs.fat 0) IsFinalCluster fs.entries c ∨
        0 < fs.fatcount ∧ Cyclic (fs.fat 0) IsFinalCluster fs.entries c ∧
          Ends (fs.fat 0) IsFinalCluster fs.entries 0 := by
  constructor
  · rintro ⟨fuel, fs', h⟩
    induction fuel generalizing fs c with
    | zero => exact absurd h (by simp [freeclustersLoop])
    | succ fuel ih =>
      by_cases hc : IsFinalCluster c
      · exact .inl ⟨[], c, rfl, by simp, List.nodup_nil, hc⟩
      have hlt : c < fs.entries := by
        by_contra hge
        rw [freeclustersLoop, if_neg hc, Fat32fs.next, if_neg hge] at h
        exact absurd h (by simp)
      rw [freeclustersLoop_turn hc hlt] at h
      rcases ih _ _ h with hends | ⟨hcopies, hcyclic, hzero⟩
      · exact freeOne_cases hc hlt hends rfl
      · -- the walk from 0 does not pass `c`, which leads back to 0
        obtain ⟨l, e, hp, hin, hnd, he⟩ := hzero
        have hout : c ∉ l := by
          intro hmem
          obtain ⟨l₁, l₂, rfl⟩ := List.append_of_mem hmem
          obtain ⟨x, -, hx, hp₂⟩ := path_append.mp hp
          obtain rfl : x = c := hx
          rw [freeOne_fat, if_pos ⟨hcopies, rfl⟩] at hp₂
          have hlist := (hp₂.unique he (fun y hy => (hin y (List.mem_append_right _
            (List.mem_cons_of_mem _ hy))).1) hp he fun y hy => (hin y hy).1).1
          have hlen := congrArg List.length hlist
          simp only [List.length_append, List.length_cons] at hlen
          omega
        have hzero : Ends (fs.fat 0) IsFinalCluster fs.entries 0 :=
          ⟨l, e, (freeOne_path hout).mp hp, hin, hnd, he⟩
        rcases walk_cases (fs.fat 0) IsFinalCluster fs.entries c with hends | hleaves | hcyc
        · exact .inl hends
        · exact absurd (freeOne_leaves hc hlt rfl hleaves) hcyclic.not_leaves
        · exact .inr ⟨hcopies, hcyc, hzero⟩
  · rintro (hends | ⟨hcopies, ⟨l, e, hp, hin, hnd, he⟩, hzero⟩)
    · exact freeclustersLoop_ends hends
    · have hcycle : ∀ x ∈ l, ¬ Ends (fs.fat 0) IsFinalCluster fs.entries x := fun x hx hends =>
        Cyclic.not_ends ⟨l, e, hp, hin, hnd, he⟩ ((hp.ends_mem hin hx).mpr hends)
      obtain ⟨m, e', hpm, hinm, hndm, he'⟩ := hzero
      have hdisj : ∀ x ∈ m, x ∉ l := fun x hx hl =>
        hcycle x hl ((hpm.ends_mem hinm hx).mp ⟨m, e', hpm, hinm, hndm, he'⟩)
      obtain ⟨fs₁, hrun, hentries, hcopies₁, hsame, hcleared⟩ :=
        @freeclustersLoop_walk fs _ _ (m.length + 1 + 1) l hp hin hnd
      have hpm₁ : Path ((freeOne fs₁ e).fat 0) 0 m e' := hpm.congr fun x hx => by
        have hne : x ≠ e := fun heq => hdisj x hx (by rwa [heq])
        rw [freeOne_fat_of_ne hne, hsame x (hdisj x hx)]
      obtain ⟨fs₂, hrun₂, -⟩ := @freeclustersLoop_walk (freeOne fs₁ e) _ _ 1 m hpm₁
        (fun x hx => by
          rw [show (freeOne fs₁ e).entries = fs₁.entries from rfl, hentries]
          exact hinm x hx) hndm
      refine ⟨_, fs₂, hrun.trans ?_⟩
      rw [freeclustersLoop_turn (hin e he).1 (by rw [hentries]; exact (hin e he).2),
        hcleared hcopies e he, hrun₂, freeclustersLoop, if_pos he']

end Fat32

/-! ## The scans -/

section

open Infra Infra.Bytes Ext2 Fat32

/-- **Which scans of the disk return**, for every content of a directory (`buf`) and of a FAT: the ones
of `ext2fs_populate` and `ext2fs_removedirentry` if no record of size 0 comes before their end, the one
of `ext2fs_createdirentry` always, and the loops over a chain if it does not come back, where
`fat32fs_freeclusters` has a second way. A chain that goes to an entry behind the FAT is not followed
any further here. -/
theorem scans_return_iff (fs : Ext2fs) (buf : Mem) (size inodeidx : Nat) (linkbuffer : Nat → Mem)
    (name : List (BitVec 8)) (hname : name.length < 2 ^ 63) (vol : Fat32fs) (c count : Nat) :
    ((∃ fuel, (fs.populateLoop buf size linkbuffer fuel 0).isSome) ↔
      Ext2fs.Advances buf (size ≤ ·)) ∧
    ((∃ fuel, (Ext2fs.removeLoop buf size inodeidx fuel none 0).isSome) ↔
      Ext2fs.Advances buf fun off => size ≤ off ∨ Direntry.inodeidx buf off = inodeidx) ∧
    (((slackLoop buf size (required name) size 0).2 = true ∧
        (slackLoop buf size (required name) size 0).1 < size) ∨
      size ≤ (slackLoop buf size (required name) size 0).1) ∧
    (¬ Leaves (vol.fat 0) IsFinalCluster vol.entries c →
      ((∃ fuel n, Fat32fs.getchainsizeLoop vol fuel c 0 = some n) ↔
        ¬ Cyclic (vol.fat 0) IsFinalCluster vol.entries c) ∧
      (¬ IsFinalCluster c → ∃ r, vol.skip c count = some r) ∧
      ((∃ fuel vol', Fat32fs.freeclustersLoop fuel vol c = some vol') ↔
        ¬ Cyclic (vol.fat 0) IsFinalCluster vol.entries c ∨
          0 < vol.fatcount ∧ ¬ Leaves (vol.fat 0) IsFinalCluster vol.entries 0 ∧
            ¬ Cyclic (vol.fat 0) IsFinalCluster vol.entries 0)) := by
  have hneed : required name + 2 ^ 9 ≤ 2 ^ 64 := by
    unfold required Direntry.size
    omega
  refine ⟨populateLoop_returns_iff, removeLoop_returns_iff, slackLoop_ends hneed (by omega),
    fun hleaves => ⟨?_, fun hc => skip_returns hc hleaves, ?_⟩⟩
  · rw [getchainsizeLoop_returns_iff, ends_iff]
    exact ⟨fun h => h.2, fun h => ⟨hleaves, h⟩⟩
  · rw [freeclustersLoop_returns_iff, ends_iff, ends_iff]
    constructor
    · rintro (⟨-, h⟩ | ⟨hcopies, -, h⟩)
      · exact .inl h
      · exact .inr ⟨hcopies, h⟩
    · intro h
      by_cases hcyclic : Cyclic (vol.fat 0) IsFinalCluster vol.entries c
      · rcases h with h | ⟨hcopies, h⟩
        · exact absurd hcyclic h
        · exact .inr ⟨hcopies, hcyclic, h⟩
      · exact .inl ⟨hleaves, hcyclic⟩

/-- A FAT whose cluster 2 is followed by itself. -/
def loopFat : Fat32fs where
  fatcount := 1
  free := 0
  startat := 2
  clustersize := 512
  entries := 8
  fat _ c := if c = 2 then 2 else 0
  data _ _ := 0

theorem scans_return_iff_zeros :
    (∃ fuel, (smallImage.populateLoop (fun _ => 0) 0 (fun _ _ => 0) fuel 0).isSome) ↔
      Ext2fs.Advances (fun _ => 0) ((0 : Nat) ≤ ·) :=
  (scans_return_iff smallImage (fun _ => 0) 0 2 (fun _ _ => 0) [97] (by decide) loopFat 2 1).1

/-- A block of zeros as a directory, and a chain of one cluster that is followed by itself. -/
theorem scans_stay : (∀ fuel, smallImage.populateLoop (fun _ => 0) 1024 (fun _ _ => 0) fuel 0 = none) ∧
    (∀ fuel, Ext2fs.removeLoop (fun _ => 0) 1024 2 fuel none 0 = none) ∧
    (∀ fuel, Fat32fs.getchainsizeLoop loopFat fuel 2 0 = none) ∧
    ∀ fuel, Fat32fs.freeclustersLoop fuel loopFat 2 = none := by
  have hzero : ∀ n, Ext2.Direntry.entsize (fun _ => 0) n = 0 := fun n => read_zeros fun _ _ _ => rfl
  have hwalk : ∀ n, walk (Direntry.entsize fun _ => 0) n 0 = 0 := by
    intro n
    induction n with
    | zero => rfl
    | succ n ih => rw [walk, hzero, ih]
  have hcyclic : Cyclic (loopFat.fat 0) IsFinalCluster loopFat.entries 2 :=
    ⟨[2], 2, by decide, by decide, by decide, by decide⟩
  have hcyclic₀ : Cyclic (loopFat.fat 0) IsFinalCluster loopFat.entries 0 :=
    ⟨[0], 0, by decide, by decide, by decide, by decide⟩
  refine ⟨fun fuel => ?_, fun fuel => ?_, fun fuel => ?_, fun fuel => ?_⟩
  · refine Option.not_isSome_iff_eq_none.mp fun h => ?_
    obtain ⟨n, -, hle⟩ := populateLoop_isSome.mp h
    rw [hwalk] at hle
    omega
  · refine Option.not_isSome_iff_eq_none.mp fun h => ?_
    obtain ⟨n, -, hle | heq⟩ := removeLoop_isSome.mp h
    · rw [hwalk] at hle
      omega
    · rw [hwalk] at heq
      exact absurd heq (by decide)
  · refine Option.eq_none_iff_forall_ne_some.mpr fun n h => ?_
    exact hcyclic.not_ends ((getchainsizeLoop_returns_iff _ _ _).mp ⟨fuel, n, h⟩)
  · refine Option.eq_none_iff_forall_ne_some.mpr fun vol h => ?_
    rcases (freeclustersLoop_returns_iff _ _).mp ⟨fuel, vol, h⟩ with hends | ⟨-, -, hends⟩
    · exact hcyclic.not_ends hends
    · exact hcyclic₀.not_ends hends

end

end Lyre
