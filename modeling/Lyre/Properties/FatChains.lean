import Lyre.Infra.Run
import Lyre.Properties.FatAllocate

/-!
# The chains of the files

In every run of the calls, the chains of the files end, have no cycle and share no cluster, the
copies of the FAT are equal, and `fsinfo` is exact (`Sound`). A call changes the chain of its file
only, and as it says (`Effect`).
-/

namespace Lyre.Fat32

open Infra Fat32fs

variable {fs fs' : Fat32fs} {c d e start count size : Nat} {l w : List Nat}

/-! ## Chains -/

/-- The clusters `l` are a chain from `start` on, which is 0 if there are none. -/
inductive Chain (fs : Fat32fs) : Nat → List Nat → Prop
  | none : Chain fs 0 []
  | some {start e : Nat} {l : List Nat} : l ≠ [] → IsFinalCluster e → Path (fs.fat 0) start l e →
      (∀ c ∈ l, 2 ≤ c ∧ c < fs.entries) → Chain fs start l

theorem path_start_mem (h : Path (fs.fat 0) c l e) : c ∈ l ++ [e] := by
  cases l with
  | nil => exact List.mem_singleton.mpr h
  | cons x l =>
    rw [h.1]
    exact List.mem_cons_self

theorem not_final (hsize : fs.entries ≤ finalCluster) (hc : c < fs.entries) : ¬ IsFinalCluster c := by
  unfold IsFinalCluster
  omega

namespace Chain

theorem inside (h : Chain fs start l) : ∀ c ∈ l, 2 ≤ c ∧ c < fs.entries := by
  cases h with
  | none => simp
  | some _ _ _ hin => exact hin

theorem nodup (h : Chain fs start l) (hsize : fs.entries ≤ finalCluster) : l.Nodup := by
  cases h with
  | none => exact List.nodup_nil
  | some _ he hp hin => exact hp.nodup he fun c hc => not_final hsize (hin c hc).2

theorem used (h : Chain fs start l) : ∀ c ∈ l, fs.fat 0 c ≠ 0 := by
  intro c hc hzero
  cases h with
  | none => simp at hc
  | @some _ e _ _ he hp hin =>
    rcases hp.next_mem hc with hmem | heq
    · rw [hzero] at hmem
      have := (hin 0 hmem).1
      omega
    · rw [hzero] at heq
      subst heq
      exact absurd he (by decide)

theorem start_pos (hne : l ≠ []) (h : Chain fs start l) : 2 ≤ start := by
  cases h with
  | none => exact absurd rfl hne
  | some hl _ hp hin =>
    cases l with
    | nil => exact absurd rfl hl
    | cons x l =>
      rw [hp.1]
      exact (hin x List.mem_cons_self).1

theorem start_eq_zero (h : Chain fs start l) : start = 0 ↔ l = [] := by
  constructor
  · intro h0
    by_contra hne
    have := h.start_pos hne
    omega
  · intro hl
    cases h with
    | none => rfl
    | some hne => exact absurd hl hne

theorem path (h : Chain fs start l) (h0 : start ≠ 0) :
    l ≠ [] ∧ ∃ e, IsFinalCluster e ∧ Path (fs.fat 0) start l e := by
  cases h with
  | none => exact absurd rfl h0
  | some hne he hp => exact ⟨hne, _, he, hp⟩

theorem congr (h : Chain fs start l) (he : fs'.entries = fs.entries)
    (hfat : ∀ c ∈ l, fs'.fat 0 c = fs.fat 0 c) : Chain fs' start l := by
  cases h with
  | none => exact .none
  | some hne hend hp hin =>
    refine .some hne hend (hp.congr hfat) fun c hc => ?_
    rw [he]
    exact hin c hc

end Chain

/-! ## `fat32fs_skip` and `fat32fs_getchainsize` -/

theorem skip_path (hsize : fs.entries ≤ finalCluster) (hp : Path (fs.fat 0) c l d)
    (hin : ∀ x ∈ l ++ [d], x < fs.entries) : fs.skip c (l.length + count) = fs.skip d count := by
  induction l generalizing c with
  | nil =>
    obtain rfl : c = d := hp
    rw [List.length_nil, Nat.zero_add]
  | cons x l ih =>
    obtain ⟨rfl, hp⟩ := hp
    have hin' : ∀ x ∈ l ++ [d], x < fs.entries := fun x hx => hin x (List.mem_cons_of_mem _ hx)
    have hnext : ¬ IsFinalCluster (fs.fat 0 c) :=
      not_final hsize (hin' _ (path_start_mem hp))
    have hlen : (c :: l).length + count = (l.length + count) + 1 := by
      rw [List.length_cons]
      omega
    rw [hlen, skip, next_eq (hin c List.mem_cons_self), Option.bind_eq_bind, Option.bind_some,
      if_neg hnext]
    exact ih hp hin'

theorem skip_last (hd : d < fs.entries) (he : IsFinalCluster (fs.fat 0 d)) :
    fs.skip d (count + 1) = some (d, true) := by
  rw [skip, next_eq hd, Option.bind_eq_bind, Option.bind_some, if_pos he]

theorem skip_end (hsize : fs.entries ≤ finalCluster) (hp : Path (fs.fat 0) c (l ++ [d]) e)
    (he : IsFinalCluster e) (hin : ∀ x ∈ l ++ [d], x < fs.entries) (hcount : l.length < count) :
    fs.skip c count = some (d, true) := by
  obtain ⟨n, rfl⟩ : ∃ n, count = l.length + (n + 1) := ⟨count - l.length - 1, by omega⟩
  obtain ⟨d', hl, rfl, hend⟩ := path_append.mp hp
  rw [skip_path hsize hl hin]
  refine skip_last (hin d' (List.mem_append_right _ List.mem_cons_self)) ?_
  rw [hend]
  exact he

theorem getchainsizeLoop_path {fuel : Nat} (hp : Path (fs.fat 0) c l e) (he : IsFinalCluster e)
    (hin : ∀ x ∈ l, ¬ IsFinalCluster x ∧ x < fs.entries) (hfuel : l.length < fuel) : getchainsizeLoop fs fuel c count = some (count + l.length) := by
  induction l generalizing c count fuel with
  | nil =>
    obtain rfl : c = e := hp
    obtain ⟨fuel, rfl⟩ : ∃ n, fuel = n + 1 := ⟨fuel - 1, by omega⟩
    rw [getchainsizeLoop, if_pos he, List.length_nil, Nat.add_zero]
  | cons x l ih =>
    obtain ⟨rfl, hp⟩ := hp
    obtain ⟨hstop, hc⟩ := hin c List.mem_cons_self
    rw [List.length_cons] at hfuel
    obtain ⟨fuel, rfl⟩ : ∃ n, fuel = n + 1 := ⟨fuel - 1, by omega⟩
    rw [getchainsizeLoop, if_neg hstop, next_eq hc, Option.bind_eq_bind,
      Option.bind_some, ih hp (fun x hx => hin x (List.mem_cons_of_mem c hx)) (by omega),
      List.length_cons]
    congr 1
    omega

theorem chainsize_eq {F : Type} {s : Disk F} {f : F} (h : Exact s.fs)
    (hl : Chain s.fs (s.start f) l) : s.chainsize f = some l.length := by
  unfold Disk.chainsize
  by_cases h0 : s.start f = 0
  · rw [if_pos h0, hl.start_eq_zero.mp h0, List.length_nil]
  · have hlen := length_le_entries (hl.nodup h.entries) fun c hc => (hl.inside c hc).2
    obtain ⟨-, e, he, hp⟩ := hl.path h0
    have hfuel : l.length < s.fs.turns := by
      unfold turns
      omega
    rw [if_neg h0, getchainsize,
      getchainsizeLoop_path hp he (fun c hc => ⟨not_final h.entries (hl.inside c hc).2,
        (hl.inside c hc).2⟩) hfuel, Nat.zero_add]

/-! ## The invariant -/

variable {F : Type} {s s' s₀ : Disk F} {f g : F} {ok : Bool}

theorem chain_eq (hsize : s.fs.entries ≤ finalCluster) (h : Chain s.fs (s.start f) l) :
    s.chain f = l := by
  have hnd := h.nodup hsize
  have hlen := length_le_entries hnd fun c hc => (h.inside c hc).2
  unfold Disk.chain
  by_cases h0 : s.start f = 0
  · rw [if_pos h0, h.start_eq_zero.mp h0]
  · rw [if_neg h0]
    generalize s.start f = start at h h0
    cases h with
    | none => exact absurd rfl h0
    | some _ he hp hin =>
      exact hp.follow_eq he (fun c hc => not_final hsize (hin c hc).2) (by omega)

/-- What holds between the calls. -/
structure Sound (s : Disk F) : Prop where
  exact : Exact s.fs
  /-- Every chain ends. -/
  chains : ∀ f, Chain s.fs (s.start f) (s.chain f)
  disjoint : ∀ f g, f ≠ g → ∀ c ∈ s.chain f, c ∉ s.chain g

theorem Sound.acyclic (h : Sound s) (f : F) : (s.chain f).Nodup := (h.chains f).nodup h.exact.entries

theorem Sound.length_lt (h : Sound s) (f : F) : (s.chain f).length < 2 ^ 63 := by
  have hlen := length_le_entries (h.acyclic f) fun c hc => ((h.chains f).inside c hc).2
  have hsize := h.exact.entries
  unfold finalCluster at hsize
  omega

/-- What a call makes of the chain of its file, which is to have `size` clusters. -/
structure Effect (s : Disk F) (f : F) (size : Nat) (ok : Bool) (s' : Disk F) : Prop where
  others : ∀ g, g ≠ f → s'.chain g = s.chain g
  length : ok = true → (s'.chain f).length = size
  kept : ok = true → (s'.chain f).take (min (s.chain f).length size)
    = (s.chain f).take (min (s.chain f).length size)
  /-- New clusters are zeroed, -/
  zeroed : ∀ c ∈ s'.chain f, c ∉ s.chain f → ∀ i < s.fs.clustersize, s'.fs.data c i = 0
  /-- and no other cluster of a file is written. -/
  contents : ∀ g, ∀ c ∈ s.chain g, s'.fs.data c = s.fs.data c
  failed : ok = false → ∀ g, s'.chain g = s.chain g

theorem Effect.same (hok : ok = true → size = (s.chain f).length) : Effect s f size ok s where
  others := fun _ _ => rfl
  length := fun h => (hok h).symm
  kept := fun _ => rfl
  zeroed := fun _ hc hno => absurd hc hno
  contents := fun _ _ _ => rfl
  failed := fun _ _ => rfl

theorem Sound.exists_last (h : Sound s) (hstart : s.start f ≠ 0) :
    ∃ l last, s.chain f = l ++ [last] ∧ ∀ count, l.length < count →
      s.fs.skip (s.start f) count = some (last, true) := by
  have hinside := (h.chains f).inside
  obtain ⟨hne, e, he, hp⟩ := (h.chains f).path hstart
  have hl : s.chain f = (s.chain f).dropLast ++ [(s.chain f).getLast hne] :=
    (List.dropLast_append_getLast hne).symm
  refine ⟨_, _, hl, fun count hcount => ?_⟩
  rw [hl] at hp hinside
  exact skip_end h.exact.entries hp he (fun c hc => (hinside c hc).2) hcount

variable [DecidableEq F]

@[simp] theorem setStart_fs : (s.setStart fs f start).fs = fs := rfl

@[simp] theorem setStart_start : (s.setStart fs f start).start f = start := Function.update_self _ _ _

theorem setStart_start_of_ne (hg : g ≠ f) : (s.setStart fs f start).start g = s.start g :=
  Function.update_of_ne hg _ _

/-- **The chain of one file is replaced.** What is written is its own or was free. -/
theorem Sound.replace (h : Sound s) (hex : Exact fs) (hw : Written s.fs fs w)
    (hown : ∀ c ∈ w, c ∈ s.chain f ∨ s.fs.fat 0 c = 0) (hl : Chain fs start l)
    (hlown : ∀ c ∈ l, c ∈ s.chain f ∨ s.fs.fat 0 c = 0) :
    Sound (s.setStart fs f start) ∧ (s.setStart fs f start).chain f = l
      ∧ ∀ g, g ≠ f → (s.setStart fs f start).chain g = s.chain g := by
  -- a cluster of another file is neither the file's own nor free
  have hapart : ∀ g, g ≠ f → ∀ c ∈ s.chain g, ¬ (c ∈ s.chain f ∨ s.fs.fat 0 c = 0) := by
    rintro g hg c hc (hf | hfree)
    · exact h.disjoint g f hg c hc hf
    · exact (h.chains g).used c hc hfree
  have hmine : (s.setStart fs f start).chain f = l := by
    refine chain_eq hex.entries ?_
    rw [setStart_fs, setStart_start]
    exact hl
  have hother : ∀ g, g ≠ f → Chain fs (s.start g) (s.chain g) := fun g hg =>
    (h.chains g).congr hw.entries fun c hc => hw.fat c fun hcw => hapart g hg c hc (hown c hcw)
  have hsame : ∀ g, g ≠ f → (s.setStart fs f start).chain g = s.chain g := by
    intro g hg
    refine chain_eq hex.entries ?_
    rw [setStart_fs, setStart_start_of_ne hg]
    exact hother g hg
  refine ⟨⟨hex, fun g => ?_, fun g g' hgg' c hc hc' => ?_⟩, hmine, hsame⟩
  · by_cases hg : g = f
    · subst hg
      rw [hmine, setStart_fs, setStart_start]
      exact hl
    · rw [hsame g hg, setStart_fs, setStart_start_of_ne hg]
      exact hother g hg
  · by_cases hg : g = f
    · subst hg
      rw [hmine] at hc
      rw [hsame g' (Ne.symm hgg')] at hc'
      exact hapart g' (Ne.symm hgg') c hc' (hlown c hc)
    · rw [hsame g hg] at hc
      by_cases hg' : g' = f
      · subst hg'
        rw [hmine] at hc'
        exact hapart g hg c hc (hlown c hc')
      · rw [hsame g' hg'] at hc'
        exact h.disjoint g g' hgg' c hc hc'

theorem setStart_self : s.setStart s.fs f (s.start f) = s := by
  unfold Disk.setStart
  rw [Function.update_eq_self]

/-! ## The calls -/

/-- **What follows for a call that replaces the chain of its file.** -/
theorem Sound.effect (h : Sound s) (hex : Exact fs) (hw : Written s.fs fs w)
    (hown : ∀ c ∈ w, c ∈ s.chain f ∨ s.fs.fat 0 c = 0) (hl : Chain fs start l)
    (hlown : ∀ c ∈ l, c ∈ s.chain f ∨ s.fs.fat 0 c = 0) (hsize : l.length = size)
    (hkept : l.take (min (s.chain f).length size) = (s.chain f).take (min (s.chain f).length size))
    (hzeroed : ∀ c ∈ l, c ∉ s.chain f → ∀ i < s.fs.clustersize, fs.data c i = 0)
    (hdata : ∀ c ∈ s.chain f, fs.data c = s.fs.data c) :
    Sound (s.setStart fs f start) ∧ Effect s f size true (s.setStart fs f start) := by
  obtain ⟨hsound, hchain, hothers⟩ := h.replace hex hw hown hl hlown
  refine ⟨hsound, hothers, ?_, ?_, ?_, ?_, fun hok => by simp at hok⟩
  · intro _
    rw [hchain, hsize]
  · intro _
    rw [hchain, hkept]
  · rw [hchain]
    exact hzeroed
  · intro g c hc
    by_cases hg : g = f
    · subst hg
      exact hdata c hc
    · refine hw.data c fun hcw => ?_
      rcases hown c hcw with hf | hfree
      · exact h.disjoint g f hg c hc hf
      · exact (h.chains g).used c hc hfree

/-- `fat32fs_freeclusters` on the chain of a file. -/
theorem free_call (h : Sound s) (hstart : s.start f ≠ 0) :
    ∃ fs, s.fs.freeclusters (s.start f) = some fs ∧ Sound (s.setStart fs f 0)
      ∧ Effect s f 0 true (s.setStart fs f 0) := by
  have hchain := h.chains f
  have hnd := h.acyclic f
  have hused := hchain.used
  have hinside := hchain.inside
  obtain ⟨-, e, he, hp⟩ := hchain.path hstart
  obtain ⟨fs, hrun, hfreed⟩ := freeclusters_spec h.exact hp he (fun c hc => (hinside c hc).2) hnd
  refine ⟨fs, hrun, h.effect (h.exact.freed hfreed hnd hinside hused) hfreed.written
    (fun c hc => Or.inl hc) .none ?_ rfl ?_ ?_ fun c _ => congrFun hfreed.data c⟩
  · simp
  · rw [Nat.min_zero, List.take_zero, List.take_zero]
  · simp

theorem Allocated.chain {ret : Nat} (h : Allocated fs fs' ret count l) (hex : Exact fs)
    (hcount : 0 < count) : Chain fs' ret l := by
  refine .some ?_ (le_refl finalCluster) h.path fun c hc => ?_
  · rintro rfl
    have := h.length
    simp at this
    omega
  · have hfree := h.zeroed.wasFree c hc
    rw [h.zeroed.written.entries]
    exact ⟨hex.two_le hfree.1, hfree.2⟩

/-- `fat32fs_allocateclusters` for a file without clusters. -/
theorem allocate_call (h : Sound s) (memory : Bool) (hstart : s.start f = 0) (hcount : 0 < count)
    (hcount' : count < 2 ^ 64) :
    ∃ fs ret, s.fs.allocateclusters count memory = some (fs, ret) ∧ Sound (s.setStart fs f ret)
      ∧ Effect s f count (decide (ret ≠ 0)) (s.setStart fs f ret) := by
  by_cases hno : s.fs.free < count ∨ s.fs.startat = 0 ∨ memory = false
  · refine ⟨s.fs, 0, allocateclusters_none h.exact hcount hno, ?_⟩
    rw [← hstart, setStart_self]
    exact ⟨h, Effect.same fun hok => by simp at hok⟩
  · rw [not_or, not_or, Bool.not_eq_false] at hno
    obtain ⟨fs, ret, l, hrun, hret, halloc⟩ :=
      allocateclusters_some h.exact hcount hcount' hno.1 hno.2.1 hno.2.2
    have hempty : s.chain f = [] := (h.chains f).start_eq_zero.mp hstart
    have hfree : ∀ c ∈ l, c ∈ s.chain f ∨ s.fs.fat 0 c = 0 :=
      fun c hc => Or.inr (halloc.zeroed.wasFree c hc).1
    have heffect := h.effect halloc.exact halloc.zeroed.written hfree
      (halloc.chain h.exact hcount) hfree halloc.length
      (by rw [hempty, List.length_nil, Nat.zero_min, List.take_zero, List.take_zero])
      (fun c hc _ => halloc.zeroed.zero c hc) (by simp [hempty])
    refine ⟨fs, ret, hrun, heffect.1, ?_⟩
    rw [decide_eq_true hret]
    exact heffect.2

/-! ## `fat32fs_resize` -/

/-- `diff` of two sizes, the old one being that of a chain. -/
theorem diff_eq {old : Nat} (new : Nat) (hold : old < 2 ^ 63) (hnew : new < 2 ^ 64) :
    (BitVec.ofNat 64 new - BitVec.ofNat 64 old).toInt
      = if (new : Int) - old < 2 ^ 63 then (new : Int) - old else (new : Int) - old - 2 ^ 64 := by
  rw [BitVec.toInt_eq_toNat_cond, BitVec.toNat_sub, BitVec.toNat_ofNat, BitVec.toNat_ofNat]
  split <;> split <;> omega

theorem Chain.append {l₀ : List Nat} {last ret : Nat} (h : Exact fs)
    (hchain : Chain fs start (l₀ ++ [last])) (halloc : Allocated fs fs' ret count l) :
    Chain (put fs' last ret) start (l₀ ++ [last] ++ l) := by
  have hw := halloc.zeroed.written
  have hnew : ∀ c ∈ l, c ∉ l₀ ++ [last] := fun c hc hcl =>
    hchain.used c hcl (halloc.zeroed.wasFree c hc).1
  have hlast : last ∈ l₀ ++ [last] := List.mem_append_right _ List.mem_cons_self
  have hstart : start ≠ 0 := fun h0 => by
    have hnil := hchain.start_eq_zero.mp h0
    simp at hnil
  obtain ⟨-, e, -, hp⟩ := hchain.path hstart
  obtain ⟨d, hp₀, rfl, -⟩ := path_append.mp hp
  have hd : d ∉ l₀ := fun hmem =>
    (List.nodup_append.mp (hchain.nodup h.entries)).2.2 d hmem d List.mem_cons_self rfl
  refine .some (by simp) (le_refl finalCluster) ?_ fun c hc => ?_
  · rw [List.append_assoc]
    refine Path.append (d := d) (hp₀.congr fun c hc => ?_) ⟨rfl, ?_⟩
    · have hne : c ≠ d := fun heq => hd (by rw [← heq]; exact hc)
      rw [put_fat_of_ne hne, hw.fat c fun hcl => hnew c hcl (List.mem_append_left _ hc)]
    · rw [put_fat_self halloc.exact.copies]
      refine halloc.path.congr fun c hc => put_fat_of_ne fun heq => ?_
      rw [heq] at hc
      exact hnew d hc hlast
  · rw [put_entries, hw.entries]
    rcases List.mem_append.mp hc with hc | hc
    · exact hchain.inside c hc
    · exact ⟨h.two_le (halloc.zeroed.wasFree c hc).1, (halloc.zeroed.wasFree c hc).2⟩

theorem grow_call {last : Nat} {l₀ : List Nat} (h : Sound s) (hl : s.chain f = l₀ ++ [last])
    {fs' : Fat32fs} {ret : Nat} (halloc : Allocated s.fs fs' ret count l) (hret : ret ≠ 0) :
    fs'.setnext last ret = some (put fs' last ret)
      ∧ Sound (s.setStart (put fs' last ret) f (s.start f))
      ∧ Effect s f ((s.chain f).length + count) true (s.setStart (put fs' last ret) f (s.start f)) := by
  have hchain := h.chains f
  have hw := halloc.zeroed.written
  have hlast : last ∈ s.chain f := by
    rw [hl]
    exact List.mem_append_right _ List.mem_cons_self
  have hnew : ∀ c ∈ l, c ∉ s.chain f := fun c hc hcf =>
    hchain.used c hcf (halloc.zeroed.wasFree c hc).1
  have hlastused : fs'.fat 0 last ≠ 0 := by
    rw [hw.fat last fun hmem => hnew last hmem hlast]
    exact hchain.used last hlast
  have hlastN : last < fs'.entries := by
    rw [hw.entries]
    exact (hchain.inside last hlast).2
  have hgrown : Chain (put fs' last ret) (s.start f) (s.chain f ++ l) := by
    rw [hl] at hchain ⊢
    exact hchain.append h.exact halloc
  have hown : ∀ c ∈ s.chain f ++ l, c ∈ s.chain f ∨ s.fs.fat 0 c = 0 := fun c hc =>
    (List.mem_append.mp hc).imp_right fun hcl => (halloc.zeroed.wasFree c hcl).1
  have hwritten : Written s.fs (put fs' last ret) (s.chain f ++ l) := by
    refine (hw.trans (Written.put fs' last ret)).mono fun c hc => ?_
    rcases List.mem_append.mp hc with hc | hc
    · exact List.mem_append_right _ hc
    · rw [List.mem_singleton.mp hc]
      exact List.mem_append_left _ hlast
  refine ⟨setnext_eq hlastN, ?_⟩
  refine h.effect (halloc.exact.put hlastused hret) hwritten hown hgrown hown ?_ ?_ ?_ ?_
  · rw [List.length_append, halloc.length]
  · rw [List.take_append_of_le_length (Nat.min_le_left _ _)]
  · intro c hc hcf
    exact halloc.zeroed.zero c ((List.mem_append.mp hc).resolve_left hcf)
  · exact fun c hc => hw.data c fun hcl => hnew c hcl hc

theorem path_middle {next : Nat → Nat} {l₀ l₁ : List Nat} (h : Path next c (l₀ ++ [d] ++ l₁) e) :
    Path next c l₀ d ∧ Path next (next d) l₁ e := by
  obtain ⟨x, hfirst, hrest⟩ := path_append.mp h
  obtain ⟨y, hl₀, rfl, rfl⟩ := path_append.mp hfirst
  exact ⟨hl₀, hrest⟩

/-- A chain is cut off behind the cluster `d`. -/
theorem Chain.cut {l₀ l₁ : List Nat} (h : Exact fs) (hchain : Chain fs start (l₀ ++ [d] ++ l₁))
    (hfreed : Freed (put fs d finalCluster) fs' l₁) : Chain fs' start (l₀ ++ [d]) := by
  obtain ⟨hfirst, -, hapart⟩ := List.nodup_append.mp (hchain.nodup h.entries)
  have hstart : start ≠ 0 := fun h0 => by
    have hnil := hchain.start_eq_zero.mp h0
    simp at hnil
  have hkept : ∀ c ∈ l₀ ++ [d], fs'.fat 0 c = (put fs d finalCluster).fat 0 c := fun c hc =>
    hfreed.written.fat c fun hcl => hapart c hc c hcl rfl
  obtain ⟨-, e, -, hp⟩ := hchain.path hstart
  refine .some (by simp) (le_refl finalCluster) ?_ fun c hc => ?_
  · have hend : fs'.fat 0 d = finalCluster := by
      rw [hkept d (List.mem_append_right _ List.mem_cons_self), put_fat_self h.copies]
    refine Path.append (d := d) ((path_middle hp).1.congr fun c hc => ?_) ⟨rfl, hend⟩
    have hne : c ≠ d := (List.nodup_append.mp hfirst).2.2 c hc d List.mem_cons_self
    rw [hkept c (List.mem_append_left _ hc), put_fat_of_ne hne]
  · rw [hfreed.written.entries]
    exact hchain.inside c (List.mem_append_left _ hc)

theorem shrink_call {l₀ l₁ : List Nat} (h : Sound s) (hl : s.chain f = l₀ ++ [d] ++ l₁) :
    s.fs.skip (s.start f) l₀.length = some (d, false)
      ∧ s.fs.next d = some (s.fs.fat 0 d)
      ∧ s.fs.setnext d finalCluster = some (put s.fs d finalCluster)
      ∧ ∃ fs', (put s.fs d finalCluster).freeclusters (s.fs.fat 0 d) = some fs'
        ∧ Sound (s.setStart fs' f (s.start f))
        ∧ Effect s f (l₀.length + 1) true (s.setStart fs' f (s.start f)) := by
  have hchain := h.chains f
  have hnd := h.acyclic f
  rw [hl] at hchain hnd
  have hstart : s.start f ≠ 0 := fun h0 => by
    have hnil := hchain.start_eq_zero.mp h0
    simp at hnil
  obtain ⟨-, hnd₁, hapart⟩ := List.nodup_append.mp hnd
  have hkept : ∀ c ∈ l₀ ++ [d], c ∈ l₀ ++ [d] ++ l₁ := fun c hc => List.mem_append_left _ hc
  have hgone : ∀ c ∈ l₁, c ∈ l₀ ++ [d] ++ l₁ := fun c hc => List.mem_append_right _ hc
  have hd : d ∈ l₀ ++ [d] := List.mem_append_right _ List.mem_cons_self
  have hgone_ne : ∀ c ∈ l₁, c ≠ d := fun c hc => (hapart d hd c hc).symm
  have hdN := (hchain.inside d (hkept d hd)).2
  have hexact := h.exact.put (hchain.used d (hkept d hd)) (by decide : finalCluster ≠ 0)
  obtain ⟨-, e, he, hp⟩ := hchain.path hstart
  obtain ⟨hp₀, hp₁⟩ := path_middle hp
  have hp₁' : Path ((put s.fs d finalCluster).fat 0) (s.fs.fat 0 d) l₁ e :=
    hp₁.congr fun c hc => put_fat_of_ne (hgone_ne c hc)
  obtain ⟨fs', hrun, hfreed⟩ := freeclusters_spec hexact hp₁' he
    (fun c hc => (hchain.inside c (hgone c hc)).2) hnd₁
  have hskip : s.fs.skip (s.start f) (l₀.length + 0) = s.fs.skip d 0 :=
    skip_path h.exact.entries hp₀ fun c hc => (hchain.inside c (hkept c hc)).2
  refine ⟨hskip, next_eq hdN, setnext_eq hdN, fs', hrun, ?_⟩
  have hused : ∀ c ∈ l₁, (put s.fs d finalCluster).fat 0 c ≠ 0 := fun c hc => by
    rw [put_fat_of_ne (hgone_ne c hc)]
    exact hchain.used c (hgone c hc)
  have hwritten : Written s.fs fs' (l₀ ++ [d] ++ l₁) := by
    refine ((Written.put s.fs d finalCluster).trans hfreed.written).mono fun c hc => ?_
    rcases List.mem_append.mp hc with hc | hc
    · rw [List.mem_singleton.mp hc]
      exact hkept d hd
    · exact hgone c hc
  have hmine : ∀ c ∈ l₀ ++ [d] ++ l₁, c ∈ s.chain f ∨ s.fs.fat 0 c = 0 := fun c hc =>
    Or.inl (by rw [hl]; exact hc)
  refine h.effect (hexact.freed hfreed hnd₁ (fun c hc => hchain.inside c (hgone c hc)) hused)
    hwritten hmine (hchain.cut h.exact hfreed) (fun c hc => hmine c (hkept c hc)) ?_ ?_ ?_
    fun c _ => congrFun hfreed.data c
  · rw [List.length_append, List.length_singleton]
  · have hmin : min (s.chain f).length (l₀.length + 1) ≤ (l₀ ++ [d]).length := by
      rw [List.length_append, List.length_singleton]
      exact Nat.min_le_right _ _
    rw [hl] at hmin ⊢
    exact (List.take_append_of_le_length hmin).symm
  · intro c hc hcf
    rw [hl] at hcf
    exact absurd (hkept c hc) hcf

theorem resize_less {newsize : Nat} (h : Sound s) (memory : Bool) (hpos : 0 < newsize)
    (hless : newsize < (s.chain f).length) :
    ∃ fs, s.fs.resize (s.start f) (s.chain f).length newsize memory = some (fs, true, s.start f)
      ∧ Sound (s.setStart fs f (s.start f)) ∧ Effect s f newsize true (s.setStart fs f (s.start f)) := by
  have hlen := h.length_lt f
  have hdiff := diff_eq newsize hlen (by omega)
  have hstart : s.start f ≠ 0 := fun h0 => by
    have hnil := (h.chains f).start_eq_zero.mp h0
    rw [hnil] at hless
    simp at hless
  obtain ⟨l₀, l₁, d, hl, hl₀⟩ :
      ∃ l₀ l₁ d, s.chain f = l₀ ++ [d] ++ l₁ ∧ l₀.length = newsize - 1 := by
    have hlt : newsize - 1 < (s.chain f).length := by omega
    refine ⟨(s.chain f).take (newsize - 1), (s.chain f).drop (newsize - 1 + 1),
      (s.chain f)[newsize - 1], ?_, ?_⟩
    · rw [List.append_assoc, List.singleton_append, List.getElem_cons_drop, List.take_append_drop]
    · rw [List.length_take]
      omega
  obtain ⟨hskip, hnext, hset, fs', hrun, hsound, heffect⟩ := shrink_call h hl
  refine ⟨fs', ?_, hsound, ?_⟩
  · unfold resize
    simp only
    rw [if_neg (by rw [hdiff]; split <;> omega), if_neg hstart, if_neg (by omega),
      if_neg (by rw [hdiff]; split <;> omega), ← hl₀, hskip]
    simp only [Option.bind_eq_bind, Option.bind_some, hnext, hset, hrun]
    rfl
  · rw [hl₀, Nat.sub_add_cancel hpos] at heffect
    exact heffect

theorem resize_more {newsize : Nat} (h : Sound s) (memory : Bool) (hstart : s.start f ≠ 0)
    (hmore : (s.chain f).length < newsize) (hnew : newsize < 2 ^ 64) :
    (2 ^ 63 ≤ newsize ∧ s.fs.resize (s.start f) (s.chain f).length newsize memory = none)
      ∨ ∃ fs ok, s.fs.resize (s.start f) (s.chain f).length newsize memory
          = some (fs, ok, s.start f)
        ∧ Sound (s.setStart fs f (s.start f)) ∧ Effect s f newsize ok (s.setStart fs f (s.start f)) := by
  have hlen := h.length_lt f
  have hdiff := diff_eq newsize hlen hnew
  obtain ⟨l₀, last, hl, hskip⟩ := h.exists_last hstart
  have hl₀ : (s.chain f).length = l₀.length + 1 := by
    rw [hl, List.length_append, List.length_singleton]
  unfold resize
  simp only
  rw [if_neg (by rw [hdiff]; split <;> omega), if_neg hstart, if_neg (by omega)]
  by_cases hover : (newsize : Int) - (s.chain f).length < 2 ^ 63
  · rw [if_pos hover] at hdiff
    have hcount : (BitVec.ofNat 64 newsize - BitVec.ofNat 64 (s.chain f).length).toInt.toNat
        = newsize - (s.chain f).length := by
      rw [hdiff]
      omega
    rw [if_pos (by rw [hdiff]; omega), hskip _ (by omega)]
    simp only [Option.bind_eq_bind, Option.bind_some, if_true, hcount]
    by_cases hno : s.fs.free < newsize - (s.chain f).length ∨ s.fs.startat = 0 ∨ memory = false
    · rw [allocateclusters_none h.exact (by omega) hno]
      refine Or.inr ⟨s.fs, false, rfl, ?_⟩
      rw [setStart_self]
      exact ⟨h, .same fun hok => by simp at hok⟩
    · rw [not_or, not_or, Bool.not_eq_false] at hno
      obtain ⟨fs, ret, l, hrun, hret, halloc⟩ := allocateclusters_some h.exact
        (by omega : 0 < newsize - (s.chain f).length) (by omega) hno.1 hno.2.1 hno.2.2
      obtain ⟨hset, hsound, heffect⟩ := grow_call h hl halloc hret
      refine Or.inr ⟨put fs last ret, true, ?_, hsound, ?_⟩
      · rw [hrun]
        simp only [Option.bind_some, if_neg hret, hset]
      · rw [Nat.add_sub_cancel' (Nat.le_of_lt hmore)] at heffect
        exact heffect
  · -- the difference is negative as an `ssize_t`: the assertion behind `fat32fs_skip` fails
    rw [if_neg hover] at hdiff
    refine Or.inl ⟨by omega, ?_⟩
    rw [if_neg (by rw [hdiff]; omega), hskip _ (by omega)]
    rfl

/-- **`fat32fs_resize`** with the length of the chain. It has no result only if `diff` overflows. -/
theorem resize_call {newsize : Nat} (h : Sound s) (memory : Bool) (hnew : newsize < 2 ^ 64) :
    (2 ^ 63 ≤ newsize ∧ s.fs.resize (s.start f) (s.chain f).length newsize memory = none)
      ∨ ∃ fs ok newstart,
        s.fs.resize (s.start f) (s.chain f).length newsize memory = some (fs, ok, newstart)
        ∧ Sound (s.setStart fs f (if ok then newstart else s.start f))
        ∧ Effect s f newsize ok (s.setStart fs f (if ok then newstart else s.start f)) := by
  have hdiff := diff_eq newsize (h.length_lt f) hnew
  by_cases hsame : newsize = (s.chain f).length
  · refine Or.inr ⟨s.fs, true, s.start f, ?_, ?_⟩
    · unfold resize
      simp only
      rw [if_pos]
      rw [hdiff, hsame]
      split <;> omega
    · rw [if_pos rfl, setStart_self]
      exact ⟨h, .same fun _ => hsame⟩
  have hne : ¬ (BitVec.ofNat 64 newsize - BitVec.ofNat 64 (s.chain f).length).toInt = 0 := by
    rw [hdiff]
    split <;> omega
  by_cases hstart : s.start f = 0
  · -- the file has no cluster yet
    have hempty : (s.chain f).length = 0 := by
      rw [(h.chains f).start_eq_zero.mp hstart, List.length_nil]
    obtain ⟨fs, ret, hrun, hsound, heffect⟩ :=
      allocate_call h memory hstart (by omega : 0 < newsize) hnew
    refine Or.inr ⟨fs, decide (0 < ret), ret, ?_, ?_⟩
    · unfold resize
      simp only
      rw [if_neg hne, if_pos hstart, hrun]
      rfl
    · have hok : decide (0 < ret) = decide (ret ≠ 0) := decide_eq_decide.mpr Nat.pos_iff_ne_zero
      have hret : (if decide (ret ≠ 0) = true then ret else s.start f) = ret := by
        rw [hstart]
        split
        · rfl
        · next hno => exact (by simpa using hno : ret = 0).symm
      rw [hok, hret]
      exact ⟨hsound, heffect⟩
  by_cases hzero : newsize = 0
  · -- all of its clusters are given back
    obtain ⟨fs, hrun, hsound, heffect⟩ := free_call h hstart
    refine Or.inr ⟨fs, true, 0, ?_, ?_⟩
    · unfold resize
      simp only
      rw [if_neg hne, if_neg hstart, if_pos hzero, hrun]
      rfl
    · rw [if_pos rfl, hzero]
      exact ⟨hsound, heffect⟩
  rcases Nat.lt_or_gt_of_ne hsame with hless | hmore
  · obtain ⟨fs, hrun, hresult⟩ := resize_less h memory (by omega) hless
    exact Or.inr ⟨fs, true, s.start f, hrun, by rw [if_pos rfl]; exact hresult⟩
  · rcases resize_more h memory hstart hmore hnew with hnone | ⟨fs, ok, hrun, hresult⟩
    · exact Or.inl hnone
    · exact Or.inr ⟨fs, ok, s.start f, hrun, by rw [ite_self]; exact hresult⟩

/-! ## Runs -/

/-- The file of a call. -/
def Call.file : Call F → F
  | .allocate file _ _ | .free file | .resize file _ _ => file

/-- The number of clusters its file is to have. -/
def Call.clusters : Call F → Nat
  | .allocate _ count _ => count
  | .free _ => 0
  | .resize _ newsize _ => newsize

/-- What a call asks of its caller. A size is that of a file, which is an `off_t`. -/
def Call.Valid (s : Disk F) : Call F → Prop
  | .allocate file count _ => s.start file = 0 ∧ 0 < count ∧ count < 2 ^ 64
  | .free file => s.start file ≠ 0
  | .resize _ newsize _ => newsize < 2 ^ 63

/-- A call returns, or it is a `resize` whose difference overflows. -/
theorem run_spec (h : Sound s) (call : Call F) :
    (s.run call = none ∧ ¬ call.Valid s)
      ∨ ∃ s' ok, s.run call = some (s', ok) ∧ Sound s' ∧ Effect s call.file call.clusters ok s' := by
  cases call with
  | allocate f count memory =>
    by_cases hvalid : s.start f = 0 ∧ 0 < count ∧ count < 2 ^ 64
    · obtain ⟨fs, ret, hrun, hsound, heffect⟩ :=
        allocate_call h memory hvalid.1 hvalid.2.1 hvalid.2.2
      refine Or.inr ⟨_, _, ?_, hsound, heffect⟩
      rw [Disk.run, if_pos hvalid, hrun]
      rfl
    · exact Or.inl ⟨by rw [Disk.run, if_neg hvalid], hvalid⟩
  | free f =>
    by_cases hstart : s.start f ≠ 0
    · obtain ⟨fs, hrun, hsound, heffect⟩ := free_call h hstart
      refine Or.inr ⟨_, _, ?_, hsound, heffect⟩
      rw [Disk.run, if_pos hstart, hrun]
      rfl
    · exact Or.inl ⟨by rw [Disk.run, if_neg hstart], hstart⟩
  | resize f newsize memory =>
    by_cases hnew : newsize < 2 ^ 64
    · have hold := chainsize_eq h.exact (h.chains f)
      rcases resize_call h memory hnew with ⟨hbig, hrun⟩ | ⟨fs, ok, newstart, hrun, hr⟩
      · refine Or.inl ⟨?_, fun hvalid : newsize < 2 ^ 63 => by omega⟩
        rw [Disk.run, if_pos hnew, hold, Option.bind_eq_bind, Option.bind_some, hrun]
        rfl
      · refine Or.inr ⟨_, ok, ?_, hr⟩
        rw [Disk.run, if_pos hnew, hold, Option.bind_eq_bind, Option.bind_some, hrun]
        rfl
    · refine Or.inl ⟨by rw [Disk.run, if_neg hnew], fun hvalid : newsize < 2 ^ 63 => ?_⟩
      omega

/-- Whatever calls there were: the chains end, have no cycle and share no cluster, all copies of the
FAT are equal, the count and the hint are exact, and the next call does what it says. -/
theorem chains_sound (h₀ : Sound s₀) (h : Reach Disk.Step anyStep s₀ s) :
    Sound s ∧ (∀ f, (s.chain f).Nodup)
      ∧ (∀ call : Call F, call.Valid s → ∃ s' ok, s.run call = some (s', ok))
      ∧ ∀ (call : Call F) s' ok, s.run call = some (s', ok) →
        Effect s call.file call.clusters ok s' := by
  have hs : Sound s := by
    refine h.invariant h₀ fun s call s' hs _ ⟨ok, hrun⟩ => ?_
    rcases run_spec hs call with ⟨hnone, -⟩ | ⟨s₁, ok₁, hrun₁, hsound, -⟩
    · rw [hnone] at hrun
      simp at hrun
    · rw [hrun₁] at hrun
      obtain ⟨rfl, -⟩ := Prod.mk.inj (Option.some.inj hrun)
      exact hsound
  refine ⟨hs, hs.acyclic, fun call hvalid => ?_, fun call s' ok hrun => ?_⟩
  · rcases run_spec hs call with ⟨-, hno⟩ | ⟨s', ok, hrun, -⟩
    · exact absurd hvalid hno
    · exact ⟨s', ok, hrun⟩
  · rcases run_spec hs call with ⟨hnone, -⟩ | ⟨s₁, ok₁, hrun₁, -, heffect⟩
    · rw [hnone] at hrun
      simp at hrun
    · rw [hrun₁] at hrun
      obtain ⟨rfl, rfl⟩ := Prod.mk.inj (Option.some.inj hrun)
      exact heffect

/-- Two copies of a FAT with eight entries. The first file has the clusters 3 and 5, the second one
has none, and the clusters 2, 4, 6 and 7 are free. -/
def sample : Disk (Fin 2) where
  fs := {
    fatcount := 2, free := 4, startat := 2, clustersize := 4, entries := 8
    fat := fun _ c =>
      if c = 3 then 5 else if c = 5 ∨ c < 2 then 0xfffffff else 0
    data := fun _ _ => 0xff }
  start := fun f => if f = 0 then 3 else 0

theorem sample_sound : Sound sample where
  exact := by
    refine ⟨by decide, fun _ _ _ _ => rfl, by decide, by decide, by decide, ?_⟩
    intro c hc
    have hc' : c < 2 := hc
    have : c = 0 ∨ c = 1 := by omega
    rcases this with rfl | rfl <;> decide
  chains := by
    intro f
    by_cases hf : f = 0
    · subst hf
      exact .some (l := [3, 5]) (by decide) (by decide : finalCluster ≤ 0xfffffff) (by decide)
        (by decide)
    · have hf' : f = 1 := by omega
      subst hf'
      exact .none
  disjoint := by decide

/-- The first file gets a third cluster, and then the second one gets the other three. -/
theorem chains_sound_sample :
    ∃ s, Reach Disk.Step anyStep sample s ∧ s.chain 0 = [3, 5, 2] ∧ s.chain 1 = [4, 6, 7]
      ∧ Sound s := by
  have hrun : ((sample.run (.resize 0 3 true)).bind fun r =>
      (r.1.run (.allocate 1 3 true)).map fun r => (r.2, r.1.chain 0, r.1.chain 1))
      = some (true, [3, 5, 2], [4, 6, 7]) := by
    decide +kernel
  obtain ⟨⟨s₁, ok₁⟩, h₁, hrest⟩ := Option.bind_eq_some_iff.mp hrun
  obtain ⟨⟨s₂, ok₂⟩, h₂, hchains⟩ := Option.map_eq_some_iff.mp hrest
  obtain ⟨-, hc⟩ := Prod.mk.inj hchains
  obtain ⟨hc₀, hc₁⟩ := Prod.mk.inj hc
  have hreach : Reach Disk.Step anyStep sample s₂ :=
    .tail (.tail .refl trivial ⟨ok₁, h₁⟩) trivial ⟨ok₂, h₂⟩
  exact ⟨s₂, hreach, hc₀, hc₁, (chains_sound sample_sound hreach).1⟩

end Lyre.Fat32
