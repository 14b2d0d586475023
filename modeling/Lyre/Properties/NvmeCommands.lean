import Lyre.Dev.NvmeQueue
import Lyre.Infra.Run
import Mathlib.Tactic.IntervalCases

/-!
# What the commands of a namespace ask for

A command is as it should be (`Right`) if it stays inside the namespace, if its entries are the pages of
its buffer, and if the entries of its list are in `physregpgs`. That is so exactly (`Fitting`) if it
begins inside the namespace, and either is for one page, or for more than two pages with LBAs of one page
at the beginning of a page, as long as fewer commands than the queue has elements have been issued.

* `commands_right_iff` — which commands of a run are right
-/

namespace Lyre.NvmeQueue

open Infra

variable {ns ns' : Nsdevice} {buf start count slot block pos loc progress fuel : Nat} {write : Bool}
  {x : Issued} {l : List (Nat × Nat)}

/-! ## What a command should be -/

/-- The pages that `bytes` bytes at `buf` are in: where the bytes begin, and the pages behind. -/
def pages (buf bytes : Nat) : List Nat :=
  buf :: (List.range ((buf % pageSize + bytes + (pageSize - 1)) / pageSize - 1)).map
    fun i => buf - buf % pageSize + pageSize + i * pageSize

/-- The entries of a command. -/
def Issued.entries (x : Issued) : List Nat :=
  match x.list with
  | some written => x.cmd.prp1 :: written.map Prod.snd
  | none => if x.cmd.prp2 = 0 then [x.cmd.prp1] else [x.cmd.prp1, x.cmd.prp2]

/-- The places of `physregpgs` that a command uses. -/
def Issued.places (x : Issued) : List Nat := (x.list.getD []).map Prod.fst

/-- A command is for `len + 1` blocks. -/
structure Right (ns : Nsdevice) (x : Issued) : Prop where
  inside : ∀ k ≤ x.cmd.len, x.cmd.slba + k < ns.lbacount
  entries : x.entries = pages x.buf ((x.cmd.len + 1) * ns.lbasize)
  places : ∀ i ∈ x.places, i < ns.maxphysrpgs * ns.queue.elements

/-- The bytes that are left of four blocks at the end of the namespace. -/
def bytesAt (ns : Nsdevice) (start : Nat) : Nat := min 4 (ns.lbacount - start) * ns.lbasize

/-- When the command for a buffer is right. The second case needs a buffer at the physical address 0,
which is none. -/
def Fitting (ns : Nsdevice) (start buf cmdid : Nat) : Prop :=
  start < ns.lbacount ∧ start + 4 < 2 ^ 64 ∧
    (buf % pageSize + bytesAt ns start ≤ pageSize ∨
      buf = 0 ∧ pageSize < bytesAt ns start ∧ bytesAt ns start ≤ pageSize * 2 ∨
      pageSize * 2 < bytesAt ns start ∧ ns.lbasize = pageSize ∧ buf % pageSize = 0 ∧
        cmdid < ns.queue.elements)

/-- What is fixed when a namespace is found: LBAs of a power of two, and four of them in a block. -/
structure Geometry (ns : Nsdevice) : Prop where
  lbasize : ∃ k < 31, ns.lbasize = 2 ^ k
  cacheblocksize : ns.cacheblocksize = ns.lbasize * 4
  lbacount : ns.lbacount < 2 ^ 64

theorem Geometry.lbasize_pos (h : Geometry ns) : 0 < ns.lbasize := by
  obtain ⟨k, -, hk⟩ := h.lbasize
  rw [hk]
  exact Nat.two_pow_pos k

theorem Geometry.le (h : Geometry ns) : ns.lbasize ≤ 2 ^ 30 := by
  obtain ⟨k, hk, hsize⟩ := h.lbasize
  rw [hsize]
  exact Nat.pow_le_pow_right (by decide) (by omega)

theorem Geometry.blocks (h : Geometry ns) : ns.cacheblocksize / ns.lbasize = 4 := by
  rw [h.cacheblocksize]
  exact Nat.mul_div_cancel_left 4 h.lbasize_pos

/-! ## One command -/

theorem rwlbaCount_inside (hstart : start < ns.lbacount) (h : start + 4 < 2 ^ 64) :
    rwlbaCount ns start 4 = min 4 (ns.lbacount - start) := by
  unfold rwlbaCount sub64 u64
  split <;> omega

theorem rwlbaCount_wrapped (hg : Geometry ns) (hstart : start < ns.lbacount)
    (h : 2 ^ 64 ≤ start + 4) : rwlbaCount ns start 4 = 4 := by
  have hlt := hg.lbacount
  unfold rwlbaCount u64
  rw [if_neg (by omega)]

theorem entries_one (h : x.list = none) (hzero : x.cmd.prp2 = 0) : x.entries = [x.cmd.prp1] := by
  unfold Issued.entries
  rw [h]
  exact if_pos hzero

theorem entries_two (h : x.list = none) (hne : x.cmd.prp2 ≠ 0) :
    x.entries = [x.cmd.prp1, x.cmd.prp2] := by
  unfold Issued.entries
  rw [h]
  exact if_neg hne

theorem entries_list (h : x.list = some l) : x.entries = x.cmd.prp1 :: l.map Prod.snd := by
  unfold Issued.entries
  rw [h]

theorem places_list (h : x.list = some l) : x.places = l.map Prod.fst := by
  unfold Issued.places
  rw [h, Option.getD_some]

theorem rwlbaCmd_some (h : rwlbaCmd ns buf start count write = some x) :
    x.buf = buf ∧ x.cmdid = ns.queue.cmdid ∧ x.cmd.slba = start ∧
      x.cmd.len = sub64 (rwlbaCount ns start count) 1 % 2 ^ 16 ∧
      (u64 (rwlbaCount ns start count * ns.lbasize) ≤ pageSize ∧ x.entries = [buf] ∧ x.places = [] ∨
        pageSize < u64 (rwlbaCount ns start count * ns.lbasize) ∧
          u64 (rwlbaCount ns start count * ns.lbasize) ≤ pageSize * 2 ∧
          x.entries = [0, buf + pageSize] ∧ x.places = [] ∨
        pageSize * 2 < u64 (rwlbaCount ns start count * ns.lbasize) ∧
          prpCount ns (rwlbaCount ns start count) ≤ ns.maxphysrpgs ∧
          x.entries = buf :: (prpList ns buf (prpCount ns (rwlbaCount ns start count))).map Prod.snd ∧
          x.places = (prpList ns buf (prpCount ns (rwlbaCount ns start count))).map Prod.fst) := by
  unfold rwlbaCmd at h
  simp only at h
  split at h
  · next hone =>
    split at h
    · next htwo =>
      split at h
      · simp at h
      · next hmax =>
        obtain rfl := Option.some.inj h
        exact ⟨rfl, rfl, rfl, rfl, .inr (.inr ⟨htwo, Nat.le_of_not_lt hmax, entries_list rfl,
          places_list rfl⟩)⟩
    · next htwo =>
      obtain rfl := Option.some.inj h
      have hne : buf + pageSize ≠ 0 := by
        unfold pageSize
        omega
      exact ⟨rfl, rfl, rfl, rfl, .inr (.inl ⟨hone, Nat.le_of_not_lt htwo,
        entries_two rfl hne, rfl⟩)⟩
  · next hone =>
    obtain rfl := Option.some.inj h
    exact ⟨rfl, rfl, rfl, rfl, .inl ⟨Nat.le_of_not_lt hone, entries_one rfl rfl, rfl⟩⟩

/-- The number of pages behind the first one. -/
def pagesBehind (buf bytes : Nat) : Nat := (buf % pageSize + bytes + (pageSize - 1)) / pageSize - 1

theorem map_range_inj {α : Type} {f : Nat → α} {n m : Nat} :
    (List.range n).map f = (List.range m).map f ↔ n = m := by
  constructor
  · intro h
    simpa using congrArg List.length h
  · rintro rfl
    rfl

theorem pages_one {bytes : Nat} :
    [buf] = pages buf bytes ↔ buf % pageSize + bytes ≤ pageSize := by
  have hzero : [buf] = pages buf bytes ↔ pagesBehind buf bytes = 0 := by
    unfold pages
    rw [List.cons_inj_right, eq_comm, List.map_eq_nil_iff, List.range_eq_nil]
    rfl
  rw [hzero]
  unfold pagesBehind pageSize
  omega

theorem pages_two {bytes : Nat} (hlow : pageSize < bytes) (hhigh : bytes ≤ pageSize * 2) :
    [0, buf + pageSize] = pages buf bytes ↔ buf = 0 := by
  constructor
  · intro h
    exact (List.cons.inj h).1.symm
  · rintro rfl
    have hbehind : (0 % pageSize + bytes + (pageSize - 1)) / pageSize - 1 = 1 := by
      unfold pageSize at *
      omega
    unfold pages
    rw [hbehind, List.range_one, List.map_singleton]
    simp

theorem pages_list {bytes n : Nat} :
    buf :: (prpList ns buf n).map Prod.snd = pages buf bytes ↔ n = pagesBehind buf bytes := by
  have hsnd : (prpList ns buf n).map Prod.snd =
      (List.range n).map fun i => buf - buf % pageSize + pageSize + i * pageSize := by
    unfold prpList
    rw [List.map_map]
    rfl
  unfold pages
  rw [hsnd, List.cons_inj_right]
  exact map_range_inj

theorem behind_iff {c k : Nat} (hc : 1 ≤ c ∧ c ≤ 4) (hlong : pageSize * 2 < c * 2 ^ k) :
    (c - 1) * 2 ^ k / pageSize = pagesBehind buf (c * 2 ^ k) ↔
      2 ^ k = pageSize ∧ buf % pageSize = 0 := by
  have hk : 12 ≤ k := by
    by_contra hsmall
    have hle : 2 ^ k ≤ 2 ^ 11 := Nat.pow_le_pow_right (by decide) (by omega)
    have hfour : c * 2 ^ k ≤ 4 * 2 ^ 11 := Nat.mul_le_mul hc.2 hle
    unfold pageSize at hlong
    omega
  obtain ⟨m, hm, hpos⟩ : ∃ m, 2 ^ k = 4096 * m ∧ 0 < m :=
    ⟨2 ^ (k - 12), by rw [show 4096 = 2 ^ 12 by decide, ← Nat.pow_add, Nat.add_sub_cancel' hk],
      Nat.two_pow_pos _⟩
  unfold pagesBehind pageSize
  rw [hm]
  obtain ⟨hlow, hhigh⟩ := hc
  interval_cases c <;> omega

/-- The entries of the list have their places, if the queue has an element for the command. -/
theorem places_iff {n : Nat} (hn : 0 < n) (hmax : n ≤ ns.maxphysrpgs) {elements : Nat} :
    (∀ i ∈ (prpList ns buf n).map Prod.fst, i < ns.maxphysrpgs * elements) ↔
      ns.queue.cmdid < elements := by
  have hpos : 0 < ns.maxphysrpgs := Nat.lt_of_lt_of_le hn hmax
  constructor
  · intro h
    have hfirst : ns.queue.cmdid * ns.maxphysrpgs ∈ (prpList ns buf n).map Prod.fst := by
      unfold prpList
      rw [List.map_map]
      exact List.mem_map.mpr ⟨0, List.mem_range.mpr hn, Nat.zero_add _⟩
    have hlt := h _ hfirst
    rw [Nat.mul_comm] at hlt
    exact Nat.lt_of_mul_lt_mul_left hlt
  · intro hlt i hi
    unfold prpList at hi
    rw [List.map_map] at hi
    obtain ⟨j, hj, rfl⟩ := List.mem_map.mp hi
    have hj' := List.mem_range.mp hj
    calc j + ns.queue.cmdid * ns.maxphysrpgs
        < ns.maxphysrpgs + ns.queue.cmdid * ns.maxphysrpgs := by omega
      _ = ns.maxphysrpgs * (ns.queue.cmdid + 1) := by rw [Nat.mul_succ, Nat.mul_comm, Nat.add_comm]
      _ ≤ ns.maxphysrpgs * elements := Nat.mul_le_mul_left _ hlt

/-- **When a command is right.** -/
theorem right_iff (hg : Geometry ns) (h : rwlbaCmd ns buf start 4 write = some x) :
    Right ns x ↔ Fitting ns start buf ns.queue.cmdid := by
  obtain ⟨hbuf, -, hslba, hlen, hcases⟩ := rwlbaCmd_some h
  have hlt := hg.lbacount
  by_cases hstart : start < ns.lbacount
  swap
  · refine ⟨fun hr => absurd ?_ hstart, fun hf => absurd hf.1 hstart⟩
    have hfirst := hr.inside 0 (Nat.zero_le _)
    rwa [hslba] at hfirst
  by_cases hwrap : start + 4 < 2 ^ 64
  swap
  · refine ⟨fun hr => ?_, fun hf => absurd hf.2.1 hwrap⟩
    -- the last of the four blocks is not inside
    rw [rwlbaCount_wrapped hg hstart (Nat.le_of_not_lt hwrap)] at hlen
    have hlast := hr.inside 3 (by rw [hlen]; decide)
    rw [hslba] at hlast
    omega
  obtain ⟨k, hk, hsize⟩ := hg.lbasize
  have hle : ns.lbasize ≤ 2 ^ 30 := hg.le
  rw [rwlbaCount_inside hstart hwrap] at hlen hcases
  generalize hc : min 4 (ns.lbacount - start) = c at hlen hcases
  have hc' : 1 ≤ c ∧ c ≤ 4 := by omega
  have hlen' : x.cmd.len + 1 = c := by
    rw [hlen]
    unfold sub64 u64
    omega
  have hbytes : bytesAt ns start = c * ns.lbasize := by
    unfold bytesAt
    rw [hc]
  have hsmall : c * ns.lbasize < 2 ^ 64 := by
    have hfour : c * ns.lbasize ≤ 4 * 2 ^ 30 := Nat.mul_le_mul hc'.2 hle
    omega
  have hinside : ∀ j ≤ x.cmd.len, x.cmd.slba + j < ns.lbacount := by
    intro j hj
    rw [hslba]
    omega
  rw [u64_of_lt hsmall] at hcases
  unfold Fitting
  rw [hbytes]
  rcases hcases with ⟨hone, hent, hpl⟩ | ⟨hlow, hhigh, hent, hpl⟩ | ⟨hlong, hmax, hent, hpl⟩
  · -- one page
    constructor
    · intro hr
      have heq := hr.entries
      rw [hent, hbuf, hlen', pages_one] at heq
      exact ⟨hstart, hwrap, .inl heq⟩
    · rintro ⟨-, -, hfit | ⟨-, hlow, -⟩ | ⟨hlow, -⟩⟩
      · refine ⟨hinside, ?_, ?_⟩
        · rw [hent, hbuf, hlen', pages_one]
          exact hfit
        · rw [hpl]
          exact fun i hi => absurd hi List.not_mem_nil
      · exact absurd hone (Nat.not_le_of_lt hlow)
      · unfold pageSize at *
        omega
  · -- two pages
    constructor
    · intro hr
      have heq := hr.entries
      rw [hent, hbuf, hlen', pages_two hlow hhigh] at heq
      exact ⟨hstart, hwrap, .inr (.inl ⟨heq, hlow, hhigh⟩)⟩
    · rintro ⟨-, -, hfit | ⟨hzero, -⟩ | ⟨hlong, -⟩⟩
      · unfold pageSize at *
        omega
      · refine ⟨hinside, ?_, ?_⟩
        · rw [hent, hbuf, hlen', pages_two hlow hhigh]
          exact hzero
        · rw [hpl]
          exact fun i hi => absurd hi List.not_mem_nil
      · exact absurd hhigh (Nat.not_le_of_lt hlong)
  · -- a list
    have hcount : prpCount ns c = (c - 1) * 2 ^ k / pageSize := by
      have hsub : sub64 c 1 = c - 1 := by
        unfold sub64 u64
        omega
      unfold prpCount
      rw [hsub, hsize, u64_of_lt]
      rw [hsize] at hsmall
      exact Nat.lt_of_le_of_lt (Nat.mul_le_mul_right _ (Nat.sub_le c 1)) hsmall
    have hbehind : (c - 1) * 2 ^ k / pageSize = pagesBehind buf (c * 2 ^ k) ↔ _ :=
      behind_iff hc' (by rw [← hsize]; exact hlong)
    have hn : ns.lbasize = pageSize → 0 < prpCount ns c := by
      intro hpage
      rw [hcount, ← hsize, hpage, Nat.mul_div_cancel _ (by decide)]
      rw [hpage] at hlong
      have htwo : 2 < c := Nat.lt_of_mul_lt_mul_left (Nat.mul_comm c pageSize ▸ hlong)
      omega
    constructor
    · intro hr
      have heq := hr.entries
      rw [hent, hbuf, hlen', pages_list, hcount, hsize, hbehind] at heq
      have hpage : ns.lbasize = pageSize := hsize.trans heq.1
      have hplaces := hr.places
      rw [hpl, places_iff (hn hpage) hmax] at hplaces
      exact ⟨hstart, hwrap, .inr (.inr ⟨hlong, hpage, heq.2, hplaces⟩)⟩
    · rintro ⟨-, -, hfit | ⟨-, -, hhigh⟩ | ⟨-, hpage, haligned, hcmdid⟩⟩
      · unfold pageSize at *
        omega
      · exact absurd hhigh (Nat.not_le_of_lt hlong)
      · refine ⟨hinside, ?_, ?_⟩
        · rw [hent, hbuf, hlen', pages_list, hcount, hsize, hbehind]
          exact ⟨hsize.symm.trans hpage, haligned⟩
        · rw [hpl, places_iff (hn hpage) hmax]
          exact hcmdid

/-! ## Runs -/

/-- What is fixed. -/
structure Same (ns ns' : Nsdevice) : Prop where
  lbasize : ns'.lbasize = ns.lbasize
  lbacount : ns'.lbacount = ns.lbacount
  cacheblocksize : ns'.cacheblocksize = ns.cacheblocksize
  maxphysrpgs : ns'.maxphysrpgs = ns.maxphysrpgs
  elements : ns'.queue.elements = ns.queue.elements

theorem Same.trans {ns'' : Nsdevice} (h : Same ns ns') (h' : Same ns' ns'') : Same ns ns'' :=
  ⟨h'.lbasize.trans h.lbasize, h'.lbacount.trans h.lbacount,
    h'.cacheblocksize.trans h.cacheblocksize, h'.maxphysrpgs.trans h.maxphysrpgs,
    h'.elements.trans h.elements⟩

theorem Same.geometry (h : Same ns ns') (hg : Geometry ns) : Geometry ns' where
  lbasize := by
    rw [h.lbasize]
    exact hg.lbasize
  cacheblocksize := by
    rw [h.cacheblocksize, h.lbasize]
    exact hg.cacheblocksize
  lbacount := by
    rw [h.lbacount]
    exact hg.lbacount

theorem Same.fitting (h : Same ns ns') {cmdid : Nat} :
    Fitting ns' start buf cmdid ↔ Fitting ns start buf cmdid := by
  unfold Fitting bytesAt
  rw [h.lbasize, h.lbacount, h.elements]

theorem Same.right (h : Same ns ns') : Right ns' x ↔ Right ns x := by
  constructor
  · rintro ⟨hinside, hentries, hplaces⟩
    rw [h.lbacount] at hinside
    rw [h.lbasize] at hentries
    rw [h.maxphysrpgs, h.elements] at hplaces
    exact ⟨hinside, hentries, hplaces⟩
  · rintro ⟨hinside, hentries, hplaces⟩
    refine ⟨?_, ?_, ?_⟩
    · rw [h.lbacount]
      exact hinside
    · rw [h.lbasize]
      exact hentries
    · rw [h.maxphysrpgs, h.elements]
      exact hplaces

/-- The commands are numbered in their order. -/
def Numbered : List Issued → Prop
  | [] => True
  | x :: xs => x.cmdid = xs.length % 2 ^ 32 ∧ Numbered xs

/-- What holds of a namespace that has been `ns₀`. -/
structure Kept (ns₀ ns : Nsdevice) : Prop where
  same : Same ns₀ ns
  right : ∀ x ∈ ns.issued, Right ns₀ x ↔ Fitting ns₀ x.cmd.slba x.buf x.cmdid
  numbered : Numbered ns.issued
  cmdid : ns.queue.cmdid = ns.issued.length % 2 ^ 32

theorem Kept.quiet {ns₀ : Nsdevice} (h : Kept ns₀ ns) (same : Same ns ns')
    (hissued : ns'.issued = ns.issued) (hcmdid : ns'.queue.cmdid = ns.queue.cmdid) : Kept ns₀ ns' where
  same := h.same.trans same
  right := by
    rw [hissued]
    exact h.right
  numbered := by
    rw [hissued]
    exact h.numbered
  cmdid := by
    rw [hissued, hcmdid]
    exact h.cmdid

theorem awaitsubmitcmd_spec (queue : Queue) :
    (nvmeAwaitsubmitcmd queue).elements = queue.elements ∧
      (nvmeAwaitsubmitcmd queue).cmdid = (queue.cmdid + 1) % 2 ^ 32 := by
  unfold nvmeAwaitsubmitcmd nvmeSubmitcmd
  simp only
  split <;> exact ⟨rfl, rfl⟩

theorem nvmeRwlba_kept {ns₀ : Nsdevice} (hg : Geometry ns₀) (h : Kept ns₀ ns) :
    Kept ns₀ (nvmeRwlba ns buf start 4 write) := by
  unfold nvmeRwlba
  split
  · exact h
  cases hcmd : rwlbaCmd ns buf start 4 write with
  | none => exact h.quiet ⟨rfl, rfl, rfl, rfl, rfl⟩ rfl rfl
  | some x =>
    obtain ⟨helements, hcmdid⟩ := awaitsubmitcmd_spec ns.queue
    obtain ⟨hbuf, hx, hslba, -⟩ := rwlbaCmd_some hcmd
    refine ⟨h.same.trans ⟨rfl, rfl, rfl, rfl, helements⟩, fun y hy => ?_,
      ⟨hx.trans h.cmdid, h.numbered⟩, ?_⟩
    · rcases List.mem_cons.mp hy with rfl | hy
      · rw [hslba, hbuf, hx, ← h.same.right, ← h.same.fitting]
        exact right_iff (h.same.geometry hg) hcmd
      · exact h.right y hy
    · rw [hcmdid, h.cmdid, List.length_cons, Nat.mod_add_mod]

theorem transfer_kept {ns₀ : Nsdevice} (hg : Geometry ns₀) (h : Kept ns₀ ns) :
    Kept ns₀ (transfer ns slot block write) := by
  unfold transfer
  rw [(h.same.geometry hg).blocks]
  exact nvmeRwlba_kept hg h

theorem setSlot_kept {ns₀ : Nsdevice} (h : Kept ns₀ ns) (b : Cachedblock) :
    Kept ns₀ (ns.setSlot slot b) :=
  h.quiet ⟨rfl, rfl, rfl, rfl, rfl⟩ rfl rfl

theorem cacheTarget_kept {ns₀ : Nsdevice} (h : Kept ns₀ ns) : Kept ns₀ (cacheTarget ns).2 := by
  unfold cacheTarget
  split
  · exact setSlot_kept h _
  · split
    · exact h.quiet ⟨rfl, rfl, rfl, rfl, rfl⟩ rfl rfl
    · exact h.quiet ⟨rfl, rfl, rfl, rfl, rfl⟩ rfl rfl

theorem nvmeCacheblock_kept {ns₀ : Nsdevice} (hg : Geometry ns₀) (h : Kept ns₀ ns) (block : Nat) :
    Kept ns₀ (nvmeCacheblock ns block).2 := by
  have htarget := cacheTarget_kept h
  unfold nvmeCacheblock
  generalize cacheTarget ns = t at htarget ⊢
  exact setSlot_kept (transfer_kept hg htarget) _

theorem slotOf_kept {ns₀ : Nsdevice} (hg : Geometry ns₀) (h : Kept ns₀ ns) (sector : Nat) :
    Kept ns₀ (slotOf ns sector).2 := by
  unfold slotOf
  split
  · exact h
  · exact nvmeCacheblock_kept hg h sector

theorem turn_kept {ns₀ : Nsdevice} (hg : Geometry ns₀) (h : Kept ns₀ ns) :
    Kept ns₀ (turn ns pos write) := by
  have hslot := slotOf_kept hg h (pos / ns.cacheblocksize)
  unfold turn
  generalize slotOf ns (pos / ns.cacheblocksize) = t at hslot ⊢
  cases write with
  | false => exact hslot
  | true => exact transfer_kept hg (setSlot_kept hslot _)

theorem chunkAt_pos (hg : Geometry ns) {left : Nat} (hleft : 0 < left) : 0 < chunkAt ns pos left := by
  have hpos : 0 < ns.cacheblocksize := by
    rw [hg.cacheblocksize]
    exact Nat.mul_pos hg.lbasize_pos (by decide)
  have hoff := Nat.mod_lt pos hpos
  unfold chunkAt
  simp only
  split <;> omega

theorem rwLoop_kept {ns₀ : Nsdevice} (hg : Geometry ns₀) (h : Kept ns₀ ns)
    (hfuel : count - progress < fuel) :
    ∃ ns', rwLoop loc count write fuel ns progress = some ns' ∧ Kept ns₀ ns' := by
  induction fuel generalizing ns progress with
  | zero => exact absurd hfuel (Nat.not_lt_zero _)
  | succ fuel ih =>
    unfold rwLoop
    split
    · next hlt =>
      have hchunk : 0 < chunkAt ns (u64 (loc + progress)) (count - progress) :=
        chunkAt_pos (h.same.geometry hg) (Nat.sub_pos_of_lt hlt)
      exact ih (turn_kept hg h) (by omega)
    · exact ⟨ns, rfl, h⟩

structure Call where
  loc : Nat
  count : Nat
  write : Bool

/-- A call of `nvme_read` or `nvme_write`. -/
def Step (ns : Nsdevice) (c : Call) (ns' : Nsdevice) : Prop :=
  nvmeReadWrite ns c.loc c.count c.write = some (ns', c.count)

theorem call_kept {ns₀ : Nsdevice} (hg : Geometry ns₀) (h : Kept ns₀ ns) (c : Call) :
    ∃ ns', Step ns c ns' ∧ Kept ns₀ ns' := by
  obtain ⟨ns', hloop, h'⟩ := @rwLoop_kept ns c.count c.loc 0 (c.count + 1) c.write _ hg h (by omega)
  refine ⟨ns', ?_, h'⟩
  unfold Step nvmeReadWrite
  rw [hloop]
  rfl

/-- **Which commands are right**, in every run of calls: those that are fitting, and a command that is
not has been issued all the same. A command has the number of those before it, and every call returns. -/
theorem commands_right_iff {id lbashift size maxtransshift queueslots physregpgs : Nat}
    {buffers : Nat → Nat} (hshift : lbashift < 31) (hsize : size < 2 ^ 64)
    (h : Reach Step anyStep
      (nvmeInitnamespace id lbashift size maxtransshift queueslots physregpgs buffers) ns) :
    (∀ x ∈ ns.issued,
      Right (nvmeInitnamespace id lbashift size maxtransshift queueslots physregpgs buffers) x ↔
        Fitting (nvmeInitnamespace id lbashift size maxtransshift queueslots physregpgs buffers)
          x.cmd.slba x.buf x.cmdid) ∧
    Numbered ns.issued ∧ ∀ c, ∃ ns', Step ns c ns' := by
  have hg : Geometry
      (nvmeInitnamespace id lbashift size maxtransshift queueslots physregpgs buffers) :=
    ⟨⟨lbashift, hshift, rfl⟩, rfl, hsize⟩
  have hkept := h.invariant (I := Kept _)
    ⟨⟨rfl, rfl, rfl, rfl, rfl⟩, fun x hx => absurd hx List.not_mem_nil, trivial, rfl⟩
    fun s c s' hs _ hstep => by
      obtain ⟨s'', hstep', hs''⟩ := call_kept hg hs c
      obtain ⟨rfl, -⟩ := Prod.mk.inj (Option.some.inj (hstep.symm.trans hstep'))
      exact hs''
  refine ⟨hkept.right, hkept.numbered, fun c => ?_⟩
  obtain ⟨ns', hstep, -⟩ := call_kept hg hkept c
  exact ⟨ns', hstep⟩

theorem reach_call {c : Call} {issued : List Issued}
    (h : (nvmeReadWrite ns c.loc c.count c.write).map (fun r => r.1.issued) = some issued) :
    ∃ ns', Reach Step anyStep ns ns' ∧ ns'.issued = issued := by
  obtain ⟨⟨ns', n⟩, hcall, rfl⟩ := Option.map_eq_some_iff.mp h
  have hn : n = c.count := by
    obtain ⟨_, -, heq⟩ := Option.map_eq_some_iff.mp hcall
    exact (Prod.mk.inj heq).2.symm
  have hstep : Step ns c ns' := by
    unfold Step
    rw [hcall, hn]
  exact ⟨ns', Reach.refl.tail trivial hstep, rfl⟩

/-- A namespace of eight LBAs. -/
def eightLbas : Nsdevice :=
  nvmeInitnamespace 1 9 8 20 64 0x100000 fun i => 0x200000 + 4096 * i

/-- The first byte. -/
theorem commands_right_first :
    Right eightLbas ⟨⟨false, 0, 1, 0, 3, 0x200000, 0⟩, 0x200000, 0, none⟩ := by
  have hcall : (nvmeReadWrite eightLbas 0 1 false).map (fun r => r.1.issued) =
      some [⟨⟨false, 0, 1, 0, 3, 0x200000, 0⟩, 0x200000, 0, none⟩] := by decide +kernel
  obtain ⟨ns, hrun, hissued⟩ := reach_call (c := ⟨0, 1, false⟩) hcall
  have hright := (commands_right_iff (by decide) (by decide) hrun).1
  refine (hright _ ?_).mpr ⟨by decide, by decide, .inl (by decide)⟩
  rw [hissued]
  exact List.mem_singleton.mpr rfl

/-- A byte behind the last one is read with a command for 65536 blocks. -/
theorem read_behind_last :
    ¬ ∀ {id lbashift size maxtransshift queueslots physregpgs : Nat} {buffers : Nat → Nat}
      {ns : Nsdevice}, lbashift < 31 → size < 2 ^ 64 →
      Reach Step anyStep
        (nvmeInitnamespace id lbashift size maxtransshift queueslots physregpgs buffers) ns →
      ∀ x ∈ ns.issued,
        Right (nvmeInitnamespace id lbashift size maxtransshift queueslots physregpgs buffers) x := by
  intro h
  have hcall : (nvmeReadWrite eightLbas 4096 1 false).map (fun r => r.1.issued) =
      some [⟨⟨false, 0, 1, 8, 65535, 0x200000, 0⟩, 0x200000, 0, none⟩] := by decide +kernel
  obtain ⟨ns, hrun, hissued⟩ := reach_call (c := ⟨4096, 1, false⟩) hcall
  have hright := h (by decide) (by decide) hrun _
    (by rw [hissued]; exact List.mem_singleton.mpr rfl)
  exact absurd (hright.inside 0 (by decide)) (by decide)

end Lyre.NvmeQueue
