import Lyre.Properties.MmapFrame

/-!
# What `mprotect` leaves in its interval

The loop of `mprotect` takes the range of a page from `addr2range` without looking whether there is
one, and like `munmap` it moves its cursor past a snip and then once more. So it does what it should
only if the whole interval is in ranges, and if no two of them that meet there both need another
protection.

* `Progress` — what is known when the loop looks at a page;
* `mprotect_meets` — the first page of the second of two such ranges keeps its protection;
* `mprotect_iff` — when the interval gets its protection.
-/

namespace Lyre.Vmm

open Infra.Radix

section

variable {σ : Type} {A : PageAllocator σ} {roots : Nat → Prop} {s s' : State σ} {r v flags : Nat}

/-- The flags of the page, if it is mapped. -/
def Flagged (s : State σ) (r flags v : Nat) : Prop :=
  Present s r v → pteGetFlags (pte s r v) = flags

instance : Decidable (Flagged s r flags v) := inferInstanceAs (Decidable (_ → _))

theorem Flagged.congr (h : Flagged s r flags v) (hp : pte s' r v = pte s r v) :
    Flagged s' r flags v := by
  unfold Flagged Present at *
  rw [hp]
  exact h

theorem vmmFlagPage_flagged (h : Tables roots s) (hr : roots r) (hf : PageFlags flags) (j : Nat)
    (hs : SameEntry upperHalf r j r v) : Flagged (vmmFlagPage A s r j flags).2 r flags v := by
  obtain ⟨hed, hpte⟩ := replace_edits (A := A) (f := fun e => pteGetAddr e ||| flags)
    (g := fun s r virt => vmmFlagPage A s r virt flags) (fun _ _ _ => rfl) h hr j
  unfold Flagged Present
  rw [hed.tables.pte_eq hr hr hs, hpte]
  split
  · intro _
    exact pteGetFlags_or (pageAddr_pteGetAddr _) hf
  · next hno => exact fun hp => absurd hp hno

theorem flagLoop_entries {b e : Nat} (h : Tables roots s) (hr : roots r) (hf : PageFlags flags)
    (hb : pageSize ∣ b) (he : pageSize ∣ e) (hbe : b ≤ e) (hlt : e < 2 ^ 64) :
    let s' := Mmap.pageLoop (fun j vm => (vmmFlagPage A vm r j flags).2) e Mmap.loopFuel b s
    Edits roots (EntryIn r b e) s s' ∧ ∀ v, EntryIn r b e r v → Flagged s' r flags v := by
  refine (Mmap.pageLoop_rule (P := fun j s' => b ≤ j ∧ Edits roots (EntryIn r b j) s s' ∧
    ∀ v, EntryIn r b j r v → Flagged s' r flags v) he hlt ?_ hb hbe ?_
    ⟨Nat.le_refl _, .refl h, fun v ⟨j, _, hbj, hjb, _⟩ => absurd hjb (by omega)⟩).2
  · rintro j s' hj - ⟨hbj, hed, hflag⟩
    have hed' := vmmFlagPage_edits (A := A) hed.tables hr j flags
    refine ⟨by omega, (hed.mono fun r' v => ?_).trans (hed'.mono fun r' v hs => ?_), fun v hin => ?_⟩
    · rintro ⟨i, hi, hbi, hij, hs⟩
      exact ⟨i, hi, hbi, by omega, hs⟩
    · exact ⟨j, hj, hbj, by unfold pageSize; omega, hs⟩
    · by_cases hs : SameEntry upperHalf r j r v
      · exact vmmFlagPage_flagged hed.tables hr hf j hs
      · refine Flagged.congr (hflag v ?_) (hed'.keeps r v hr hs)
        obtain ⟨i, hi, hbi, hij, hs'⟩ := hin
        have hne : i ≠ j := fun hc => hs (hc ▸ hs')
        exact ⟨i, hi, hbi, by unfold pageSize at *; omega, hs'⟩
  · unfold Mmap.loopFuel pageSize
    omega

end

end Lyre.Vmm

namespace Lyre.Mmap

open Vmm Infra

section

variable {σ : Type} {A : PageAllocator σ} {roots : Nat → Prop} {s t t' s' : State σ}
  {pm id b e i q v addr stop length : Nat} {prot : Prot}

/-! ## One turn -/

theorem mprotectSnip_new (h : Snip (s.locals id) b e)
    (hs : mprotectSnip A s pm id prot b e = some s') :
    ∃ n ∈ s'.ranges pm, s'.locals n = (s.locals id).withProt prot b e := by
  rcases mprotectSnip_cases (A := A) h hs with ⟨-, rfl⟩ | ⟨-, rfl⟩
  · refine ⟨s.nextId, ?_, Function.update_self ..⟩
    simp [pushRange, setLocal]
  · refine ⟨s.nextId + 1, ?_, Function.update_self ..⟩
    simp [pushRange, setLocal]

theorem mprotectSnip_left (hl : Listed s pm) (hid : id ∈ s.ranges pm) (h : Snip (s.locals id) b e)
    (hs : mprotectSnip A s pm id prot b e = some s') (hq : (s.locals id).Has q) (hqb : q < b) :
    id ∈ s'.ranges pm ∧ (s'.locals id).Has q ∧ (s'.locals id).prot = (s.locals id).prot := by
  have hlt := hl.lt id hid
  have hbase : b ≠ (s.locals id).base := by
    have := hq.1
    omega
  have hhas : ((s.locals id).before b).Has q := h.before_has.mpr ⟨hq.1, hqb⟩
  rcases mprotectSnip_cases (A := A) h hs with ⟨-, rfl⟩ | ⟨-, rfl⟩
  · have hself : (s.locals id).rest b e = (s.locals id).before b := if_neg hbase
    have hid' : (pushRange (setLocal (setLocal
        (flagPages A { s with nextId := s.nextId + 1 } pm prot b e) id ((s.locals id).rest b e))
        s.nextId ((s.locals id).withProt prot b e)) pm s.nextId).locals id
          = (s.locals id).before b := by
      rw [← hself]
      exact (Function.update_of_ne (Nat.ne_of_lt hlt) ..).trans (Function.update_self ..)
    rw [hid']
    refine ⟨?_, hhas, rfl⟩
    simp [pushRange, setLocal, flagPages, hid]
  · have hid' : (pushRange (setLocal (setLocal (pushRange (setLocal
        (flagPages A { s with nextId := s.nextId + 2 } pm prot b e)
          s.nextId ((s.locals id).after e)) pm s.nextId) id ((s.locals id).before b))
        (s.nextId + 1) ((s.locals id).withProt prot b e)) pm (s.nextId + 1)).locals id
          = (s.locals id).before b :=
      (Function.update_of_ne (by omega) ..).trans (Function.update_self ..)
    rw [hid']
    refine ⟨?_, hhas, rfl⟩
    simp [pushRange, setLocal, flagPages, hid]

theorem mprotectSnip_vm (h : Snip (s.locals id) b e)
    (hs : mprotectSnip A s pm id prot b e = some s') :
    s'.vm = (flagPages A s pm prot b e).vm ∧ s'.heapOk = s.heapOk := by
  rcases mprotectSnip_cases (A := A) h hs with ⟨-, rfl⟩ | ⟨-, rfl⟩ <;> exact ⟨rfl, rfl⟩

theorem mprotectSnip_isSome (h : ∀ n, s.heapOk n = true) (pm id b e : Nat) (prot : Prot) :
    ∃ s', mprotectSnip A s pm id prot b e = some s' := by
  have hnew : ∀ s : State σ, (∀ n, s.heapOk n = true) →
      ∃ s', newProtRange s pm id prot b e = some s' := by
    intro s h
    unfold newProtRange heapAlloc
    simp only [show (trimRange s id b e).heapOk = s.heapOk from rfl, h, if_true]
    exact ⟨_, rfl⟩
  unfold mprotectSnip heapAlloc
  simp only [h, if_true]
  split
  · exact hnew _ h
  · exact hnew _ h

/-! ## The loop -/

/-- Every page from `addr` on is in a range. -/
def AllCovered (s : State σ) (pm addr stop : Nat) : Prop :=
  ∀ v, addr ≤ v → v < stop → Covered s pm v

/-- Where one range ends and another begins, one of them has the protection. -/
def Unmet (s : State σ) (pm : Nat) (prot : Prot) (addr stop : Nat) : Prop :=
  ∀ x ∈ s.ranges pm, ∀ y ∈ s.ranges pm, (s.locals x).prot ≠ prot → (s.locals y).prot ≠ prot →
    ∀ q, addr < q → q < stop → (s.locals x).Has (q - 1) → (s.locals y).Has q → x = y

/-- The first page of the interval in a range. -/
structure LocalRange.First (l : LocalRange) (addr stop b : Nat) : Prop where
  has : l.Has b
  page : pageSize ∣ b
  le : addr ≤ b
  lt : b < stop
  begins : b = l.base ∨ b = addr

/-- The entry belongs to a page of the interval whose range needs another protection. -/
def Changing (s : State σ) (pm : Nat) (prot : Prot) (addr stop v : Nat) : Prop :=
  ∃ x ∈ s.ranges pm, (s.locals x).prot ≠ prot ∧
    ∃ j, pageSize ∣ j ∧ addr ≤ j ∧ j < stop ∧ (s.locals x).Has j ∧ SameEntry upperHalf pm j pm v

/-- The loop, which began in `s`, looks at page `i` in `t`. -/
structure Progress (roots : Nat → Prop) (s t : State σ) (pm : Nat) (prot : Prot)
    (addr stop i : Nat) : Prop where
  mapped : Mapped roots t pm
  heap : t.heapOk = s.heapOk
  aligned : pageSize ∣ i
  le : addr ≤ i
  /-- Ranges with the protection are not changed. -/
  good : ∀ x ∈ s.ranges pm, (s.locals x).prot = prot →
    x ∈ t.ranges pm ∧ t.locals x = s.locals x
  /-- Nor are those that the loop has not come to. -/
  ahead : i < stop → ∀ x ∈ s.ranges pm, i < (s.locals x).base + (s.locals x).length →
    x ∈ t.ranges pm ∧ t.locals x = s.locals x
  /-- The loop comes to the first page of a range. -/
  first : i < stop → ∀ x ∈ s.ranges pm, (s.locals x).prot ≠ prot → (s.locals x).Has i →
    i = (s.locals x).base ∨ i = addr
  behind : ∀ x ∈ s.ranges pm, (s.locals x).prot ≠ prot → ∀ b, (s.locals x).First addr stop b →
    b < i → min ((s.locals x).base + (s.locals x).length) stop + pageSize < 2 ^ 64 ∧
      ∃ n ∈ t.ranges pm, t.locals n =
        (s.locals x).withProt prot b (min ((s.locals x).base + (s.locals x).length) stop)
  changed : ∀ v, Changing s pm prot addr (min i stop) v → Flagged t.vm pm (ptFlags prot) v
  same : ∀ v, ¬ Changing s pm prot addr (min i stop) v → pte t.vm pm v = pte s.vm pm v
  null : ¬ Covered s pm 0 → ¬ Covered t pm 0

theorem Progress.start (hs : Mapped roots s pm) (haddr : pageSize ∣ addr) (prot : Prot)
    (stop : Nat) : Progress roots s s pm prot addr stop addr where
  mapped := hs
  heap := rfl
  aligned := haddr
  le := Nat.le_refl _
  good _ hx _ := ⟨hx, rfl⟩
  ahead _ _ hx _ := ⟨hx, rfl⟩
  first _ _ _ _ _ := Or.inr rfl
  behind x _ _ b hb hlt := absurd hb.le (by omega)
  changed v h := by
    obtain ⟨x, -, -, j, -, hle, hlt, -⟩ := h
    omega
  same _ _ := rfl
  null h := h

theorem Progress.current (hP : Progress roots s t pm prot addr stop i) (hi : i < stop)
    (hcov : Covered s pm i) (hid : id ∈ t.ranges pm) (hhas : (t.locals id).Has i) :
    id ∈ s.ranges pm ∧ t.locals id = s.locals id := by
  obtain ⟨x, hx, hxi⟩ := hcov
  obtain ⟨hxt, heq⟩ := hP.ahead hi x hx hxi.2
  obtain rfl := hP.mapped.eq_of_has hxt hid (heq ▸ hxi) hhas
  exact ⟨hx, heq⟩

theorem Progress.skip (hP : Progress roots s t pm prot addr stop i) (hs : Mapped roots s pm)
    (hstop : pageSize ∣ stop) (hi : i < stop) (hcov : Covered s pm i) (hid : id ∈ t.ranges pm)
    (hhas : (t.locals id).Has i) (hprot : (t.locals id).prot = prot) :
    Progress roots s t pm prot addr stop (i + pageSize) := by
  obtain ⟨hids, heq⟩ := hP.current hi hcov hid hhas
  rw [heq] at hhas hprot
  have hial := hP.aligned
  -- no range that needs another protection has the page
  have hno : ∀ x ∈ s.ranges pm, (s.locals x).prot ≠ prot → ¬ (s.locals x).Has i := by
    intro x hx hbad hxi
    obtain rfl := hs.eq_of_has hx hids hxi hhas
    exact hbad hprot
  have hchanging : ∀ v, Changing s pm prot addr (min (i + pageSize) stop) v →
      Changing s pm prot addr (min i stop) v := by
    rintro v ⟨x, hx, hbad, j, hj, hle, hlt, hxj, hsame⟩
    refine ⟨x, hx, hbad, j, hj, hle, ?_, hxj, hsame⟩
    have hne : j ≠ i := fun hc => hno x hx hbad (hc ▸ hxj)
    unfold pageSize at *
    omega
  exact
    { mapped := hP.mapped
      heap := hP.heap
      aligned := Nat.dvd_add hial (Nat.dvd_refl _)
      le := Nat.le_trans hP.le (Nat.le_add_right _ _)
      good := hP.good
      ahead := fun _ x hx hlt => hP.ahead hi x hx (by omega)
      first := fun _ x hx hbad hxi => by
        have hno := hno x hx hbad
        have hb := (hs.listed.tidy x hx).base
        unfold LocalRange.Has pageSize at *
        omega
      behind := fun x hx hbad b hb hlt => by
        refine hP.behind x hx hbad b hb ?_
        have hne : b ≠ i := fun hc => hno x hx hbad (hc ▸ hb.has)
        have hbal := hb.page
        unfold pageSize at *
        omega
      changed := fun v h => hP.changed v (hchanging v h)
      same := fun v h => hP.same v fun h' => h (by
        obtain ⟨x, hx, hbad, j, hj, hle, hlt, hxj, hsame⟩ := h'
        exact ⟨x, hx, hbad, j, hj, hle, by omega, hxj, hsame⟩)
      null := hP.null }

theorem mprotectSnip_entries (h : Mapped roots s pm) (hS : Snip (s.locals id) b e)
    (hs : mprotectSnip A s pm id prot b e = some s') :
    Edits roots (EntryIn pm b e) s.vm s'.vm ∧
      ∀ v, EntryIn pm b e pm v → Flagged s'.vm pm (ptFlags prot) v := by
  rw [(mprotectSnip_vm hS hs).1]
  exact flagLoop_entries h.tables h.pagemap (ptFlags_pageFlags prot) hS.begin_dvd hS.end_dvd
    (Nat.le_of_lt hS.lt) (Nat.lt_of_le_of_lt hS.le_stop hS.tidy.fits)

/-- The page behind a snip is not in a range that needs another protection. -/
theorem Unmet.behind (hun : Unmet s pm prot addr stop) (hid : id ∈ s.ranges pm)
    (hbad : (s.locals id).prot ≠ prot) (hS : Snip (s.locals id) i e) (hle : addr ≤ i)
    (he : e = (s.locals id).base + (s.locals id).length) (hlt : e < stop) {x : Nat}
    (hx : x ∈ s.ranges pm) (hxbad : (s.locals x).prot ≠ prot) : ¬ (s.locals x).Has e := by
  intro hxe
  have hie := hS.lt
  have hbase := hS.base_le
  have hlast : (s.locals id).Has (e - 1) := ⟨by omega, by omega⟩
  obtain rfl := hun id hid x hx hbad hxbad e (by omega) hlt hlast hxe
  have := hxe.2
  omega

theorem Progress.snip (hP : Progress roots s t pm prot addr stop i) (hs : Mapped roots s pm)
    (hun : Unmet s pm prot addr stop) (hi : i < stop) (hcov : Covered s pm i)
    (hid : id ∈ t.ranges pm) (hhas : (t.locals id).Has i) (hprot : (t.locals id).prot ≠ prot)
    (he : e = min ((t.locals id).base + (t.locals id).length) stop) (hS : Snip (t.locals id) i e)
    (hm : mprotectSnip A t pm id prot i e = some t') (hroom : e + pageSize < 2 ^ 64) :
    Progress roots s t' pm prot addr stop (e + pageSize) := by
  obtain ⟨ps, hrec⟩ := mprotectSnip_recolor hP.mapped.listed hid hS hm
  obtain ⟨hed, hflag⟩ := mprotectSnip_entries hP.mapped hS hm
  obtain ⟨n, hn, hnew⟩ := mprotectSnip_new hS hm
  obtain ⟨hids, heq⟩ := hP.current hi hcov hid hhas
  have hmapped := hP.mapped.turn hid hrec.toTurn hed.tables
  -- other ranges stay
  have hothers : ∀ x ∈ t.ranges pm, x ≠ id → x ∈ t'.ranges pm ∧ t'.locals x = t.locals x :=
    fun x hx hne => ⟨(hrec.mem x).mpr (Or.inl ⟨hx, hne⟩),
      (hrec.others x (hP.mapped.listed.lt x hx) hne).1⟩
  rw [heq] at hhas hprot he hS hnew
  have hle := hP.le
  have hie := hS.lt
  have hial := hP.aligned
  have heal := hS.end_dvd
  have hbase := hS.base_le
  have hpage : 0 < pageSize := by decide
  -- where a range other than this one is
  have hgone : ∀ x ∈ s.ranges pm, (s.locals x).prot ≠ prot → ∀ j, pageSize ∣ j → i ≤ j →
      j < e + pageSize → j < stop → (s.locals x).Has j → x = id ∧ j < e := by
    intro x hx hbad j hj hij hje hjs hxj
    by_cases hjlt : j < e
    · exact ⟨hs.eq_of_has hx hids hxj ⟨by omega, by have := hS.le_stop; omega⟩, hjlt⟩
    · have hje : j = e := by
        unfold pageSize at *
        omega
      subst hje
      exact absurd hxj (hun.behind hids hprot hS hle (by omega) hjs hx hbad)
  have hchanging : ∀ v, Changing s pm prot addr (min (e + pageSize) stop) v →
      Changing s pm prot addr (min i stop) v ∨ EntryIn pm i e pm v := by
    rintro v ⟨x, hx, hbad, j, hj, haj, hlt, hxj, hsame⟩
    by_cases hji : j < i
    · exact Or.inl ⟨x, hx, hbad, j, hj, haj, by omega, hxj, hsame⟩
    · obtain ⟨-, hje⟩ := hgone x hx hbad j hj (by omega) (by omega) (by omega) hxj
      exact Or.inr ⟨j, hj, by omega, hje, hsame⟩
  exact
    { mapped := hmapped
      heap := (mprotectSnip_vm (by rw [heq]; exact hS) hm).2.trans hP.heap
      aligned := Nat.dvd_add heal (Nat.dvd_refl _)
      le := by omega
      good := fun x hx hxp => by
        obtain ⟨hxt, hxeq⟩ := hP.good x hx hxp
        have hne : x ≠ id := fun hc => hprot (hc ▸ hxp)
        obtain ⟨hmem, hloc⟩ := hothers x hxt hne
        exact ⟨hmem, hloc.trans hxeq⟩
      ahead := fun hlt x hx hxe => by
        obtain ⟨hxt, hxeq⟩ := hP.ahead hi x hx (by omega)
        have hne : x ≠ id := by
          rintro rfl
          omega
        obtain ⟨hmem, hloc⟩ := hothers x hxt hne
        exact ⟨hmem, hloc.trans hxeq⟩
      first := fun hlt x hx hbad hxi => by
        have hb := (hs.listed.tidy x hx).base
        have hno : ¬ (s.locals x).Has e := fun hxe => by
          obtain ⟨-, hc⟩ := hgone x hx hbad e heal (by omega) (by omega) (by omega) hxe
          omega
        unfold LocalRange.Has pageSize at *
        omega
      behind := fun x hx hbad b hb hlt => by
        by_cases hbi : b < i
        · obtain ⟨hsmall, m, hmem, hloc⟩ := hP.behind x hx hbad b hb hbi
          have hne : m ≠ id := by
            rintro rfl
            rw [heq] at hloc
            exact hprot (hloc ▸ rfl)
          obtain ⟨hmem', hloc'⟩ := hothers m hmem hne
          exact ⟨hsmall, m, hmem', hloc'.trans hloc⟩
        · obtain ⟨rfl, hbe⟩ := hgone x hx hbad b hb.page (by omega) hlt hb.lt hb.has
          have hbeq : b = i := by
            rcases hb.begins with h | h <;> omega
          subst hbeq
          rw [← he]
          exact ⟨hroom, n, hn, hnew⟩
      changed := fun v h => by
        by_cases hin : EntryIn pm i e pm v
        · exact hflag v hin
        · exact (hP.changed v ((hchanging v h).resolve_right hin)).congr
            (hed.keeps pm v hP.mapped.pagemap hin)
      same := fun v h => by
        have hold : ¬ Changing s pm prot addr (min i stop) v := fun h' => h (by
          obtain ⟨x, hx, hbad, j, hj, haj, hlt, hxj, hsame⟩ := h'
          exact ⟨x, hx, hbad, j, hj, haj, by omega, hxj, hsame⟩)
        have hin : ¬ EntryIn pm i e pm v := fun hin => h (by
          obtain ⟨j, hj, hij, hje, hsame⟩ := hin
          refine ⟨id, hids, hprot, j, hj, by omega, by omega, ⟨by omega, ?_⟩, hsame⟩
          have := hS.le_stop
          omega)
        rw [hed.keeps pm v hP.mapped.pagemap hin, hP.same v hold]
      null := fun h h' => hP.null h (h'.of_turn hrec.toTurn hP.mapped.listed hid) }

/-- The loop knows where it is, or the cursor has passed the end of the address space and page 0 is
in no range. -/
def Onward (roots : Nat → Prop) (s t : State σ) (pm : Nat) (prot : Prot) (addr stop i : Nat) :
    Prop :=
  Progress roots s t pm prot addr stop i ∨ (i = 0 ∧ Listed t pm ∧ ¬ Covered t pm 0)

theorem u64_behind {stop e : Nat} (hend : stop + pageSize ≤ 2 ^ 64) (he : e ≤ stop)
    (hd : pageSize ∣ e) : e + pageSize < 2 ^ 64 ∧ u64 (e + pageSize) = e + pageSize ∨
      e = stop ∧ stop + pageSize = 2 ^ 64 ∧ u64 (e + pageSize) = 0 := by
  unfold u64 pageSize at *
  omega

/-- **Where the loop has come to when it ends**, if the interval is in ranges of which no two that
meet both need another protection. -/
theorem mprotectLoop_progress (hs : Mapped roots s pm) (haddr : pageSize ∣ addr)
    (hstop : pageSize ∣ stop) (hpos : addr < stop) (hend : stop + pageSize ≤ 2 ^ 64)
    (hcov : AllCovered s pm addr stop) (hun : Unmet s pm prot addr stop)
    (hnull : stop + pageSize < 2 ^ 64 ∨ ¬ Covered s pm 0)
    (hm : mprotectLoop A pm prot stop loopFuel addr s = some s') :
    ∃ i, stop ≤ i ∧ Progress roots s s' pm prot addr stop i := by
  refine mprotectLoop_rule (A := A) (P := fun i t => Onward roots s t pm prot addr stop i)
    (Q := fun t => ∃ i, stop ≤ i ∧ Progress roots s t pm prot addr stop i) hstop ?_ ?_ ?_ ?_ haddr
    (Or.inl (.start hs haddr prot stop)) hm
  · rintro i t (hP | ⟨-, hl, -⟩)
    · exact hP.mapped.listed
    · exact hl
  · rintro i t id hi hlt (hP | ⟨rfl, -, hno⟩) hid hhas hprot
    · have hnext : u64 (i + pageSize) = i + pageSize := by
        unfold u64 pageSize at *
        omega
      rw [hnext]
      exact Or.inl (hP.skip hs hstop hlt (hcov i hP.le hlt) hid hhas hprot)
    · exact absurd ⟨id, hid, hhas⟩ hno
  · rintro i e t id t' hi hlt (hP | ⟨rfl, -, hno⟩) hid hhas hprot he hS hm
    · obtain ⟨hroom, hnext⟩ | ⟨-, hlast, hnext⟩ := u64_behind hend (by omega) hS.end_dvd
      · rw [hnext]
        exact Or.inl (hP.snip hs hun hlt (hcov i hP.le hlt) hid hhas hprot he hS hm hroom)
      · rw [hnext]
        obtain ⟨ps, hrec⟩ := mprotectSnip_recolor hP.mapped.listed hid hS hm
        refine Or.inr ⟨rfl, hrec.listed hP.mapped.listed hid, fun h => ?_⟩
        exact hP.null (hnull.resolve_left (by omega)) (h.of_turn hrec.toTurn hP.mapped.listed hid)
    · exact absurd ⟨id, hid, hhas⟩ hno
  · rintro i t hge (hP | ⟨rfl, -, -⟩)
    · exact ⟨i, hge, hP⟩
    · omega

/-- **The loop ends**, if there is memory and the cursor stays in the address space. -/
theorem mprotectLoop_total (hs : Mapped roots s pm) (hstop : pageSize ∣ stop)
    (hend : stop + pageSize ≤ 2 ^ 64) (hcov : AllCovered s pm addr stop)
    (hun : Unmet s pm prot addr stop) (hheap : ∀ n, s.heapOk n = true)
    (hroom : ∀ x ∈ s.ranges pm, (s.locals x).prot ≠ prot → ∀ j, addr ≤ j → j < stop →
      (s.locals x).Has j →
        min ((s.locals x).base + (s.locals x).length) stop + pageSize < 2 ^ 64) :
    ∀ {fuel i : Nat} {t : State σ}, Progress roots s t pm prot addr stop i →
      i ≤ stop + pageSize → stop + 2 * pageSize ≤ i + fuel * pageSize →
        ∃ s', mprotectLoop A pm prot stop fuel i t = some s'
  | 0, i, t, hP, hi, hf => by
    unfold pageSize at *
    omega
  | fuel + 1, i, t, hP, hi, hf => by
    rw [mprotectLoop]
    split
    · next hlt =>
      obtain ⟨x, hx, hxi⟩ := hcov i hP.le hlt
      obtain ⟨hxt, hxeq⟩ := hP.ahead hlt x hx hxi.2
      cases hr : addr2range t pm i with
      | none => exact absurd ⟨x, hxt, hxeq ▸ hxi⟩ ((addr2range_eq_none_iff hP.mapped.listed).mp hr)
      | some r =>
        obtain ⟨hmem, hcovers, -⟩ := addr2range_some hr
        have hhas := (hP.mapped.listed.tidy _ hmem).covers_iff.mp hcovers
        obtain ⟨he, hS⟩ :=
          snip_of_found (hP.mapped.listed.tidy _ hmem) hP.aligned hstop hlt hhas
        have hial := hP.aligned
        simp only [he]
        split
        · next hprot =>
          have hnext : u64 (i + pageSize) = i + pageSize := by
            unfold u64 pageSize at *
            omega
          rw [hnext]
          refine mprotectLoop_total hs hstop hend hcov hun hheap hroom
            (hP.skip hs hstop hlt ⟨x, hx, hxi⟩ hmem hhas hprot) (by omega) ?_
          rw [Nat.add_mul] at hf
          omega
        · next hprot =>
          obtain ⟨hids, heq⟩ := hP.current hlt ⟨x, hx, hxi⟩ hmem hhas
          have hsmall := hroom _ hids (heq ▸ hprot) i hP.le hlt (heq ▸ hhas)
          rw [← heq] at hsmall
          obtain ⟨t', hm⟩ := mprotectSnip_isSome (A := A) (s := t)
            (by rw [hP.heap]; exact hheap) pm r.range i _ prot
          rw [hm, u64_of_lt hsmall]
          refine mprotectLoop_total hs hstop hend hcov hun hheap hroom
            (hP.snip hs hun hlt ⟨x, hx, hxi⟩ hmem hhas hprot rfl hS hm hsmall)
            (Nat.add_le_add_right (Nat.min_le_right _ _) _) ?_
          have hie := hS.lt
          rw [Nat.add_mul] at hf
          omega
    · exact ⟨t, rfl⟩

/-! ## Where two ranges meet -/

/-- The page is in a range without the protection. -/
def Unprotected (s : State σ) (pm : Nat) (prot : Prot) (q : Nat) : Prop :=
  ∃ x ∈ s.ranges pm, (s.locals x).Has q ∧ (s.locals x).prot ≠ prot

theorem Unprotected.snip (h : Unprotected t pm prot q) (hl : Listed t pm) (hid : id ∈ t.ranges pm)
    (hS : Snip (t.locals id) b e) (hq : q < b) (hm : mprotectSnip A t pm id prot b e = some t') :
    Unprotected t' pm prot q := by
  obtain ⟨x, hx, hxq, hbad⟩ := h
  by_cases hxid : x = id
  · subst hxid
    obtain ⟨hmem, hhas, hprot⟩ := mprotectSnip_left hl hid hS hm hxq hq
    exact ⟨x, hmem, hhas, by rw [hprot]; exact hbad⟩
  · obtain ⟨ps, hrec⟩ := mprotectSnip_recolor hl hid hS hm
    obtain ⟨hloc, -⟩ := hrec.others x (hl.lt x hx) hxid
    exact ⟨x, (hrec.mem x).mpr (Or.inl ⟨hx, hxid⟩), by rw [hloc]; exact hxq,
      by rw [hloc]; exact hbad⟩

/-- **The first page of the second of two ranges that meet.** The snip of the first one moves the
cursor past it. -/
theorem mprotect_meets (hs : Mapped roots s pm) (haddr : pageSize ∣ addr) (hstop : pageSize ∣ stop)
    (hend : stop + pageSize ≤ 2 ^ 64) (hcov : AllCovered s pm addr stop)
    (hun : Unmet s pm prot addr q) (hnull : stop + pageSize < 2 ^ 64 ∨ ¬ Covered s pm 0)
    (hlo : addr < q) (hhi : q < stop) {x y : Nat} (hx : x ∈ s.ranges pm) (hy : y ∈ s.ranges pm)
    (hxbad : (s.locals x).prot ≠ prot) (hybad : (s.locals y).prot ≠ prot)
    (hxq : (s.locals x).Has (q - 1)) (hyq : (s.locals y).Has q) (hne : x ≠ y)
    (hm : mprotectLoop A pm prot stop loopFuel addr s = some s') :
    Mapped roots s' pm ∧ Unprotected s' pm prot q := by
  obtain ⟨hyb, hyl, -⟩ := hs.listed.tidy y hy
  -- `y` begins at the page
  have hbase : (s.locals y).base = q := by
    by_contra hc
    refine hne (hs.eq_of_has hx hy hxq ?_)
    unfold LocalRange.Has at *
    omega
  have hqal : pageSize ∣ q := hbase ▸ hyb
  have hxend : ¬ (s.locals x).Has q := fun hxq' => hne (hs.eq_of_has hx hy hxq' hyq)
  have hxlast : (s.locals x).Has (q - pageSize) := by
    obtain ⟨hxb, hxl, -⟩ := hs.listed.tidy x hx
    unfold LocalRange.Has pageSize at *
    omega
  have hcov' : ∀ i, addr ≤ i → i < q → Covered s pm i := fun i hai hiq =>
    hcov i hai (by omega)
  refine mprotectLoop_rule (A := A)
    (P := fun i t => (i < q ∧ Progress roots s t pm prot addr q i) ∨
      (Mapped roots t pm ∧ q < i ∧ Unprotected t pm prot q ∧ (¬ Covered s pm 0 → ¬ Covered t pm 0)) ∨
      (i = 0 ∧ Mapped roots t pm ∧ ¬ Covered t pm 0))
    (Q := fun t => Mapped roots t pm ∧ Unprotected t pm prot q) hstop ?_ ?_ ?_ ?_ haddr
    (Or.inl ⟨hlo, .start hs haddr prot q⟩) hm
  · rintro i t (⟨-, hP⟩ | ⟨hM, -⟩ | ⟨-, hM, -⟩)
    · exact hP.mapped.listed
    · exact hM.listed
    · exact hM.listed
  · rintro i t id hi hlt (⟨hiq, hP⟩ | ⟨hM, hqi, hbad, hnull⟩ | ⟨rfl, -, hno⟩) hid hhas hprot
    · have hnext : u64 (i + pageSize) = i + pageSize := by
        unfold u64 pageSize at *
        omega
      rw [hnext]
      have hP' := hP.skip hs hqal hiq (hcov' i hP.le hiq) hid hhas hprot
      obtain ⟨hids, heq⟩ := hP.current hiq (hcov' i hP.le hiq) hid hhas
      -- the page before is in `x`
      have hne' : i ≠ q - pageSize := by
        intro hc
        have hhas' : (s.locals id).Has i := heq ▸ hhas
        obtain rfl := hs.eq_of_has hx hids (hc ▸ hxlast) hhas'
        exact hxbad (heq ▸ hprot)
      refine Or.inl ⟨?_, hP'⟩
      unfold pageSize at *
      omega
    · have hnext : u64 (i + pageSize) = i + pageSize := by
        unfold u64 pageSize at *
        omega
      rw [hnext]
      exact Or.inr (Or.inl ⟨hM, by omega, hbad, hnull⟩)
    · exact absurd ⟨id, hid, hhas⟩ hno
  · rintro i e t id t' hi hlt (⟨hiq, hP⟩ | ⟨hM, hqi, hbad, hnullt⟩ | ⟨rfl, -, hno⟩) hid hhas hprot he
      hS hm
    · obtain ⟨hids, heq⟩ := hP.current hiq (hcov' i hP.le hiq) hid hhas
      have hial := hP.aligned
      -- the range ends before the page
      have hle : (s.locals id).base + (s.locals id).length ≤ q := by
        by_contra hc
        have hhas' : (s.locals id).Has i := heq ▸ hhas
        have hidq : (s.locals id).Has q := ⟨by have := hhas'.1; omega, by omega⟩
        have hidq' : (s.locals id).Has (q - 1) := ⟨by have := hhas'.1; omega, by omega⟩
        exact hxend (hs.eq_of_has hids hx hidq' hxq ▸ hidq)
      have he' : e = min ((t.locals id).base + (t.locals id).length) q := by
        rw [he, heq]
        omega
      have heq' : e = (s.locals id).base + (s.locals id).length := by
        rw [he', heq]
        omega
      have hroom : e + pageSize < 2 ^ 64 := by
        have := hS.end_dvd
        unfold pageSize at *
        omega
      rw [u64_of_lt hroom]
      have hP' := hP.snip hs hun hiq (hcov' i hP.le hiq) hid hhas hprot he' hS hm hroom
      have hed := hS.end_dvd
      have hai := hP.le
      have hie := hS.lt
      by_cases heq'' : e = q
      · -- the cursor passes the page
        refine Or.inr (Or.inl ⟨hP'.mapped, by unfold pageSize; omega, ?_, hP'.null⟩)
        have hyid : y ≠ id := by
          rintro rfl
          have := hyq.2
          omega
        obtain ⟨hyt, hyeq⟩ := hP.ahead hiq y hy (by have := hyq.2; omega)
        obtain ⟨ps, hrec⟩ := mprotectSnip_recolor hP.mapped.listed hid hS hm
        obtain ⟨hloc, -⟩ := hrec.others y (hP.mapped.listed.lt y hyt) hyid
        exact ⟨y, (hrec.mem y).mpr (Or.inl ⟨hyt, hyid⟩), by rw [hloc, hyeq]; exact hyq,
          by rw [hloc, hyeq]; exact hybad⟩
      · -- the page behind the snip is not the last one of `x`
        have hSs : Snip (s.locals id) i e := heq ▸ hS
        have hne' : e ≠ q - pageSize := by
          intro hc
          exact hun.behind hids (heq ▸ hprot) hSs hai heq' (by omega) hx hxbad (hc ▸ hxlast)
        refine Or.inl ⟨?_, hP'⟩
        unfold pageSize at *
        omega
    · obtain ⟨ps, hrec⟩ := mprotectSnip_recolor hM.listed hid hS hm
      have hM' := hM.turn hid hrec.toTurn (mprotectSnip_entries hM hS hm).1.tables
      have hnull' : ¬ Covered s pm 0 → ¬ Covered t' pm 0 := fun h h' =>
        hnullt h (h'.of_turn hrec.toTurn hM.listed hid)
      obtain ⟨hroom, hnext⟩ | ⟨-, hlast, hnext⟩ := u64_behind hend (by omega) hS.end_dvd
      · rw [hnext]
        have := hS.lt
        exact Or.inr (Or.inl ⟨hM', by omega, hbad.snip hM.listed hid hS hqi hm, hnull'⟩)
      · rw [hnext]
        exact Or.inr (Or.inr ⟨rfl, hM', hnull' (hnull.resolve_left (by omega))⟩)
    · exact absurd ⟨id, hid, hhas⟩ hno
  · rintro i t hge (⟨hiq, -⟩ | ⟨hM, -, hbad, -⟩ | ⟨rfl, -⟩)
    · omega
    · exact ⟨hM, hbad⟩
    · omega

/-! ## The whole call -/

/-- The bytes of the pages that `length` bytes take. -/
def wholePages (length : Nat) : Nat := (length + (pageSize - 1)) / pageSize * pageSize

theorem covered_bounds (hl : Listed s pm) (haddr : pageSize ∣ addr) (hpos : 0 < length)
    (hcov : AllCovered s pm addr (addr + wholePages length)) :
    addr < addr + wholePages length ∧ pageSize ∣ addr + wholePages length ∧
      addr + wholePages length + pageSize ≤ 2 ^ 64 ∧
      u64 (addr + alignUp length pageSize) = addr + wholePages length := by
  have hlt : addr < addr + wholePages length := by
    unfold wholePages pageSize
    omega
  have hdvd : pageSize ∣ addr + wholePages length := by
    unfold wholePages pageSize at *
    omega
  have hend : addr + wholePages length + pageSize ≤ 2 ^ 64 := by
    by_contra hc
    -- no range has the last page of the address space
    obtain ⟨x, hx, hxv⟩ := hcov (addr + wholePages length - pageSize)
      (by unfold pageSize at *; omega) (by unfold pageSize; omega)
    obtain ⟨hb, hlen, hfits⟩ := hl.tidy x hx
    unfold LocalRange.Has at hxv
    generalize addr + wholePages length = stop at *
    unfold pageSize at *
    omega
  refine ⟨hlt, hdvd, hend, ?_⟩
  have halign : alignUp length pageSize = wholePages length := by
    unfold alignUp divRoundup u64 wholePages pageSize at *
    omega
  rw [halign, u64_of_lt (by unfold pageSize at hend; omega)]

/-- The page has the protection: its range has it and shows the same file page as before, and so has
its entry. -/
structure Protected (s s' : State σ) (pm : Nat) (prot : Prot) (v : Nat) : Prop where
  range : ∃ x ∈ s.ranges pm, ∃ x' ∈ s'.ranges pm, (s.locals x).Has v ∧ (s'.locals x').Has v ∧
    (s'.locals x').prot = prot ∧ (s'.locals x').filePage v = (s.locals x).filePage v
  entry : Flagged s'.vm pm (ptFlags prot) v

/-- What `mprotect` owes to its caller: it protects every page of the interval, or it changes
nothing if one of them is in no range. -/
def Honours (s : State σ) (pm addr length : Nat) (prot : Prot) (r : Option (Int × State σ)) :
    Prop :=
  (AllCovered s pm addr (addr + wholePages length) →
    ∃ s', r = some (0, s') ∧
      ∀ v, addr ≤ v → v < addr + wholePages length → Protected s s' pm prot v) ∧
  (¬ AllCovered s pm addr (addr + wholePages length) →
    ∃ e, r = some (-1, { s with vm := { s.vm with errno := e } }))

/-- The interval is in ranges, no two of them that meet both need another protection, and their
file offsets can be moved. The entries of pages whose ranges have the protection agree with it. The
last snip does not end one page before the end of the address space. -/
structure Changeable (s : State σ) (pm : Nat) (prot : Prot) (addr stop : Nat) : Prop where
  covered : AllCovered s pm addr stop
  unmet : Unmet s pm prot addr stop
  offsets : ∀ x ∈ s.ranges pm, (s.locals x).prot ≠ prot → ∀ b, (s.locals x).First addr stop b →
    offsetPage (u64 ((s.locals x).offset + (b - (s.locals x).base))) =
      u64 (offsetPage (s.locals x).offset + (b - (s.locals x).base) / pageSize)
  flags : ∀ v, addr ≤ v → v < stop → ¬ Changing s pm prot addr stop v →
    Flagged s.vm pm (ptFlags prot) v
  room : ∀ x ∈ s.ranges pm, (s.locals x).prot ≠ prot → ∀ b, (s.locals x).First addr stop b →
    min ((s.locals x).base + (s.locals x).length) stop + pageSize < 2 ^ 64

theorem exists_first (hl : Listed s pm) (haddr : pageSize ∣ addr) {x : Nat} (hx : x ∈ s.ranges pm)
    (hv : (s.locals x).Has v) (hav : addr ≤ v) (hvs : v < stop) :
    ∃ b, (s.locals x).First addr stop b ∧ b ≤ v := by
  have hb := (hl.tidy x hx).base
  unfold LocalRange.Has at hv
  by_cases hle : addr ≤ (s.locals x).base
  · exact ⟨(s.locals x).base, ⟨⟨Nat.le_refl _, by omega⟩, hb, hle, by omega, Or.inl rfl⟩, hv.1⟩
  · exact ⟨addr, ⟨⟨by omega, by omega⟩, haddr, Nat.le_refl _, by omega, Or.inr rfl⟩, hav⟩

theorem filePage_withProt_iff {l : LocalRange} (ht : l.Tidy) (hf : l.First addr stop b)
    (hbv : b ≤ v) (hv : l.Has v) :
    (l.withProt prot b e).filePage v = l.filePage v ↔
      offsetPage (u64 (l.offset + (b - l.base))) =
        u64 (offsetPage l.offset + (b - l.base) / pageSize) := by
  have hfits := ht.fits
  have hb := ht.base
  have hbal := hf.page
  have hbase := hf.has.1
  unfold LocalRange.Has at hv
  have hlt : v / pageSize < 2 ^ 64 := by
    unfold pageSize
    omega
  unfold LocalRange.filePage LocalRange.withProt
  dsimp only
  rw [sub64_of_le (Nat.div_le_div_right hbv) hlt, sub64_of_le (Nat.div_le_div_right hv.1) hlt]
  have hnew : offsetPage (u64 (l.offset + (b - l.base))) < 2 ^ 64 := BitVec.isLt _
  generalize offsetPage (u64 (l.offset + (b - l.base))) = o at *
  generalize offsetPage l.offset = o' at *
  unfold u64 pageSize at *
  omega

theorem changing_of_has (hl : Listed s pm) (haddr : pageSize ∣ addr) {x : Nat}
    (hx : x ∈ s.ranges pm) (hbad : (s.locals x).prot ≠ prot) (hv : (s.locals x).Has v)
    (hav : addr ≤ v) (hvs : v < stop) : Changing s pm prot addr stop v := by
  have hpage := has_page_of_has (hl.tidy x hx) hv
  refine ⟨x, hx, hbad, v / pageSize * pageSize, Nat.dvd_mul_left _ _, ?_, ?_, hpage, ?_, Or.inl rfl⟩
  · unfold pageSize at *
    omega
  · have := Nat.div_mul_le_self v pageSize
    omega
  · unfold vpn pageSize
    omega

/-- **An interval that can be changed is protected.** -/
theorem Changeable.honours (h : Changeable s pm prot addr (addr + wholePages length))
    (hs : Mapped roots s pm) (haddr : pageSize ∣ addr) (hpos : 0 < length)
    (hnull : addr + wholePages length + pageSize < 2 ^ 64 ∨ ¬ Covered s pm 0)
    (hheap : ∀ n, s.heapOk n = true) :
    Honours s pm addr length prot (mprotect A s pm addr length prot) := by
  refine ⟨fun _ => ?_, fun hno => absurd h.covered hno⟩
  obtain ⟨hlt, hdvd, hend, hu⟩ := covered_bounds hs.listed haddr hpos h.covered
  unfold mprotect
  rw [if_neg (by omega), hu]
  generalize addr + wholePages length = stop at *
  have hroom : ∀ x ∈ s.ranges pm, (s.locals x).prot ≠ prot → ∀ j, addr ≤ j → j < stop →
      (s.locals x).Has j →
        min ((s.locals x).base + (s.locals x).length) stop + pageSize < 2 ^ 64 := by
    intro x hx hbad j haj hjs hxj
    obtain ⟨b, hb, -⟩ := exists_first hs.listed haddr hx hxj haj hjs
    exact h.room x hx hbad b hb
  obtain ⟨s', hm⟩ : ∃ s', mprotectLoop A pm prot stop loopFuel addr s = some s' :=
    mprotectLoop_total hs hdvd hend h.covered h.unmet hheap hroom (.start hs haddr prot stop)
      (by omega) (by unfold loopFuel pageSize at *; omega)
  obtain ⟨i, hi, hP⟩ := mprotectLoop_progress hs haddr hdvd hlt hend h.covered h.unmet hnull hm
  rw [hm]
  refine ⟨s', rfl, fun v hav hvs => ⟨?_, ?_⟩⟩
  · obtain ⟨x, hx, hxv⟩ := h.covered v hav hvs
    by_cases hprot : (s.locals x).prot = prot
    · obtain ⟨hmem, hloc⟩ := hP.good x hx hprot
      exact ⟨x, hx, x, hmem, hxv, by rw [hloc]; exact hxv, by rw [hloc]; exact hprot, by rw [hloc]⟩
    · obtain ⟨b, hb, hbv⟩ := exists_first hs.listed haddr hx hxv hav hvs
      obtain ⟨-, n, hn, hloc⟩ := hP.behind x hx hprot b hb (by have := hb.lt; omega)
      refine ⟨x, hx, n, hn, hxv, ?_, by rw [hloc]; rfl, ?_⟩
      · rw [hloc]
        have := hxv.2
        exact ⟨hbv, by simp only [LocalRange.withProt]; omega⟩
      · rw [hloc]
        exact (filePage_withProt_iff (hs.listed.tidy x hx) hb hbv hxv).mpr
          (h.offsets x hx hprot b hb)
  · by_cases hc : Changing s pm prot addr stop v
    · exact hP.changed v (by rwa [Nat.min_eq_right hi])
    · exact (h.flags v hav hvs hc).congr (hP.same v (by rwa [Nat.min_eq_right hi]))

theorem unmet_of_protected (hs : Mapped roots s pm) (haddr : pageSize ∣ addr)
    (hstop : pageSize ∣ stop) (hend : stop + pageSize ≤ 2 ^ 64) (hcov : AllCovered s pm addr stop)
    (hnull : stop + pageSize < 2 ^ 64 ∨ ¬ Covered s pm 0)
    (hm : mprotectLoop A pm prot stop loopFuel addr s = some s')
    (hall : ∀ v, addr ≤ v → v < stop → Protected s s' pm prot v) :
    ∀ q ≤ stop, Unmet s pm prot addr q
  | 0, _ => fun x _ y _ _ _ v _ hv _ _ => absurd hv (Nat.not_lt_zero v)
  | q + 1, hq => by
    have ih := unmet_of_protected hs haddr hstop hend hcov hnull hm hall q (by omega)
    intro x hx y hy hxbad hybad v hlo hhi hxv hyv
    by_cases hvq : v < q
    · exact ih x hx y hy hxbad hybad v hlo hvq hxv hyv
    · obtain rfl : v = q := by omega
      by_contra hne
      obtain ⟨hM, z, hz, hzv, hzbad⟩ := mprotect_meets hs haddr hstop hend hcov ih hnull hlo
        (by omega) hx hy hxbad hybad hxv hyv hne hm
      obtain ⟨-, -, z', hz', -, hzv', hprot, -⟩ := (hall v (Nat.le_of_lt hlo) (by omega)).range
      exact hzbad (hM.eq_of_has hz hz' hzv hzv' ▸ hprot)

/-- **Only an interval that can be changed is protected.** -/
theorem Changeable.of_honours (hs : Mapped roots s pm) (haddr : pageSize ∣ addr)
    (hpos : 0 < length)
    (hnull : addr + wholePages length + pageSize < 2 ^ 64 ∨ ¬ Covered s pm 0)
    (h : Honours s pm addr length prot (mprotect A s pm addr length prot)) :
    Changeable s pm prot addr (addr + wholePages length) := by
  have hm := h
  unfold Honours mprotect at hm
  rw [if_neg (by omega)] at hm
  by_cases hcov : AllCovered s pm addr (addr + wholePages length)
  · obtain ⟨hlt, hdvd, hend, hu⟩ := covered_bounds hs.listed haddr hpos hcov
    obtain ⟨s', hr, hall⟩ := hm.1 hcov
    rw [hu] at hr
    obtain ⟨s₁, hm, heq⟩ := Option.map_eq_some_iff.mp hr
    obtain rfl : s₁ = s' := congrArg Prod.snd heq
    generalize addr + wholePages length = stop at *
    have hun := unmet_of_protected hs haddr hdvd hend hcov hnull hm hall stop (Nat.le_refl _)
    obtain ⟨i, hi, hP⟩ := mprotectLoop_progress hs haddr hdvd hlt hend hcov hun hnull hm
    refine ⟨hcov, hun, fun x hx hbad b hb => ?_, fun v hav hvs hc => ?_, fun x hx hbad b hb => ?_⟩
    · -- the range of the first page
      obtain ⟨-, n, hn, hloc⟩ := hP.behind x hx hbad b hb (by have := hb.lt; omega)
      obtain ⟨y, hy, y', hy', hyv, hyv', -, hfile⟩ := (hall b hb.le hb.lt).range
      have hnb : (s₁.locals n).Has b := by
        rw [hloc]
        have := hb.has.2
        have := hb.lt
        exact ⟨Nat.le_refl _, by simp only [LocalRange.withProt]; omega⟩
      obtain rfl := hs.eq_of_has hx hy hb.has hyv
      obtain rfl := hP.mapped.eq_of_has hn hy' hnb hyv'
      rw [hloc] at hfile
      exact (filePage_withProt_iff (hs.listed.tidy x hx) hb (Nat.le_refl b) hb.has).mp hfile
    · exact (hall v hav hvs).entry.congr (hP.same v (by rwa [Nat.min_eq_right hi])).symm
    · exact (hP.behind x hx hbad b hb (by have := hb.lt; omega)).1
  · obtain ⟨e, hr⟩ := hm.2 hcov
    obtain ⟨s₁, -, heq⟩ := Option.map_eq_some_iff.mp hr
    cases heq

/--
**When `mprotect` protects an interval.** In a pagemap whose ranges are apart, with memory for new
ranges: every page of the interval has the protection afterwards, or nothing has changed because a
page is in no range, just when the interval can be changed. Where the interval ends one page before
the end of the address space, page 0 is taken to be in no range.
-/
theorem mprotect_iff (hs : Mapped roots s pm) (haddr : pageSize ∣ addr) (hpos : 0 < length)
    (hnull : addr + wholePages length + pageSize < 2 ^ 64 ∨ ¬ Covered s pm 0)
    (hheap : ∀ n, s.heapOk n = true) :
    Honours s pm addr length prot (mprotect A s pm addr length prot) ↔
      Changeable s pm prot addr (addr + wholePages length) :=
  ⟨fun h => .of_honours hs haddr hpos hnull h, fun h => h.honours hs haddr hpos hnull hheap⟩

end

/-! ## Two processes -/

/-- The heap of the process never runs out. -/
def ample {σ : Type} (s : State σ) : State σ := { s with heapOk := fun _ => true }

theorem Mapped.ample {σ : Type} {roots : Nat → Prop} {s : State σ} {pm : Nat}
    (h : Mapped roots s pm) : Mapped roots (ample s) pm :=
  ⟨⟨h.listed.nodup, h.listed.lt, h.listed.tidy⟩, h.apart, h.tables, h.pagemap, h.shadow, h.shadow_ne⟩

theorem mapped_of_calls {calls : List Call} {s : State Pmm.State}
    (hlow : ∀ c ∈ calls, ∀ s : State Pmm.State, c.Low s)
    (hs : runAll (fun s c => Call.exec Pmm.allocator 0x2000 s c) calls bootProcess = some s)
    (hspans : (spans s 0x2000).Pairwise fun x y => x.1 + x.2 ≤ y.1 ∨ y.1 + y.2 ≤ x.1) :
    Mapped (Roots s 0x2000) (Mmap.ample s) 0x2000 := by
  have hreach : Reach (Step Pmm.allocator 0x2000) (fun _ c => ∀ s : State Pmm.State, c.Low s)
      bootProcess s := Reach.of_runAll .refl hlow hs
  exact ((sys_of_run bootProcess_boot (hreach.mono fun s c h => h s)).tables_apart
    (apartIf_of_spans hspans)).ample

/-- Two neighbouring mappings, of which the second is touched. -/
def neighbours : List Call :=
  [.mmap 0x10000 0x3000 readWrite (anonFlags true) none 0,
    .mmap 0x13000 0x1000 readWrite (anonFlags true) none 0, .fault 0 0x11000]

theorem neighbours_low : ∀ c ∈ neighbours, ∀ s : State Pmm.State, c.Low s := by
  simp only [neighbours, List.mem_cons, List.not_mem_nil, or_false, forall_eq_or_imp, forall_eq]
  have hlow : pageSize ∣ 0x10000 ∧ 0x10000 + alignUp 0x3000 pageSize ≤ lowEnd ∧
      pageSize ∣ 0x13000 ∧ 0x13000 + alignUp 0x1000 pageSize ≤ lowEnd := by decide
  exact ⟨fun s => ⟨rfl, hlow.1, hlow.2.1⟩, fun s => ⟨rfl, hlow.2.2⟩, fun s => trivial⟩

/-- The ranges as the calls see them. -/
def layout {σ : Type} (s : State σ) (pm : Nat) : List (Nat × Nat × Nat × Prot) :=
  (s.ranges pm).map fun x =>
    ((s.locals x).base, (s.locals x).length, (s.locals x).offset, (s.locals x).prot)

theorem covered_of_span {σ : Type} {s : State σ} {pm v : Nat} {p : Nat × Nat}
    (h : p ∈ spans s pm) (hlo : p.1 ≤ v) (hhi : v < p.1 + p.2) : Covered (ample s) pm v := by
  obtain ⟨x, hx, rfl⟩ := List.mem_map.mp h
  exact ⟨x, hx, hlo, hhi⟩

def readOnly : Prot := ⟨false, false, 1⟩

/-- One page in the middle of a mapping is made read-only. -/
theorem mprotect_iff_middle : ∃ s : State Pmm.State,
    layout s 0x2000 = [(0x10000, 0x3000, 0, readWrite), (0x13000, 0x1000, 0, readWrite)] ∧
    Present s.vm 0x2000 0x11000 ∧
    Honours s 0x2000 0x11000 1 readOnly (mprotect Pmm.allocator s 0x2000 0x11000 1 readOnly) := by
  have hrun : (runAll (fun s c => Call.exec Pmm.allocator 0x2000 s c) neighbours bootProcess).map
      (fun s => (layout s 0x2000, decide (Present s.vm 0x2000 0x11000)))
      = some ([(0x10000, 0x3000, 0, readWrite), (0x13000, 0x1000, 0, readWrite)], true) := by
    decide +kernel
  obtain ⟨s, hs, hfacts⟩ := Option.map_eq_some_iff.mp hrun
  simp only [Prod.mk.injEq, decide_eq_true_eq] at hfacts
  obtain ⟨hlayout, hpres⟩ := hfacts
  have hspans : spans s 0x2000 = [(0x10000, 0x3000), (0x13000, 0x1000)] := by
    have := congrArg (List.map fun l => (l.1, l.2.1)) hlayout
    rwa [layout, List.map_map] at this
  have hmapped := mapped_of_calls neighbours_low hs (by rw [hspans]; decide)
  -- a range with an address of the page is the first one
  have hrange : ∀ x ∈ (ample s).ranges 0x2000, ∀ v, 0x11000 ≤ v → v < 0x12000 →
      ((ample s).locals x).Has v → ((ample s).locals x).base = 0x10000 ∧
        ((ample s).locals x).length = 0x3000 ∧ ((ample s).locals x).offset = 0 ∧
          ((ample s).locals x).prot = readWrite := by
    intro x hx v hlo hhi hv
    have hmem : ((s.locals x).base, (s.locals x).length, (s.locals x).offset, (s.locals x).prot) ∈
        layout s 0x2000 := List.mem_map_of_mem hx
    rw [hlayout] at hmem
    simp only [List.mem_cons, Prod.mk.injEq, List.not_mem_nil, or_false] at hmem
    obtain ⟨hb, hl, ho, hp⟩ | ⟨hb, -⟩ := hmem
    · exact ⟨hb, hl, ho, hp⟩
    · have : 0x13000 ≤ v := hb ▸ hv.1
      omega
  have hcov : AllCovered (ample s) 0x2000 0x11000 (0x11000 + wholePages 1) := by
    intro v hlo hhi
    have hlen : wholePages 1 = 0x1000 := rfl
    exact covered_of_span (p := (0x10000, 0x3000)) (by rw [hspans]; exact List.mem_cons_self)
      (by omega) (by omega)
  have hend : 0x11000 + wholePages 1 = 0x12000 := rfl
  refine ⟨ample s, hlayout, hpres, (mprotect_iff hmapped (by decide) (by decide)
    (Or.inl (by decide)) fun _ => rfl).mpr ⟨hcov, ?_, ?_, ?_, ?_⟩⟩
  · rintro x hx y hy - - q hlo hhi hxq hyq
    obtain ⟨hb, hl, -⟩ := hrange x hx (q - 1) (by omega) (by omega) hxq
    refine hmapped.eq_of_has hx hy ?_ hyq
    unfold LocalRange.Has
    omega
  · rintro x hx - b hb
    obtain ⟨hbase, -, ho, -⟩ := hrange x hx b hb.le (by have := hb.lt; omega) hb.has
    have hb' : b = 0x11000 := by
      have := hb.begins
      have := hb.le
      omega
    rw [hbase, ho, hb']
    decide
  · intro v hlo hhi hno
    obtain ⟨x, hx, hxv⟩ := hcov v hlo hhi
    refine absurd (changing_of_has hmapped.listed (by decide) hx ?_ hxv hlo hhi) hno
    obtain ⟨-, -, -, hp⟩ := hrange x hx v hlo (by omega) hxv
    rw [hp]
    decide
  · rintro x hx - b hb
    have := hb.lt
    unfold pageSize
    omega

/-- Two neighbouring mappings are made read-only together: the first page of the second one is
still writable. -/
theorem mprotect_steps_over : ¬ ∀ (s : State Pmm.State) (addr length : Nat) (prot : Prot),
    Mapped (Roots s 0x2000) s 0x2000 → pageSize ∣ addr → 0 < length →
    (∀ n, s.heapOk n = true) →
    Honours s 0x2000 addr length prot (mprotect Pmm.allocator s 0x2000 addr length prot) := by
  intro hall
  have hrun : (runAll (fun s c => Call.exec Pmm.allocator 0x2000 s c) neighbours bootProcess).map
      (fun s => (spans s 0x2000,
        (mprotect Pmm.allocator (ample s) 0x2000 0x10000 0x4000 readOnly).map fun r =>
          decide (∀ x ∈ r.2.ranges 0x2000, (r.2.locals x).base ≤ 0x13000 →
            0x13000 < (r.2.locals x).base + (r.2.locals x).length →
              (r.2.locals x).prot ≠ readOnly)))
      = some ([(0x10000, 0x3000), (0x13000, 0x1000)], some true) := by
    decide +kernel
  obtain ⟨s, hs, hfacts⟩ := Option.map_eq_some_iff.mp hrun
  simp only [Prod.mk.injEq] at hfacts
  obtain ⟨hspans, hres⟩ := hfacts
  obtain ⟨⟨ret, s'⟩, hm, hkept⟩ := Option.map_eq_some_iff.mp hres
  have hkept := of_decide_eq_true hkept
  have hmapped := mapped_of_calls neighbours_low hs (by rw [hspans]; decide)
  have hcov : AllCovered (ample s) 0x2000 0x10000 (0x10000 + wholePages 0x4000) := by
    intro v hlo hhi
    have hend : wholePages 0x4000 = 0x4000 := rfl
    by_cases hv : v < 0x13000
    · exact covered_of_span (p := (0x10000, 0x3000)) (by rw [hspans]; exact List.mem_cons_self) hlo hv
    · exact covered_of_span (p := (0x13000, 0x1000))
        (by rw [hspans]; exact List.mem_cons_of_mem _ List.mem_cons_self)
        (by omega) (by omega)
  obtain ⟨s₁, hr, hprot⟩ := (hall (ample s) 0x10000 0x4000 readOnly hmapped (by decide) (by decide)
    fun _ => rfl).1 hcov
  rw [hm] at hr
  obtain rfl : s' = s₁ := congrArg Prod.snd (Option.some.inj hr)
  obtain ⟨-, -, x, hx, -, hxv, hxp, -⟩ := (hprot 0x13000 (by decide) (by decide)).range
  exact hkept x hx hxv.1 hxv.2 hxp

end Lyre.Mmap
