import Mathlib.Data.List.Nodup
import Mathlib.Data.List.Pairwise
import Lyre.Mm.Mmap
import Lyre.Properties.Vmm

/-!
# One turn of `munmap` and `mprotect`

Both functions go through an interval of pages. Where a page lies in a range they cut a snip out
of the range, up to the end of the range or of the interval. `munmap` drops the snip, `mprotect`
makes it a range of its own; what is left of the range before and behind the snip stays.

`Turn` says once what such a step can do to the list of ranges. The rules for the two loops then
turn a property of one step into a property of the whole call.
-/

namespace Lyre.Mmap

open Vmm

/-! ## Arithmetic -/

theorem sub64_of_le {a b : Nat} (h : b ≤ a) (ha : a < 2 ^ 64) : sub64 a b = a - b := by
  unfold sub64 u64
  omega

theorem snipLoop_eq {rangeStop stop : Nat} (hr : pageSize ∣ rangeStop) (hs : pageSize ∣ stop)
    (hlt : rangeStop < 2 ^ 64) : ∀ {fuel i : Nat}, pageSize ∣ i → i < rangeStop → i < stop →
    rangeStop ≤ i + fuel * pageSize → snipLoop rangeStop stop fuel i = min rangeStop stop
  | 0, i, _, hir, _, hf => by omega
  | fuel + 1, i, hi, hir, his, hf => by
    have hnext : u64 (i + pageSize) = i + pageSize := by
      apply u64_of_lt
      unfold pageSize at *
      omega
    rw [snipLoop, hnext]
    split
    · next h =>
      unfold pageSize at *
      omega
    · next h =>
      have hi' : pageSize ∣ i + pageSize := Nat.dvd_add hi (Nat.dvd_refl _)
      exact snipLoop_eq hr hs hlt hi' (by omega) (by omega) (by rw [Nat.add_mul] at hf; omega)

/-- A loop over whole pages carries an invariant from its first page to its end. -/
theorem pageLoop_rule {α : Type} {body : Nat → α → α} {stop : Nat} {P : Nat → α → Prop}
    (hs : pageSize ∣ stop) (hlt : stop < 2 ^ 64)
    (hbody : ∀ j a, pageSize ∣ j → j < stop → P j a → P (j + pageSize) (body j a)) :
    ∀ {fuel j : Nat} {a : α}, pageSize ∣ j → j ≤ stop → stop ≤ j + fuel * pageSize → P j a →
      P stop (pageLoop body stop fuel j a)
  | 0, j, a, _, hle, hf, h => by
    have : j = stop := by omega
    exact this ▸ h
  | fuel + 1, j, a, hj, hle, hf, h => by
    rw [pageLoop]
    split
    · next hjs =>
      have hj' : pageSize ∣ j + pageSize := Nat.dvd_add hj (Nat.dvd_refl _)
      have hnext : j + pageSize ≤ stop := by unfold pageSize at *; omega
      rw [u64_of_lt (Nat.lt_of_le_of_lt hnext hlt)]
      exact pageLoop_rule hs hlt hbody hj' hnext (by rw [Nat.add_mul] at hf; omega)
        (hbody j a hj hjs h)
    · next hjs =>
      have : j = stop := by omega
      exact this ▸ h

/-! ## Ranges -/

/-- The addresses of a range. -/
def LocalRange.Has (l : LocalRange) (v : Nat) : Prop := l.base ≤ v ∧ v < l.base + l.length

/-- Two ranges have no address in common. -/
def Apart (l l' : LocalRange) : Prop := ∀ v, ¬ (l.Has v ∧ l'.Has v)

theorem Apart.symm {l l' : LocalRange} (h : Apart l l') : Apart l' l := fun v hv => h v hv.symm

/-- Whole pages, below the end of the address space. -/
structure LocalRange.Tidy (l : LocalRange) : Prop where
  base : pageSize ∣ l.base
  length : pageSize ∣ l.length
  fits : l.base + l.length < 2 ^ 64

namespace LocalRange

variable {l : LocalRange} {v : Nat}

theorem Tidy.stop_eq (h : l.Tidy) : l.stop = l.base + l.length := u64_of_lt h.fits

theorem Tidy.covers_iff (h : l.Tidy) : l.covers v = true ↔ l.Has v := by
  unfold covers Has
  rw [h.stop_eq]
  simp

/-- The part of a range behind `e`. -/
def after (l : LocalRange) (e : Nat) : LocalRange :=
  { l with
    base := e
    length := l.base + l.length - e
    offset := u64 (l.offset + (e - l.base)) }

/-- The part of a range before `b`. -/
def before (l : LocalRange) (b : Nat) : LocalRange := { l with length := b - l.base }

/-- The part from `b` to `e`, with another protection. -/
def withProt (l : LocalRange) (prot : Prot) (b e : Nat) : LocalRange :=
  { l with
    base := b
    length := e - b
    offset := u64 (l.offset + (b - l.base))
    prot }

/-- What stays in the range itself when `[b, e)` is cut out. -/
def rest (l : LocalRange) (b e : Nat) : LocalRange :=
  if b = l.base then l.after e else l.before b

end LocalRange

/-- `l'` is a part of `l`, in whole pages. -/
structure Piece (l' l : LocalRange) : Prop where
  tidy : l'.Tidy
  pagemap : l'.pagemap = l.pagemap
  global : l'.global = l.global
  flags : l'.flags = l.flags
  base_le : l.base ≤ l'.base
  stop_le : l'.base + l'.length ≤ l.base + l.length

theorem Piece.has {l' l : LocalRange} (h : Piece l' l) {v : Nat} (hv : l'.Has v) : l.Has v := by
  have := h.base_le
  have := h.stop_le
  unfold LocalRange.Has at *
  omega

/-- A snip of a range: whole pages inside it. -/
structure Snip (l : LocalRange) (b e : Nat) : Prop where
  tidy : l.Tidy
  begin_dvd : pageSize ∣ b
  end_dvd : pageSize ∣ e
  base_le : l.base ≤ b
  lt : b < e
  le_stop : e ≤ l.base + l.length

namespace Snip

variable {l : LocalRange} {b e : Nat}

theorem after_piece (h : Snip l b e) : Piece (l.after e) l := by
  have := h.tidy.fits
  have := h.tidy.base
  have := h.tidy.length
  have := h.end_dvd
  have := h.base_le
  have := h.lt
  have := h.le_stop
  refine ⟨⟨h.end_dvd, ?_, ?_⟩, rfl, rfl, rfl, ?_, ?_⟩ <;>
    simp only [LocalRange.after] <;> unfold pageSize at * <;> omega

theorem before_piece (h : Snip l b e) : Piece (l.before b) l := by
  have := h.tidy.fits
  have := h.tidy.base
  have := h.tidy.length
  have := h.begin_dvd
  have := h.base_le
  have := h.lt
  have := h.le_stop
  refine ⟨⟨h.tidy.base, ?_, ?_⟩, rfl, rfl, rfl, ?_, ?_⟩ <;>
    simp only [LocalRange.before] <;> unfold pageSize at * <;> omega

theorem withProt_piece (h : Snip l b e) (prot : Prot) : Piece (l.withProt prot b e) l := by
  have := h.tidy.fits
  have := h.begin_dvd
  have := h.end_dvd
  have := h.base_le
  have := h.lt
  have := h.le_stop
  refine ⟨⟨h.begin_dvd, ?_, ?_⟩, rfl, rfl, rfl, ?_, ?_⟩ <;>
    simp only [LocalRange.withProt] <;> unfold pageSize at * <;> omega

theorem after_has (h : Snip l b e) {v : Nat} :
    (l.after e).Has v ↔ e ≤ v ∧ v < l.base + l.length := by
  have := h.le_stop
  simp only [LocalRange.Has, LocalRange.after]
  omega

theorem before_has (h : Snip l b e) {v : Nat} : (l.before b).Has v ↔ l.base ≤ v ∧ v < b := by
  have := h.base_le
  simp only [LocalRange.Has, LocalRange.before]
  omega

theorem withProt_has (h : Snip l b e) {prot : Prot} {v : Nat} :
    (l.withProt prot b e).Has v ↔ b ≤ v ∧ v < e := by
  have := h.lt
  simp only [LocalRange.Has, LocalRange.withProt]
  omega

theorem rest_has (h : Snip l b e) (hend : b = l.base ∨ e = l.base + l.length) {v : Nat} :
    (l.rest b e).Has v ↔ l.Has v ∧ ¬ (b ≤ v ∧ v < e) := by
  have := h.base_le
  have := h.lt
  have := h.le_stop
  unfold LocalRange.rest
  split
  · rw [h.after_has, LocalRange.Has]
    omega
  · rw [h.before_has, LocalRange.Has]
    omega

theorem rest_nonempty (h : Snip l b e) (hpart : ¬ (b = l.base ∧ e = l.base + l.length)) :
    (l.rest b e).length ≠ 0 := by
  have := h.base_le
  have := h.le_stop
  unfold LocalRange.rest
  split
  · simp only [LocalRange.after]
    omega
  · simp only [LocalRange.before]
    omega

theorem rest_piece (h : Snip l b e) : Piece (l.rest b e) l := by
  unfold LocalRange.rest
  split
  · exact h.after_piece
  · exact h.before_piece

end Snip

section

variable {σ : Type} {A : PageAllocator σ} {s s' : State σ} {pm id b e : Nat} {prot : Prot}

/-! ## Cutting -/

theorem needsSplit_iff (h : Snip (s.locals id) b e) :
    needsSplit (s.locals id) b e = true ↔
      (s.locals id).base < b ∧ e < (s.locals id).base + (s.locals id).length := by
  unfold needsSplit
  rw [h.tidy.stop_eq]
  simp

theorem trimRange_eq (h : Snip (s.locals id) b e)
    (hend : b = (s.locals id).base ∨ e = (s.locals id).base + (s.locals id).length) :
    trimRange s id b e = setLocal s id ((s.locals id).rest b e) := by
  have hfits := h.tidy.fits
  have hbe := h.lt
  have hle := h.le_stop
  have hbase := h.base_le
  have hlen : sub64 (s.locals id).length (e - b) = (s.locals id).length - (e - b) :=
    sub64_of_le (by omega) (by omega)
  have hsub : sub64 e b = e - b := sub64_of_le (Nat.le_of_lt hbe) (by omega)
  by_cases hb : b = (s.locals id).base
  · have hrest : (s.locals id).length - (e - b) = (s.locals id).base + (s.locals id).length - e := by
      omega
    have hoff : e - (s.locals id).base = e - b := by omega
    simp only [trimRange, LocalRange.rest, if_pos hb, LocalRange.after, hsub, hlen, hrest, hoff]
  · have hrest : (s.locals id).length - (e - b) = b - (s.locals id).base := by omega
    simp only [trimRange, LocalRange.rest, LocalRange.before, hsub, hb, if_false, hlen, hrest]

theorem postsplit_eq (pm new : Nat) (h : Snip (s.locals id) b e) :
    postsplit s pm id new e =
      setLocal (pushRange (setLocal s new ((s.locals id).after e)) pm new) id
        ((s.locals id).before e) := by
  have hfits := h.tidy.fits
  have hbe := h.lt
  have hle := h.le_stop
  have hbase := h.base_le
  have h1 : sub64 ((s.locals id).base + (s.locals id).length) e
      = (s.locals id).base + (s.locals id).length - e := sub64_of_le hle hfits
  have h2 : sub64 e (s.locals id).base = e - (s.locals id).base :=
    sub64_of_le (by omega) (by omega)
  have h3 : sub64 (s.locals id).length ((s.locals id).base + (s.locals id).length - e)
      = e - (s.locals id).base := by
    rw [sub64_of_le (by omega) (by omega)]
    omega
  simp only [postsplit, h1, h2, h3, LocalRange.after, LocalRange.before]

theorem Snip.of_before {l : LocalRange} (h : Snip l b e) : Snip (l.before e) b e := by
  have := h.tidy.fits
  have := h.tidy.base
  have := h.end_dvd
  have := h.base_le
  have := h.lt
  have := h.le_stop
  refine ⟨⟨h.tidy.base, ?_, ?_⟩, h.begin_dvd, h.end_dvd, h.base_le, h.lt, ?_⟩ <;>
    simp only [LocalRange.before] <;> unfold pageSize at * <;> omega

theorem trimRange_postsplit {new : Nat} (h : Snip (s.locals id) b e)
    (hb : (s.locals id).base < b) :
    trimRange (postsplit s pm id new e) id b e =
      setLocal (pushRange (setLocal s new ((s.locals id).after e)) pm new) id
        ((s.locals id).before b) := by
  have hl : (postsplit s pm id new e).locals id = (s.locals id).before e := by
    rw [postsplit_eq _ _ h, setLocal]
    exact Function.update_self ..
  have hlen : (s.locals id).base + (e - (s.locals id).base) = e := by
    have := h.lt
    omega
  rw [trimRange_eq (by rw [hl]; exact h.of_before) (Or.inr (by rw [hl]; exact hlen.symm)), hl]
  have hne : b ≠ ((s.locals id).before e).base := Nat.ne_of_gt hb
  rw [LocalRange.rest, if_neg hne, postsplit_eq _ _ h]
  simp [setLocal, LocalRange.before]

/-! ## `munmap` -/

theorem pageLoop_inv {α : Type} {body : Nat → α → α} {P : α → Prop} (stop : Nat)
    (hbody : ∀ j a, j < stop → P a → P (body j a)) :
    ∀ (fuel j : Nat) {a : α}, P a → P (pageLoop body stop fuel j a)
  | 0, _, _, h => h
  | fuel + 1, j, a, h => by
    rw [pageLoop]
    split
    · next hlt => exact pageLoop_inv stop hbody fuel _ (hbody j a hlt h)
    · exact h

/-- Releasing the pages of a global range succeeds: an entry that `vmm_virt2phys` finds can be
unmapped. Only memory and the record of freed pages change. -/
theorem releaseShadow_frame (s : State σ) (g : Nat) :
    ∃ vm freed, releaseShadow A s g = (true, { s with vm, freed }) := by
  unfold releaseShadow
  refine pageLoop_inv (P := fun acc => ∃ vm freed, acc = (true, { s with vm, freed })) _ ?_ _ _
    ⟨s.vm, s.freed, rfl⟩
  rintro j _ - ⟨vm, freed, rfl⟩
  unfold releasePage
  simp only [Bool.true_eq_false, if_false]
  by_cases hp : Present vm (s.globals g).shadowPagemap j
  · have hunmap := vmmUnmapPage_of_present (A := A) hp
    have hphys : vmmVirt2phys A vm (s.globals g).shadowPagemap j ≠ invalidPhys := by
      rw [vmmVirt2phys_eq, if_pos hp]
      exact pteGetAddr_ne_invalid _
    rw [if_neg hphys]
    rcases hu : vmmUnmapPage A vm (s.globals g).shadowPagemap j with ⟨ok, vm'⟩
    rw [hu] at hunmap
    subst hunmap
    exact ⟨_, _, rfl⟩
  · rw [vmmVirt2phys_eq, if_neg hp, if_pos rfl]
    exact ⟨vm, freed, rfl⟩

/-- The whole range goes: its global range has one local as long as nothing was split. -/
def dropWhole (A : PageAllocator σ) (s : State σ) (pm id b e : Nat) : State σ :=
  if (s.globals (s.locals id).global).locals.length = 1 then
    freeLocal
      (if (s.locals id).flags.anonymous then
        (releaseShadow A (removeRange s pm id) (s.locals id).global).2
      else removeRange s pm id) id
  else setLocal (removeRange s pm id) id ((s.locals id).rest b e)

theorem dropOrTrim_whole (h : Snip (s.locals id) b e) (hb : b = (s.locals id).base)
    (he : e = (s.locals id).base + (s.locals id).length) :
    dropOrTrim A s pm id b e = (true, dropWhole A s pm id b e) := by
  have hlen : sub64 e b = (s.locals id).length := by
    rw [sub64_of_le (Nat.le_of_lt h.lt) (by have := h.tidy.fits; omega)]
    omega
  have htrim : trimRange (removeRange s pm id) id b e =
      setLocal (removeRange s pm id) id ((s.locals id).rest b e) :=
    trimRange_eq (s := removeRange s pm id) h (Or.inl hb)
  have hglobals : (removeRange s pm id).globals = s.globals := rfl
  unfold dropOrTrim dropWhole
  rw [if_pos hlen]
  simp only [hglobals, htrim]
  by_cases hone : (s.globals (s.locals id).global).locals.length = 1
  · obtain ⟨vm, freed, hrel⟩ :=
      releaseShadow_frame (A := A) (removeRange s pm id) (s.locals id).global
    rw [if_pos hone, if_pos hone, hrel]
    by_cases hanon : (s.locals id).flags.anonymous = true
    · simp [hanon]
    · simp [hanon]
  · rw [if_neg hone, if_neg hone]

theorem dropOrTrim_part (h : Snip (s.locals id) b e)
    (hpart : ¬ (b = (s.locals id).base ∧ e = (s.locals id).base + (s.locals id).length)) :
    dropOrTrim A s pm id b e = (true, trimRange s id b e) := by
  have hlen : sub64 e b ≠ (s.locals id).length := by
    have := h.tidy.fits
    have := h.base_le
    have := h.lt
    have := h.le_stop
    rw [sub64_of_le (Nat.le_of_lt h.lt) (by omega)]
    omega
  rw [dropOrTrim, if_neg hlen]

/--
**One turn of `munmap`.** The snip is the whole range, it is at one end of the range, or it is in
the middle and the part behind it needs a new range.
-/
theorem munmapSnip_cases (pm : Nat) (h : Snip (s.locals id) b e) :
    (b = (s.locals id).base ∧ e = (s.locals id).base + (s.locals id).length ∧
      munmapSnip A s pm id b e = (true, dropWhole A (unmapPages A s pm b e) pm id b e)) ∨
    (¬ (b = (s.locals id).base ∧ e = (s.locals id).base + (s.locals id).length) ∧
      (b = (s.locals id).base ∨ e = (s.locals id).base + (s.locals id).length) ∧
      munmapSnip A s pm id b e =
        (true, setLocal (unmapPages A s pm b e) id ((s.locals id).rest b e))) ∨
    (((s.locals id).base < b ∧ e < (s.locals id).base + (s.locals id).length) ∧
      ((s.heapOk s.nextId = false ∧ munmapSnip A s pm id b e =
          (false, setErrno { s with nextId := s.nextId + 1 } .enomem)) ∨
        (s.heapOk s.nextId = true ∧ munmapSnip A s pm id b e =
          (true, setLocal (pushRange (setLocal
            (unmapPages A { s with nextId := s.nextId + 1 } pm b e)
            s.nextId ((s.locals id).after e)) pm s.nextId) id ((s.locals id).before b))))) := by
  have hbase := h.base_le
  have hstop := h.le_stop
  by_cases hsplit : needsSplit (s.locals id) b e = true
  · have hmid := (needsSplit_iff h).mp hsplit
    refine Or.inr (Or.inr ⟨hmid, ?_⟩)
    rw [munmapSnip, if_pos hsplit]
    cases hok : s.heapOk s.nextId with
    | false => exact Or.inl ⟨rfl, by simp [heapAlloc, hok]⟩
    | true =>
      refine Or.inr ⟨rfl, ?_⟩
      let t : State σ := { s with nextId := s.nextId + 1 }
      have hpost := postsplit_eq (s := t) pm s.nextId h
      have hl : (unmapPages A (postsplit t pm id s.nextId e) pm b e).locals id
          = (s.locals id).before e := by
        rw [hpost]
        exact Function.update_self ..
      have hpart : ¬ (b = ((s.locals id).before e).base ∧
          e = ((s.locals id).before e).base + ((s.locals id).before e).length) :=
        fun hc => Nat.ne_of_gt hmid.1 hc.1
      simp only [heapAlloc, hok, if_true]
      rw [dropOrTrim_part (by rw [hl]; exact h.of_before) (by rw [hl]; exact hpart)]
      exact congrArg (fun x => (true, unmapPages A x pm b e)) (trimRange_postsplit (s := t) h hmid.1)
  · have hends : b = (s.locals id).base ∨ e = (s.locals id).base + (s.locals id).length := by
      rw [needsSplit_iff h] at hsplit
      omega
    have hsnip : munmapSnip A s pm id b e
        = dropOrTrim A (unmapPages A s pm b e) pm id b e := by
      rw [munmapSnip, if_neg hsplit]
    by_cases hwhole : b = (s.locals id).base ∧ e = (s.locals id).base + (s.locals id).length
    · exact Or.inl ⟨hwhole.1, hwhole.2, by rw [hsnip]; exact dropOrTrim_whole h hwhole.1 hwhole.2⟩
    · refine Or.inr (Or.inl ⟨hwhole, hends, ?_⟩)
      rw [hsnip, dropOrTrim_part (s := unmapPages A s pm b e) h hwhole,
        trimRange_eq (s := unmapPages A s pm b e) h hends]
      rfl

/-! ## `mprotect` -/

theorem newProtRange_eq (h : Snip (s.locals id) b e)
    (htrim : trimRange s id b e = s') (hid : s'.locals id = (s.locals id).rest b e) :
    newProtRange s pm id prot b e =
      if s'.heapOk s'.nextId then
        some (pushRange (setLocal { s' with nextId := s'.nextId + 1 } s'.nextId
          ((s.locals id).withProt prot b e)) pm s'.nextId)
      else none := by
  have hfits := h.tidy.fits
  have hle := h.le_stop
  have h1 : sub64 e b = e - b := sub64_of_le (Nat.le_of_lt h.lt) (by omega)
  have h2 : sub64 b (s.locals id).base = b - (s.locals id).base :=
    sub64_of_le h.base_le (by have := h.lt; omega)
  -- the new range copies what trimming does not touch
  have hpiece := h.rest_piece
  have hrange : ∀ o : Nat, { (s.locals id).rest b e with
      base := b, length := e - b, offset := o, prot := prot }
      = { s.locals id with base := b, length := e - b, offset := o, prot := prot } := by
    intro o
    simp only [hpiece.pagemap, hpiece.global, hpiece.flags]
  unfold newProtRange
  rw [htrim]
  cases hok : s'.heapOk s'.nextId with
  | false => simp [heapAlloc, hok]
  | true => simp [heapAlloc, hok, h1, h2, hid, hrange, LocalRange.withProt]

/--
**One turn of `mprotect`.** What is left of the range stays, the part behind a snip in the middle
becomes a new range, and so does the snip. Without memory for a new range there is no result.
-/
theorem mprotectSnip_cases (h : Snip (s.locals id) b e) (hs : mprotectSnip A s pm id prot b e = some s') :
    ((b = (s.locals id).base ∨ e = (s.locals id).base + (s.locals id).length) ∧
      s' = pushRange (setLocal (setLocal
        (flagPages A { s with nextId := s.nextId + 1 } pm prot b e) id
          ((s.locals id).rest b e))
        s.nextId ((s.locals id).withProt prot b e)) pm s.nextId) ∨
    (((s.locals id).base < b ∧ e < (s.locals id).base + (s.locals id).length) ∧
      s' = pushRange (setLocal (setLocal (pushRange (setLocal
        (flagPages A { s with nextId := s.nextId + 2 } pm prot b e)
          s.nextId ((s.locals id).after e)) pm s.nextId) id ((s.locals id).before b))
        (s.nextId + 1) ((s.locals id).withProt prot b e)) pm (s.nextId + 1)) := by
  have hbase := h.base_le
  have hstop := h.le_stop
  by_cases hsplit : needsSplit (s.locals id) b e = true
  · have hmid := (needsSplit_iff h).mp hsplit
    refine Or.inr ⟨hmid, ?_⟩
    rw [mprotectSnip, if_pos hsplit] at hs
    cases hok : s.heapOk s.nextId with
    | false => simp [heapAlloc, hok] at hs
    | true =>
      let t : State σ := postsplit { s with nextId := s.nextId + 1 } pm id s.nextId e
      have hl : (flagPages A t pm prot b e).locals id = (s.locals id).before e := by
        show t.locals id = _
        rw [show t = _ from postsplit_eq (s := { s with nextId := s.nextId + 1 }) _ _ h]
        exact Function.update_self ..
      have htrim : trimRange (flagPages A t pm prot b e) id b e = setLocal (pushRange (setLocal
          (flagPages A { s with nextId := s.nextId + 1 } pm prot b e)
            s.nextId ((s.locals id).after e)) pm s.nextId) id ((s.locals id).before b) :=
        congrArg (fun x => flagPages A x pm prot b e)
          (trimRange_postsplit (s := { s with nextId := s.nextId + 1 }) h hmid.1)
      have hrest : ((s.locals id).before e).rest b e = (s.locals id).before b := by
        rw [LocalRange.rest, if_neg (Nat.ne_of_gt hmid.1 : b ≠ ((s.locals id).before e).base)]
        rfl
      simp only [heapAlloc, hok, if_true] at hs
      rw [newProtRange_eq (s := flagPages A t pm prot b e) (by rw [hl]; exact h.of_before) htrim
        (by rw [hl, hrest]; exact Function.update_self ..), hl] at hs
      split at hs
      · exact (Option.some.inj hs).symm
      · simp at hs
  · have hends : b = (s.locals id).base ∨ e = (s.locals id).base + (s.locals id).length := by
      rw [needsSplit_iff h] at hsplit
      omega
    refine Or.inl ⟨hends, ?_⟩
    rw [mprotectSnip, if_neg hsplit,
      newProtRange_eq (s := flagPages A s pm prot b e) h
        (trimRange_eq (s := flagPages A s pm prot b e) h hends) (Function.update_self ..)] at hs
    split at hs
    · exact (Option.some.inj hs).symm
    · simp at hs

/-! ## What a turn does to the list -/

/-- The list of ranges of a pagemap: no range twice, numbers handed out by the heap, and whole
pages. -/
structure Listed (s : State σ) (pm : Nat) : Prop where
  nodup : (s.ranges pm).Nodup
  lt : ∀ x ∈ s.ranges pm, x < s.nextId
  tidy : ∀ x ∈ s.ranges pm, (s.locals x).Tidy

/--
The range `id` is replaced by the pieces `ps`, `id` itself perhaps being one of them. The other
ranges, and everything that has nothing to do with the list, are as before.
-/
structure Turn (s s' : State σ) (pm id : Nat) (ps : List Nat) : Prop where
  mem : ∀ x, x ∈ s'.ranges pm ↔ (x ∈ s.ranges pm ∧ x ≠ id) ∨ x ∈ ps
  nodup : (s'.ranges pm).Nodup
  nextId_le : s.nextId ≤ s'.nextId
  ids : ∀ x ∈ ps, x = id ∨ (s.nextId ≤ x ∧ x < s'.nextId)
  pieces : ∀ x ∈ ps, Piece (s'.locals x) (s.locals id)
  apart : ps.Pairwise fun x y => Apart (s'.locals x) (s'.locals y)
  others : ∀ x < s.nextId, x ≠ id → s'.locals x = s.locals x ∧ s'.localFreed x = s.localFreed x
  fresh : ∀ x, s.nextId ≤ x → s'.localFreed x = s.localFreed x
  kept : id ∈ ps → s'.localFreed id = s.localFreed id
  globals : s'.globals = s.globals
  kernelTop : s'.kernelTop = s.kernelTop
  anonBase : s'.mmapAnonBase = s.mmapAnonBase

namespace Turn

variable {ps : List Nat}

theorem listed (t : Turn s s' pm id ps) (h : Listed s pm) (hid : id ∈ s.ranges pm) :
    Listed s' pm where
  nodup := t.nodup
  lt x hx := by
    have hle := t.nextId_le
    rcases (t.mem x).mp hx with ⟨hx, _⟩ | hx
    · exact Nat.lt_of_lt_of_le (h.lt x hx) hle
    · rcases t.ids x hx with rfl | ⟨_, hlt⟩
      · exact Nat.lt_of_lt_of_le (h.lt x hid) hle
      · exact hlt
  tidy x hx := by
    rcases (t.mem x).mp hx with ⟨hx, hne⟩ | hx
    · rw [(t.others x (h.lt x hx) hne).1]
      exact h.tidy x hx
    · exact (t.pieces x hx).tidy

theorem parent (t : Turn s s' pm id ps) (h : Listed s pm) (hid : id ∈ s.ranges pm) {x : Nat}
    (hx : x ∈ s'.ranges pm) : ∃ y ∈ s.ranges pm, Piece (s'.locals x) (s.locals y) := by
  rcases (t.mem x).mp hx with ⟨hx, hne⟩ | hx
  · rw [(t.others x (h.lt x hx) hne).1]
    exact ⟨x, hx, h.tidy x hx, rfl, rfl, rfl, Nat.le_refl _, Nat.le_refl _⟩
  · exact ⟨id, hid, t.pieces x hx⟩

end Turn

/-- Ranges that `R` relates through their global ranges are apart. -/
def ApartIf (R : Nat → Nat → Prop) (s : State σ) (pm : Nat) : Prop :=
  ∀ x ∈ s.ranges pm, ∀ y ∈ s.ranges pm, x ≠ y →
    R (s.locals x).global (s.locals y).global → Apart (s.locals x) (s.locals y)

theorem Turn.apartIf {R : Nat → Nat → Prop} {ps : List Nat} (t : Turn s s' pm id ps)
    (h : Listed s pm) (hid : id ∈ s.ranges pm) (hR : ∀ a b, R a b → R b a)
    (ha : ApartIf R s pm) : ApartIf R s' pm := by
  -- a range that stays against a piece of `id`
  have hmixed : ∀ x ∈ s.ranges pm, x ≠ id → ∀ y ∈ ps,
      R (s'.locals x).global (s'.locals y).global → Apart (s'.locals x) (s'.locals y) := by
    intro x hx hne y hy hr v hv
    have hp := t.pieces y hy
    rw [(t.others x (h.lt x hx) hne).1] at hr hv
    rw [hp.global] at hr
    exact ha x hx id hid hne hr v ⟨hv.1, hp.has hv.2⟩
  intro x hx y hy hxy hr
  rcases (t.mem x).mp hx with ⟨hx, hxid⟩ | hx <;> rcases (t.mem y).mp hy with ⟨hy, hyid⟩ | hy
  · rw [(t.others x (h.lt x hx) hxid).1, (t.others y (h.lt y hy) hyid).1] at hr ⊢
    exact ha x hx y hy hxy hr
  · exact hmixed x hx hxid y hy hr
  · exact (hmixed y hy hyid x hx (hR _ _ hr)).symm
  · have : Std.Symm fun x y => Apart (s'.locals x) (s'.locals y) := ⟨fun _ _ h => h.symm⟩
    exact t.apart.forall hx hy hxy

/-- A turn of `munmap` at `[b, e)`: the pieces are what lies outside. -/
structure Cut (s s' : State σ) (pm id b e : Nat) (ps : List Nat) : Prop
    extends Turn s s' pm id ps where
  gone : ∀ x ∈ ps, ∀ v, (s'.locals x).Has v → ¬ (b ≤ v ∧ v < e)
  stays : ∀ v, (s.locals id).Has v → ¬ (b ≤ v ∧ v < e) → ∃ x ∈ ps, (s'.locals x).Has v
  nonempty : ∀ x ∈ ps, (s'.locals x).length ≠ 0
  gap : ∀ x ∈ ps, ∀ y ∈ ps, x ≠ y → ∀ v, (s'.locals x).Has v → ¬ (s'.locals y).Has (v + 1)

/-- A turn of `mprotect` at `[b, e)`: the pieces make up the range, and what lies inside has the
new protection. -/
structure Recolor (s s' : State σ) (pm id b e : Nat) (prot : Prot) (ps : List Nat) : Prop
    extends Turn s s' pm id ps where
  inside : ∀ x ∈ ps, (s'.locals x).prot = prot ∨ ∀ v, (s'.locals x).Has v → ¬ (b ≤ v ∧ v < e)
  stays : ∀ v, (s.locals id).Has v → ∃ x ∈ ps, (s'.locals x).Has v
  nonempty : ¬ (b = (s.locals id).base ∧ e = (s.locals id).base + (s.locals id).length) →
    ∀ x ∈ ps, (s'.locals x).length ≠ 0

theorem mem_push {l news : List Nat} (hid : id ∈ l) (x : Nat) :
    x ∈ l ++ news ↔ (x ∈ l ∧ x ≠ id) ∨ x ∈ id :: news := by
  rw [List.mem_append, List.mem_cons]
  by_cases hx : x = id
  · simp [hx, hid]
  · simp [hx]

theorem nodup_push {n : Nat} {l news : List Nat} (hl : l.Nodup) (hlt : ∀ x ∈ l, x < n)
    (hnews : news.Nodup) (hge : ∀ x ∈ news, n ≤ x) : (l ++ news).Nodup := by
  rw [List.nodup_append]
  refine ⟨hl, hnews, ?_⟩
  rintro x hx y hy rfl
  exact absurd (hlt x hx) (Nat.not_lt.mpr (hge x hy))

theorem Turn.of_push {news : List Nat} (hl : Listed s pm) (hid : id ∈ s.ranges pm)
    (hranges : s'.ranges pm = s.ranges pm ++ news) (hnews : news.Nodup)
    (hnext : s.nextId ≤ s'.nextId) (hge : ∀ x ∈ news, s.nextId ≤ x ∧ x < s'.nextId)
    (hpieces : ∀ x ∈ id :: news, Piece (s'.locals x) (s.locals id))
    (hapart : (id :: news).Pairwise fun x y => Apart (s'.locals x) (s'.locals y))
    (hothers : ∀ x < s.nextId, x ≠ id → s'.locals x = s.locals x)
    (hfreed : s'.localFreed = s.localFreed) (hglobals : s'.globals = s.globals)
    (hkernel : s'.kernelTop = s.kernelTop) (hanon : s'.mmapAnonBase = s.mmapAnonBase) :
    Turn s s' pm id (id :: news) where
  mem x := by rw [hranges]; exact mem_push hid x
  nodup := by rw [hranges]; exact nodup_push hl.nodup hl.lt hnews fun x hx => (hge x hx).1
  nextId_le := hnext
  ids x hx := (List.mem_cons.mp hx).imp (fun h => h) (hge x)
  pieces := hpieces
  apart := hapart
  others x hx hne := ⟨hothers x hx hne, by rw [hfreed]⟩
  fresh _ _ := by rw [hfreed]
  kept _ := by rw [hfreed]
  globals := hglobals
  kernelTop := hkernel
  anonBase := hanon

/-- `dropWhole` takes the range from the list and touches no other. -/
theorem dropWhole_frame (s : State σ) (pm id b e : Nat) :
    (dropWhole A s pm id b e).ranges = (removeRange s pm id).ranges ∧
    (∀ x, x ≠ id → (dropWhole A s pm id b e).locals x = s.locals x ∧
      (dropWhole A s pm id b e).localFreed x = s.localFreed x) ∧
    (dropWhole A s pm id b e).nextId = s.nextId ∧
    (dropWhole A s pm id b e).globals = s.globals ∧
    (dropWhole A s pm id b e).kernelTop = s.kernelTop ∧
    (dropWhole A s pm id b e).mmapAnonBase = s.mmapAnonBase := by
  obtain ⟨vm, freed, hrel⟩ :=
    releaseShadow_frame (A := A) (removeRange s pm id) (s.locals id).global
  unfold dropWhole
  rw [hrel]
  split
  · split <;>
    · refine ⟨rfl, fun x hx => ⟨rfl, ?_⟩, rfl, rfl, rfl, rfl⟩
      exact Function.update_of_ne hx ..
  · refine ⟨rfl, fun x hx => ⟨?_, rfl⟩, rfl, rfl, rfl, rfl⟩
    exact Function.update_of_ne hx ..

theorem Cut.of_whole (hl : Listed s pm) (hid : id ∈ s.ranges pm) (hb : b = (s.locals id).base)
    (he : e = (s.locals id).base + (s.locals id).length) :
    Cut s (dropWhole A (unmapPages A s pm b e) pm id b e) pm id b e [] := by
  obtain ⟨hr, hothers, hn, hg, hk, ha⟩ :=
    dropWhole_frame (A := A) (unmapPages A s pm b e) pm id b e
  have hr' : (dropWhole A (unmapPages A s pm b e) pm id b e).ranges pm
      = (s.ranges pm).erase id := by
    rw [hr]
    exact Function.update_self ..
  refine ⟨⟨?_, ?_, ?_, ?_, ?_, ?_, ?_, ?_, ?_, hg, hk, ha⟩, ?_, ?_, ?_, ?_⟩
  · intro x
    rw [hr', hl.nodup.mem_erase_iff]
    simp [and_comm]
  · rw [hr']
    exact hl.nodup.erase id
  · exact Nat.le_of_eq hn.symm
  · simp
  · simp
  · exact List.Pairwise.nil
  · exact fun x _ hx => hothers x hx
  · exact fun x hx => (hothers x (Nat.ne_of_gt (Nat.lt_of_lt_of_le (hl.lt id hid) hx))).2
  · simp
  · simp
  · intro v hv hout
    unfold LocalRange.Has at hv
    omega
  · simp
  · simp

theorem Cut.of_rest (hl : Listed s pm) (hid : id ∈ s.ranges pm) (h : Snip (s.locals id) b e)
    (hwhole : ¬ (b = (s.locals id).base ∧ e = (s.locals id).base + (s.locals id).length))
    (hends : b = (s.locals id).base ∨ e = (s.locals id).base + (s.locals id).length) :
    Cut s (setLocal (unmapPages A s pm b e) id ((s.locals id).rest b e)) pm id b e [id] := by
  have hself : (setLocal (unmapPages A s pm b e) id ((s.locals id).rest b e)).locals id
      = (s.locals id).rest b e := Function.update_self ..
  refine ⟨.of_push hl hid (List.append_nil _).symm List.nodup_nil (Nat.le_refl _)
    (by simp) ?_ (List.pairwise_singleton ..) (fun x _ hx => Function.update_of_ne hx ..)
    rfl rfl rfl rfl, ?_, ?_, ?_, ?_⟩
  · simpa [hself] using h.rest_piece
  · intro x hx v hv
    rw [List.mem_singleton.mp hx, hself, h.rest_has hends] at hv
    exact hv.2
  · intro v hv hout
    refine ⟨id, List.mem_singleton_self id, ?_⟩
    rw [hself, h.rest_has hends]
    exact ⟨hv, hout⟩
  · intro x hx
    rw [List.mem_singleton.mp hx, hself]
    exact h.rest_nonempty hwhole
  · intro x hx y hy hxy
    exact absurd ((List.mem_singleton.mp hx).trans (List.mem_singleton.mp hy).symm) hxy

/-- A snip in the middle: the range keeps the part before it, a new one gets the part behind. -/
theorem Cut.of_split (hl : Listed s pm) (hid : id ∈ s.ranges pm) (h : Snip (s.locals id) b e)
    (hmid : (s.locals id).base < b ∧ e < (s.locals id).base + (s.locals id).length)
    (hranges : s'.ranges pm = s.ranges pm ++ [s.nextId]) (hnext : s'.nextId = s.nextId + 1)
    (hself : s'.locals id = (s.locals id).before b)
    (hnew : s'.locals s.nextId = (s.locals id).after e)
    (hothers : ∀ x < s.nextId, x ≠ id → s'.locals x = s.locals x)
    (hfreed : s'.localFreed = s.localFreed) (hglobals : s'.globals = s.globals)
    (hkernel : s'.kernelTop = s.kernelTop) (hanon : s'.mmapAnonBase = s.mmapAnonBase) :
    Cut s s' pm id b e [id, s.nextId] := by
  have hbe := h.lt
  refine ⟨.of_push hl hid hranges (by simp) (by omega) (by simp [hnext]) ?_ ?_ hothers hfreed
    hglobals hkernel hanon, ?_, ?_, ?_, ?_⟩
  · simpa [hself, hnew] using ⟨h.before_piece, h.after_piece⟩
  · simp only [List.pairwise_pair, hself, hnew, Apart, h.before_has, h.after_has]
    omega
  · intro x hx v hv
    rcases List.mem_pair.mp hx with rfl | rfl
    · rw [hself, h.before_has] at hv
      omega
    · rw [hnew, h.after_has] at hv
      omega
  · intro v hv hout
    unfold LocalRange.Has at hv
    by_cases hvb : v < b
    · exact ⟨id, by simp, by rw [hself, h.before_has]; omega⟩
    · exact ⟨s.nextId, by simp, by rw [hnew, h.after_has]; omega⟩
  · intro x hx
    rcases List.mem_pair.mp hx with rfl | rfl
    · rw [hself]
      simp only [LocalRange.before]
      omega
    · rw [hnew]
      simp only [LocalRange.after]
      omega
  · intro x hx y hy hxy v hv hv'
    rcases List.mem_pair.mp hx with rfl | rfl <;> rcases List.mem_pair.mp hy with rfl | rfl
    · exact hxy rfl
    · rw [hself, h.before_has] at hv
      rw [hnew, h.after_has] at hv'
      omega
    · rw [hnew, h.after_has] at hv
      rw [hself, h.before_has] at hv'
      omega
    · exact hxy rfl

/-- **One turn of `munmap` on the list of ranges.** -/
theorem munmapSnip_cut (hl : Listed s pm) (hid : id ∈ s.ranges pm) (h : Snip (s.locals id) b e)
    (hs : munmapSnip A s pm id b e = (true, s')) : ∃ ps, Cut s s' pm id b e ps := by
  rcases munmapSnip_cases (A := A) pm h with
    ⟨hb, he, heq⟩ | ⟨hwhole, hends, heq⟩ | ⟨hmid, ⟨_, heq⟩ | ⟨_, heq⟩⟩
  · rw [heq] at hs
    obtain rfl := congrArg Prod.snd hs
    exact ⟨[], .of_whole hl hid hb he⟩
  · rw [heq] at hs
    obtain rfl := congrArg Prod.snd hs
    exact ⟨[id], .of_rest hl hid h hwhole hends⟩
  · rw [heq] at hs
    simp at hs
  · rw [heq] at hs
    obtain rfl := congrArg Prod.snd hs
    have hne : s.nextId ≠ id := Nat.ne_of_gt (hl.lt id hid)
    refine ⟨[id, s.nextId], .of_split hl hid h hmid (Function.update_self ..) rfl
      (Function.update_self ..) ?_ ?_ rfl rfl rfl rfl⟩
    · exact (Function.update_of_ne hne ..).trans (Function.update_self ..)
    · intro x hx hxid
      exact (Function.update_of_ne hxid ..).trans (Function.update_of_ne (Nat.ne_of_lt hx) ..)

/-- A snip at one end: a new range gets it with its protection, the range keeps the rest. -/
theorem Recolor.of_rest (hl : Listed s pm) (hid : id ∈ s.ranges pm) (h : Snip (s.locals id) b e)
    (hends : b = (s.locals id).base ∨ e = (s.locals id).base + (s.locals id).length)
    (hranges : s'.ranges pm = s.ranges pm ++ [s.nextId]) (hnext : s'.nextId = s.nextId + 1)
    (hself : s'.locals id = (s.locals id).rest b e)
    (hnew : s'.locals s.nextId = (s.locals id).withProt prot b e)
    (hothers : ∀ x < s.nextId, x ≠ id → s'.locals x = s.locals x)
    (hfreed : s'.localFreed = s.localFreed) (hglobals : s'.globals = s.globals)
    (hkernel : s'.kernelTop = s.kernelTop) (hanon : s'.mmapAnonBase = s.mmapAnonBase) :
    Recolor s s' pm id b e prot [id, s.nextId] := by
  have hbe := h.lt
  refine ⟨.of_push hl hid hranges (by simp) (by omega) (by simp [hnext]) ?_ ?_ hothers hfreed
    hglobals hkernel hanon, ?_, ?_, ?_⟩
  · simpa [hself, hnew] using ⟨h.rest_piece, h.withProt_piece prot⟩
  · simp only [List.pairwise_pair, hself, hnew, Apart, h.rest_has hends, h.withProt_has]
    tauto
  · intro x hx
    rcases List.mem_pair.mp hx with rfl | rfl
    · exact Or.inr fun v hv => by rw [hself, h.rest_has hends] at hv; exact hv.2
    · exact Or.inl (by rw [hnew]; rfl)
  · intro v hv
    by_cases hin : b ≤ v ∧ v < e
    · exact ⟨s.nextId, by simp, by rw [hnew, h.withProt_has]; exact hin⟩
    · exact ⟨id, by simp, by rw [hself, h.rest_has hends]; exact ⟨hv, hin⟩⟩
  · intro hpart x hx
    rcases List.mem_pair.mp hx with rfl | rfl
    · rw [hself]
      exact h.rest_nonempty hpart
    · rw [hnew]
      simp only [LocalRange.withProt]
      omega

/-- A snip in the middle: the range keeps the part before it, two new ones get the part behind and
the snip itself. -/
theorem Recolor.of_split (hl : Listed s pm) (hid : id ∈ s.ranges pm) (h : Snip (s.locals id) b e)
    (hmid : (s.locals id).base < b ∧ e < (s.locals id).base + (s.locals id).length)
    (hranges : s'.ranges pm = s.ranges pm ++ [s.nextId, s.nextId + 1])
    (hnext : s'.nextId = s.nextId + 2) (hself : s'.locals id = (s.locals id).before b)
    (hpost : s'.locals s.nextId = (s.locals id).after e)
    (hnew : s'.locals (s.nextId + 1) = (s.locals id).withProt prot b e)
    (hothers : ∀ x < s.nextId, x ≠ id → s'.locals x = s.locals x)
    (hfreed : s'.localFreed = s.localFreed) (hglobals : s'.globals = s.globals)
    (hkernel : s'.kernelTop = s.kernelTop) (hanon : s'.mmapAnonBase = s.mmapAnonBase) :
    Recolor s s' pm id b e prot [id, s.nextId, s.nextId + 1] := by
  have hbe := h.lt
  refine ⟨.of_push hl hid hranges (by simp) (by omega) (by simp [hnext]) ?_ ?_ hothers hfreed
    hglobals hkernel hanon, ?_, ?_, ?_⟩
  · simpa [hself, hpost, hnew] using ⟨h.before_piece, h.after_piece, h.withProt_piece prot⟩
  · simp only [List.pairwise_cons, List.mem_cons, List.not_mem_nil, or_false, forall_eq_or_imp,
      forall_eq, hself, hpost, hnew, Apart, h.before_has, h.after_has, h.withProt_has]
    refine ⟨⟨?_, ?_⟩, ?_, ?_, List.Pairwise.nil⟩ <;> first | omega | simp
  · intro x hx
    rcases List.mem_cons.mp hx with rfl | hx
    · exact Or.inr fun v hv => by rw [hself, h.before_has] at hv; omega
    · rcases List.mem_pair.mp hx with rfl | rfl
      · exact Or.inr fun v hv => by rw [hpost, h.after_has] at hv; omega
      · exact Or.inl (by rw [hnew]; rfl)
  · intro v hv
    unfold LocalRange.Has at hv
    by_cases hvb : v < b
    · exact ⟨id, by simp, by rw [hself, h.before_has]; omega⟩
    · by_cases hve : v < e
      · exact ⟨s.nextId + 1, by simp, by rw [hnew, h.withProt_has]; omega⟩
      · exact ⟨s.nextId, by simp, by rw [hpost, h.after_has]; omega⟩
  · intro _ x hx
    rcases List.mem_cons.mp hx with rfl | hx
    · rw [hself]
      simp only [LocalRange.before]
      omega
    · rcases List.mem_pair.mp hx with rfl | rfl
      · rw [hpost]
        simp only [LocalRange.after]
        omega
      · rw [hnew]
        simp only [LocalRange.withProt]
        omega

/-- **One turn of `mprotect` on the list of ranges.** -/
theorem mprotectSnip_recolor (hl : Listed s pm) (hid : id ∈ s.ranges pm)
    (h : Snip (s.locals id) b e) (hs : mprotectSnip A s pm id prot b e = some s') :
    ∃ ps, Recolor s s' pm id b e prot ps := by
  have hidlt := hl.lt id hid
  rcases mprotectSnip_cases (A := A) h hs with ⟨hends, rfl⟩ | ⟨hmid, rfl⟩
  · have hne : id ≠ s.nextId := Nat.ne_of_lt hidlt
    refine ⟨[id, s.nextId], .of_rest hl hid h hends (Function.update_self ..) rfl ?_
      (Function.update_self ..) ?_ rfl rfl rfl rfl⟩
    · exact (Function.update_of_ne hne ..).trans (Function.update_self ..)
    · intro x hx hxid
      exact (Function.update_of_ne (Nat.ne_of_lt hx) ..).trans (Function.update_of_ne hxid ..)
  · have hne₀ : id ≠ s.nextId := Nat.ne_of_lt hidlt
    have hne₁ : id ≠ s.nextId + 1 := by omega
    refine ⟨[id, s.nextId, s.nextId + 1], .of_split hl hid h hmid ?_ rfl ?_ ?_
      (Function.update_self ..) ?_ rfl rfl rfl rfl⟩
    · simp [pushRange, setLocal, flagPages]
    · exact (Function.update_of_ne hne₁ ..).trans (Function.update_self ..)
    · exact (Function.update_of_ne (Nat.ne_of_lt (Nat.lt_succ_self _)) ..).trans
        ((Function.update_of_ne hne₀.symm ..).trans (Function.update_self ..))
    · intro x hx hxid
      exact (Function.update_of_ne (by omega : x ≠ s.nextId + 1) ..).trans
        ((Function.update_of_ne hxid ..).trans (Function.update_of_ne (Nat.ne_of_lt hx) ..))

/-! ## The loops -/

theorem addr2range_some {v : Nat} {r : Addr2range} (h : addr2range s pm v = some r) :
    r.range ∈ s.ranges pm ∧ (s.locals r.range).covers v = true ∧ r.memoryPage = v / pageSize := by
  unfold addr2range at h
  rw [Option.map_eq_some_iff] at h
  obtain ⟨id, hf, rfl⟩ := h
  exact ⟨List.mem_of_find?_eq_some hf, List.find?_some (p := fun id => (s.locals id).covers v) hf,
    rfl⟩

theorem addr2range_none {v : Nat} (h : addr2range s pm v = none) :
    ∀ x ∈ s.ranges pm, ¬ (s.locals x).covers v = true := by
  unfold addr2range at h
  rw [Option.map_eq_none_iff] at h
  exact List.find?_eq_none.mp h

theorem u64_dvd {n : Nat} (h : pageSize ∣ n) : pageSize ∣ u64 n := by
  unfold u64 pageSize at *
  omega

theorem snip_of_found {i stop : Nat} (ht : (s.locals id).Tidy) (hi : pageSize ∣ i)
    (hs : pageSize ∣ stop) (hlt : i < stop) (hhas : (s.locals id).Has i) :
    snipLoop (s.locals id).stop stop loopFuel i
      = min ((s.locals id).base + (s.locals id).length) stop ∧
    Snip (s.locals id) i (min ((s.locals id).base + (s.locals id).length) stop) := by
  obtain ⟨hb, hl, hfits⟩ := ht
  unfold LocalRange.Has at hhas
  have hdvd : pageSize ∣ (s.locals id).base + (s.locals id).length := Nat.dvd_add hb hl
  constructor
  · rw [LocalRange.Tidy.stop_eq ⟨hb, hl, hfits⟩]
    refine snipLoop_eq hdvd hs hfits hi hhas.2 hlt ?_
    unfold loopFuel pageSize
    omega
  · refine ⟨⟨hb, hl, hfits⟩, hi, ?_, hhas.1, ?_, Nat.min_le_left _ _⟩
    · rcases Nat.le_total ((s.locals id).base + (s.locals id).length) stop with h | h
      · rwa [Nat.min_eq_left h]
      · rwa [Nat.min_eq_right h]
    · omega

/--
**The rule for `munmap`'s loop.** `P i s` holds whenever the loop looks at page `i`; it survives a
page without a range and a turn that cuts one.
-/
theorem munmapLoop_rule {P : Nat → State σ → Prop} {Q : Bool → State σ → Prop} {stop : Nat}
    (hstop : pageSize ∣ stop) (hlisted : ∀ i s, P i s → Listed s pm)
    (hskip : ∀ i s, pageSize ∣ i → i < stop → P i s →
      (∀ x ∈ s.ranges pm, ¬ (s.locals x).Has i) → P (u64 (i + pageSize)) s)
    (hsnip : ∀ i e s id s', pageSize ∣ i → i < stop → P i s → id ∈ s.ranges pm →
      (s.locals id).Has i → e = min ((s.locals id).base + (s.locals id).length) stop →
      Snip (s.locals id) i e → munmapSnip A s pm id i e = (true, s') → P (u64 (e + pageSize)) s')
    (hfail : ∀ i s, P i s → Q false (setErrno { s with nextId := s.nextId + 1 } .enomem))
    (hdone : ∀ i s, stop ≤ i → P i s → Q true s) :
    ∀ {fuel i : Nat} {s : State σ} {ok : Bool} {s' : State σ}, pageSize ∣ i → P i s →
      munmapLoop A pm stop fuel i s = some (ok, s') → Q ok s'
  | 0, _, _, _, _, _, _, h => by simp [munmapLoop] at h
  | fuel + 1, i, s, ok, s', hi, hP, h => by
    rw [munmapLoop] at h
    split at h
    · next hlt =>
      have hrec : ∀ {i s}, pageSize ∣ i → P i s → munmapLoop A pm stop fuel i s = some (ok, s') →
          Q ok s' := fun hi hP h => munmapLoop_rule hstop hlisted hskip hsnip hfail hdone hi hP h
      have hl := hlisted i s hP
      cases hr : addr2range s pm i with
      | none =>
        rw [hr] at h
        refine hrec (u64_dvd (Nat.dvd_add hi (Nat.dvd_refl _))) (hskip i s hi hlt hP ?_) h
        intro x hx hhas
        exact addr2range_none hr x hx ((hl.tidy x hx).covers_iff.mpr hhas)
      | some r =>
        obtain ⟨hmem, hcov, -⟩ := addr2range_some hr
        have hhas := (hl.tidy _ hmem).covers_iff.mp hcov
        obtain ⟨he, hS⟩ := snip_of_found (hl.tidy _ hmem) hi hstop hlt hhas
        rw [hr] at h
        simp only [he] at h
        rcases hm : munmapSnip A s pm r.range i
          (min ((s.locals r.range).base + (s.locals r.range).length) stop) with ⟨_ | _, s₁⟩
        · -- only a refused split makes a turn fail
          rw [hm] at h
          obtain ⟨rfl, rfl⟩ : false = ok ∧ s₁ = s' := by simpa using h
          rcases munmapSnip_cases (A := A) pm hS with
            ⟨_, _, hc⟩ | ⟨_, _, hc⟩ | ⟨_, ⟨_, hc⟩ | ⟨_, hc⟩⟩
          · rw [hm] at hc; simp at hc
          · rw [hm] at hc; simp at hc
          · rw [hm] at hc
            rw [show s₁ = _ from congrArg Prod.snd hc]
            exact hfail i s hP
          · rw [hm] at hc; simp at hc
        · rw [hm] at h
          exact hrec (u64_dvd (Nat.dvd_add hS.end_dvd (Nat.dvd_refl _)))
            (hsnip i _ s r.range s₁ hi hlt hP hmem hhas rfl hS hm) h
    · next hge =>
      obtain ⟨rfl, rfl⟩ : true = ok ∧ s = s' := by simpa using h
      exact hdone i s (by omega) hP

/-- **The rule for `mprotect`'s loop.** -/
theorem mprotectLoop_rule {P : Nat → State σ → Prop} {Q : State σ → Prop} {stop : Nat}
    (hstop : pageSize ∣ stop) (hlisted : ∀ i s, P i s → Listed s pm)
    (hskip : ∀ i s id, pageSize ∣ i → i < stop → P i s → id ∈ s.ranges pm →
      (s.locals id).Has i → (s.locals id).prot = prot → P (u64 (i + pageSize)) s)
    (hsnip : ∀ i e s id s', pageSize ∣ i → i < stop → P i s → id ∈ s.ranges pm →
      (s.locals id).Has i → (s.locals id).prot ≠ prot →
      e = min ((s.locals id).base + (s.locals id).length) stop → Snip (s.locals id) i e →
      mprotectSnip A s pm id prot i e = some s' → P (u64 (e + pageSize)) s')
    (hdone : ∀ i s, stop ≤ i → P i s → Q s) :
    ∀ {fuel i : Nat} {s s' : State σ}, pageSize ∣ i → P i s →
      mprotectLoop A pm prot stop fuel i s = some s' → Q s'
  | 0, _, _, _, _, _, h => by simp [mprotectLoop] at h
  | fuel + 1, i, s, s', hi, hP, h => by
    rw [mprotectLoop] at h
    split at h
    · next hlt =>
      have hrec : ∀ {i s}, pageSize ∣ i → P i s → mprotectLoop A pm prot stop fuel i s = some s' →
          Q s' := fun hi hP h => mprotectLoop_rule hstop hlisted hskip hsnip hdone hi hP h
      have hl := hlisted i s hP
      cases hr : addr2range s pm i with
      | none =>
        rw [hr] at h
        simp at h
      | some r =>
        obtain ⟨hmem, hcov, -⟩ := addr2range_some hr
        have hhas := (hl.tidy _ hmem).covers_iff.mp hcov
        obtain ⟨he, hS⟩ := snip_of_found (hl.tidy _ hmem) hi hstop hlt hhas
        rw [hr] at h
        simp only [he] at h
        split at h
        · next hprot =>
          exact hrec (u64_dvd (Nat.dvd_add hi (Nat.dvd_refl _)))
            (hskip i s r.range hi hlt hP hmem hhas hprot) h
        · next hprot =>
          split at h
          · simp at h
          · next s₁ hm =>
            exact hrec (u64_dvd (Nat.dvd_add hS.end_dvd (Nat.dvd_refl _)))
              (hsnip i _ s r.range s₁ hi hlt hP hmem hhas hprot rfl hS hm) h
    · next hge =>
      obtain rfl : s = s' := by simpa using h
      exact hdone i s (by omega) hP

end

end Lyre.Mmap
