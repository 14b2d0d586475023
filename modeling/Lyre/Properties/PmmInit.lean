import Lyre.Properties.Pmm

/-!
# The bitmap that `pmm_init` leaves

The bitmap has `highest_page_index / 8` bytes, rounded up to pages. Where this quotient is a whole
number of pages and leaves a remainder, the bits of the last pages come to lie in the byte behind
the bitmap (`not_fits`). Otherwise a bit is clear if its page is usable and not taken by the bitmap,
provided that no two entries of the memory map have a claim to that storage.
-/

namespace Lyre.Pmm

variable {memory : Nat → Bitmap} {entries entries' pre post : List MemmapEntry} {e : MemmapEntry}
  {bitmap : Bitmap} {p n size base : Nat}

/-! ## The memory map -/

/-- The page begins in a usable entry. -/
def MemmapEntry.Covers (e : MemmapEntry) (p : Nat) : Prop :=
  e.type = .usable ∧ e.base ≤ p * pageSize ∧ p * pageSize < e.base + e.length

/-- Some entry says that the page is usable. -/
def Usable (entries : List MemmapEntry) (p : Nat) : Prop := ∃ e ∈ entries, e.Covers p

/-- A usable entry consists of pages, and it ends where there still are addresses. -/
def MemmapEntry.WellFormed (e : MemmapEntry) : Prop :=
  e.type = .usable → pageSize ∣ e.base ∧ pageSize ∣ e.length ∧ e.base + e.length < 2 ^ 64

instance (e : MemmapEntry) : Decidable e.WellFormed := by
  unfold MemmapEntry.WellFormed
  infer_instance

/-- `highest_page_index`. -/
def highestPage (entries : List MemmapEntry) : Nat := highestAddr entries / pageSize

theorem highestAddr_foldl (hwf : ∀ e ∈ entries, e.WellFormed) (h : Nat) :
    h ≤ entries.foldl
        (fun h e => if e.type = .usable then max h (u64 (e.base + e.length)) else h) h ∧
      ∀ e ∈ entries, e.type = .usable → e.base + e.length ≤ entries.foldl
        (fun h e => if e.type = .usable then max h (u64 (e.base + e.length)) else h) h := by
  induction entries generalizing h with
  | nil => exact ⟨Nat.le_refl h, fun e he => absurd he List.not_mem_nil⟩
  | cons a entries ih =>
    rw [List.foldl_cons]
    obtain ⟨hacc, hall⟩ := ih (fun e he => hwf e (List.mem_cons_of_mem a he))
      (if a.type = .usable then max h (u64 (a.base + a.length)) else h)
    constructor
    · refine Nat.le_trans ?_ hacc
      split
      · exact Nat.le_max_left _ _
      · exact Nat.le_refl h
    · intro e he hu
      rcases List.mem_cons.mp he with rfl | he
      · refine Nat.le_trans ?_ hacc
        rw [if_pos hu, u64_of_lt (hwf e List.mem_cons_self hu).2.2]
        exact Nat.le_max_right _ _
      · exact hall e he hu

/-- Usable pages are below `highest_page_index`. -/
theorem Usable.lt (hwf : ∀ e ∈ entries, e.WellFormed) (h : Usable entries p) :
    p < highestPage entries := by
  obtain ⟨e, he, hu, hle, hlt⟩ := h
  have hend : e.base + e.length ≤ highestAddr entries := (highestAddr_foldl hwf 0).2 e he hu
  obtain ⟨hb, hl, -⟩ := hwf e he hu
  unfold highestPage
  unfold pageSize at *
  omega

/-! ## The hole -/

/-- The first usable entry that is long enough. -/
structure Hole (size : Nat) (entries pre : List MemmapEntry) (e : MemmapEntry)
    (post : List MemmapEntry) : Prop where
  split : entries = pre ++ e :: post
  usable : e.type = .usable
  long : size ≤ e.length
  first : ∀ x ∈ pre, ¬ (x.type = .usable ∧ size ≤ x.length)

/-- What is left of the entry. -/
def MemmapEntry.rest (e : MemmapEntry) (size : Nat) : MemmapEntry :=
  { e with base := u64 (e.base + size), length := e.length - size }

theorem takeHole_eq (h : Hole size entries pre e post) :
    takeHole size entries = some (e.base, pre ++ e.rest size :: post) := by
  obtain ⟨rfl, hu, hl, hfirst⟩ := h
  induction pre with
  | nil => exact if_pos ⟨hu, hl⟩
  | cons x pre ih =>
    rw [List.cons_append, takeHole, if_neg (hfirst x List.mem_cons_self),
      ih fun y hy => hfirst y (List.mem_cons_of_mem x hy)]
    rfl

theorem exists_hole (h : ∃ e ∈ entries, e.type = .usable ∧ size ≤ e.length) :
    ∃ pre e post, Hole size entries pre e post := by
  induction entries with
  | nil =>
    obtain ⟨e, he, -⟩ := h
    exact absurd he List.not_mem_nil
  | cons x entries ih =>
    by_cases hx : x.type = .usable ∧ size ≤ x.length
    · exact ⟨[], x, entries, rfl, hx.1, hx.2, fun y hy => absurd hy List.not_mem_nil⟩
    · obtain ⟨e, he, hu⟩ := h
      have hmem : e ∈ entries := by
        rcases List.mem_cons.mp he with rfl | he
        · exact absurd hu hx
        · exact he
      obtain ⟨pre, f, post, hh⟩ := ih ⟨e, hmem, hu⟩
      refine ⟨x :: pre, f, post, by rw [hh.split]; rfl, hh.usable, hh.long, fun y hy => ?_⟩
      rcases List.mem_cons.mp hy with rfl | hy
      · exact hx
      · exact hh.first y hy

theorem rest_covers (hwf : e.WellFormed) (hlong : size ≤ e.length) :
    (e.rest size).Covers p ↔ e.Covers p ∧ e.base + size ≤ p * pageSize := by
  unfold MemmapEntry.Covers MemmapEntry.rest
  dsimp only
  constructor
  · rintro ⟨hu, hle, hlt⟩
    have hend := (hwf hu).2.2
    rw [u64_of_lt (by omega)] at hle hlt
    exact ⟨⟨hu, by omega, by omega⟩, hle⟩
  · rintro ⟨⟨hu, hle, hlt⟩, h⟩
    have hend := (hwf hu).2.2
    rw [u64_of_lt (by omega)]
    exact ⟨hu, h, by omega⟩

theorem rest_wellFormed (hwf : e.WellFormed) (hsize : pageSize ∣ size) (hlong : size ≤ e.length) :
    (e.rest size).WellFormed := by
  intro hu
  obtain ⟨hb, hl, hend⟩ := hwf hu
  unfold MemmapEntry.rest
  dsimp only
  rw [u64_of_lt (by omega)]
  exact ⟨(Nat.dvd_add_right hb).mpr hsize, Nat.dvd_sub hl hsize, by omega⟩

/-! ## Clearing the bits -/

theorem freeEntry_covers (hwf : e.WellFormed) (hu : e.type = .usable) :
    e.base / pageSize ≤ p ∧ p < e.base / pageSize + divRoundup e.length pageSize ↔ e.Covers p := by
  obtain ⟨hb, hl, hend⟩ := hwf hu
  have hround : divRoundup e.length pageSize = e.length / pageSize := by
    unfold divRoundup u64
    unfold pageSize at *
    omega
  unfold MemmapEntry.Covers
  rw [hround, and_iff_right hu]
  unfold pageSize at *
  omega

theorem bitmapTest_freeEntry (hwf : e.WellFormed) :
    bitmapTest (freeEntry bitmap e) p = false ↔ e.Covers p ∨ bitmapTest bitmap p = false := by
  unfold freeEntry
  split
  · next hu =>
    rw [bitmapTest_resetRange, Bool.and_eq_false_iff, Bool.not_eq_false', decide_eq_true_eq,
      freeEntry_covers hwf hu]
  · next hu => exact (or_iff_right fun h => hu h.1).symm

theorem bitmapTest_freeEntries (hwf : ∀ e ∈ entries, e.WellFormed) :
    bitmapTest (entries.foldl freeEntry bitmap) p = false ↔
      Usable entries p ∨ bitmapTest bitmap p = false := by
  induction entries generalizing bitmap with
  | nil => exact (or_iff_right fun ⟨e, he, _⟩ => absurd he List.not_mem_nil).symm
  | cons a entries ih =>
    rw [List.foldl_cons, ih fun e he => hwf e (List.mem_cons_of_mem a he),
      bitmapTest_freeEntry (hwf a List.mem_cons_self)]
    unfold Usable
    simp only [List.mem_cons, exists_eq_or_imp]
    rw [or_left_comm, or_assoc]

theorem resetRange_byte {page k : Nat} (h : ∀ i, page ≤ i → i < page + n → i / 8 ≠ k) :
    resetRange bitmap page n k = bitmap k := by
  induction n with
  | zero => rfl
  | succ n ih =>
    rw [resetRange, bitmapReset, Function.update_of_ne (h (page + n) (by omega) (by omega)).symm]
    exact ih fun i hi hi' => h i hi (by omega)

theorem freeEntries_byte {k : Nat} (hwf : ∀ e ∈ entries, e.WellFormed)
    (h : ∀ p, Usable entries p → p / 8 ≠ k) : entries.foldl freeEntry bitmap k = bitmap k := by
  induction entries generalizing bitmap with
  | nil => rfl
  | cons a entries ih =>
    rw [List.foldl_cons, ih (fun e he => hwf e (List.mem_cons_of_mem a he))
      fun p ⟨e, he, hp⟩ => h p ⟨e, List.mem_cons_of_mem a he, hp⟩]
    unfold freeEntry
    split
    · next hu =>
      refine resetRange_byte fun i hi hi' => h i ⟨a, List.mem_cons_self, ?_⟩
      exact (freeEntry_covers (hwf a List.mem_cons_self) hu).mp ⟨hi, hi'⟩
    · rfl

theorem bitmapTest_fillSet : bitmapTest (fillSet bitmap size) p = false ↔
    8 * size ≤ p ∧ bitmapTest bitmap p = false := by
  have hbit : (0xff#8).getLsbD (p % 8) = true := by
    have hall : ∀ b ∈ List.range 8, (0xff#8).getLsbD b = true := by decide
    exact hall _ (List.mem_range.mpr (Nat.mod_lt _ (by decide)))
  rw [bitmapTest_eq, bitmapTest_eq]
  unfold fillSet
  split
  · next h =>
    rw [hbit]
    exact iff_of_false (by decide) fun hc => by omega
  · next h => exact (and_iff_right (by omega)).symm

/-! ## `pmm_init` -/

/-- The page belongs to the `size` bytes from `base` on. -/
def Storage (base size p : Nat) : Prop := base ≤ p * pageSize ∧ p * pageSize < base + size

/-- What the bitmap should be: it has a bit for every usable page, a bit is clear if its page is
usable and does not belong to the bitmap, and nothing else has been written. -/
structure Populated (memory : Nat → Bitmap) (entries : List MemmapEntry) (s : State) : Prop where
  inside : ∀ p, Usable entries p → p / 8 < bitmapSize s.highestPageIndex
  clear_iff : ∀ p < s.highestPageIndex, bitmapTest s.bitmap p = false ↔
    Usable entries p ∧ ¬ Storage s.bitmapBase (bitmapSize s.highestPageIndex) p
  outside : ∀ k, bitmapSize s.highestPageIndex ≤ k → s.bitmap k = memory s.bitmapBase k

/-- The bitmap has a bit for every page below `highest_page_index`. -/
def Fits (entries : List MemmapEntry) : Prop :=
  highestPage entries ≤ 8 * bitmapSize (highestPage entries)

/-- No other entry says that the storage of the bitmap is usable. -/
def Alone (entries : List MemmapEntry) : Prop :=
  ∀ pre e post, Hole (bitmapSize (highestPage entries)) entries pre e post →
    ∀ x ∈ pre ++ post, ∀ p, x.Covers p → ¬ Storage e.base (bitmapSize (highestPage entries)) p

/-- What `pmm_init` leaves, with `size` bytes for the bitmap. -/
def initial (memory : Nat → Bitmap) (entries pre : List MemmapEntry) (e : MemmapEntry)
    (post : List MemmapEntry) : State where
  bitmap := (pre ++ e.rest (bitmapSize (highestPage entries)) :: post).foldl freeEntry
    (fillSet (memory e.base) (bitmapSize (highestPage entries)))
  bitmapBase := e.base
  highestPageIndex := highestPage entries
  lastUsedIndex := 0

theorem pmmInit_eq (h : Hole (bitmapSize (highestPage entries)) entries pre e post) :
    pmmInit memory entries = some (initial memory entries pre e post) := by
  have htake := takeHole_eq h
  unfold highestPage at htake
  unfold pmmInit
  dsimp only
  rw [htake]
  rfl

theorem bitmapSize_dvd (n : Nat) : pageSize ∣ bitmapSize n := alignUp_dvd (n / 8)

theorem Hole.mem (h : Hole size entries pre e post) : e ∈ entries := by
  rw [h.split]
  exact List.mem_append_right pre List.mem_cons_self

theorem Hole.other (h : Hole size entries pre e post) {x : MemmapEntry} (hx : x ∈ pre ++ post) :
    x ∈ entries := by
  rw [h.split]
  rcases List.mem_append.mp hx with hx | hx
  · exact List.mem_append_left _ hx
  · exact List.mem_append_right _ (List.mem_cons_of_mem e hx)

/-- The pages that are left when the bitmap has been taken out of its entry. -/
theorem usable_rest_iff (hwf : ∀ e ∈ entries, e.WellFormed) (h : Hole size entries pre e post) :
    Usable (pre ++ e.rest size :: post) p ↔
      (∃ x ∈ pre ++ post, x.Covers p) ∨ (e.Covers p ∧ e.base + size ≤ p * pageSize) := by
  rw [← rest_covers (hwf e h.mem) h.long]
  unfold Usable
  simp only [List.mem_append, List.mem_cons, or_and_right, exists_or, exists_eq_left]
  rw [or_left_comm, or_comm]

theorem rest_all_wellFormed (hwf : ∀ e ∈ entries, e.WellFormed)
    (h : Hole size entries pre e post) (hsize : pageSize ∣ size) :
    ∀ x ∈ pre ++ e.rest size :: post, x.WellFormed := by
  intro x hx
  rcases List.mem_append.mp hx with hx | hx
  · exact hwf x (h.other (List.mem_append_left post hx))
  · rcases List.mem_cons.mp hx with rfl | hx
    · exact rest_wellFormed (hwf e h.mem) hsize h.long
    · exact hwf x (h.other (List.mem_append_right pre hx))

/-- A bit is clear if its page is left, or if it lies behind the bitmap and was clear before. -/
theorem initial_clear_iff (hwf : ∀ e ∈ entries, e.WellFormed)
    (h : Hole (bitmapSize (highestPage entries)) entries pre e post) :
    bitmapTest (initial memory entries pre e post).bitmap p = false ↔
      (∃ x ∈ pre ++ post, x.Covers p) ∨
        (e.Covers p ∧ e.base + bitmapSize (highestPage entries) ≤ p * pageSize) ∨
        (8 * bitmapSize (highestPage entries) ≤ p ∧ bitmapTest (memory e.base) p = false) := by
  unfold initial
  dsimp only
  rw [bitmapTest_freeEntries (rest_all_wellFormed hwf h (bitmapSize_dvd _)),
    usable_rest_iff hwf h, bitmapTest_fillSet, or_assoc]

theorem Hole.usable_iff (h : Hole size entries pre e post) :
    Usable entries p ↔ (∃ x ∈ pre ++ post, x.Covers p) ∨ e.Covers p := by
  rw [h.split]
  unfold Usable
  simp only [List.mem_append, List.mem_cons, or_and_right, exists_or, exists_eq_left]
  rw [or_left_comm, or_comm]

theorem populated_of_fits (hwf : ∀ e ∈ entries, e.WellFormed)
    (h : Hole (bitmapSize (highestPage entries)) entries pre e post) (hfits : Fits entries)
    (halone : Alone entries) : Populated memory entries (initial memory entries pre e post) := by
  have hin : ∀ p, Usable entries p → p / 8 < bitmapSize (highestPage entries) := by
    intro p hp
    have hlt := hp.lt hwf
    unfold Fits at hfits
    omega
  refine ⟨hin, fun p hp => ?_, fun k hk => ?_⟩
  · have hp' : p < 8 * bitmapSize (highestPage entries) := Nat.lt_of_lt_of_le hp hfits
    rw [initial_clear_iff hwf h, h.usable_iff]
    change _ ↔ _ ∧ ¬ Storage e.base (bitmapSize (highestPage entries)) p
    constructor
    · rintro (⟨x, hx, hc⟩ | ⟨hc, hle⟩ | ⟨hle, -⟩)
      · exact ⟨.inl ⟨x, hx, hc⟩, halone pre e post h x hx p hc⟩
      · exact ⟨.inr hc, fun hst => Nat.not_lt.mpr hle hst.2⟩
      · exact absurd hp' (Nat.not_lt.mpr hle)
    · rintro ⟨hc | hc, hst⟩
      · exact .inl hc
      · exact .inr (.inl ⟨hc, Nat.not_lt.mp fun hlt => hst ⟨hc.2.1, hlt⟩⟩)
  · have hbyte : ∀ p, Usable (pre ++ e.rest (bitmapSize (highestPage entries)) :: post) p →
        p / 8 ≠ k := by
      intro p hp
      have husable : Usable entries p := by
        rw [h.usable_iff]
        exact ((usable_rest_iff hwf h).mp hp).imp_right And.left
      have hlt := hin p husable
      change bitmapSize (highestPage entries) ≤ k at hk
      omega
    unfold initial
    dsimp only
    rw [freeEntries_byte (rest_all_wellFormed hwf h (bitmapSize_dvd _)) hbyte]
    exact if_neg (Nat.not_lt.mpr hk)

/-- A page whose bit lies behind the bitmap: if it is usable, the bit is not inside, and otherwise
it is not set. -/
theorem not_fits (hwf : ∀ e ∈ entries, e.WellFormed)
    (h : Hole (bitmapSize (highestPage entries)) entries pre e post) (hfits : ¬ Fits entries) :
    ¬ Populated (fun _ _ => 0) entries (initial (fun _ _ => 0) entries pre e post) := by
  intro hpop
  have hlt : 8 * bitmapSize (highestPage entries) < highestPage entries := Nat.not_le.mp hfits
  have hzero : bitmapTest (fun _ => 0) (8 * bitmapSize (highestPage entries)) = false := by
    rw [bitmapTest_eq]
    exact BitVec.getLsbD_zero
  have hclear : bitmapTest (initial (fun _ _ => 0) entries pre e post).bitmap
      (8 * bitmapSize (highestPage entries)) = false :=
    (initial_clear_iff hwf h).mpr (.inr (.inr ⟨Nat.le_refl _, hzero⟩))
  have husable := ((hpop.clear_iff _ hlt).mp hclear).1
  have hin : 8 * bitmapSize (highestPage entries) / 8 < bitmapSize (highestPage entries) :=
    hpop.inside _ husable
  omega

theorem not_alone (hwf : ∀ e ∈ entries, e.WellFormed)
    (h : Hole (bitmapSize (highestPage entries)) entries pre e post) {x : MemmapEntry}
    (hx : x ∈ pre ++ post) (hc : x.Covers p)
    (hst : Storage e.base (bitmapSize (highestPage entries)) p) :
    ¬ Populated memory entries (initial memory entries pre e post) := by
  intro hpop
  have hlt := Usable.lt hwf ⟨x, h.other hx, hc⟩
  exact ((hpop.clear_iff p hlt).mp ((initial_clear_iff hwf h).mpr (.inl ⟨x, hx, hc⟩))).2 hst

/-- **The bitmap is what it should be**, whatever is in memory before, if it has a bit for every
page and its storage for itself, and in no other case. -/
theorem pmmInit_iff (entries : List MemmapEntry) (hwf : ∀ e ∈ entries, e.WellFormed)
    (hhole : ∃ e ∈ entries, e.type = .usable ∧ bitmapSize (highestPage entries) ≤ e.length) :
    (∀ memory, ∃ s, pmmInit memory entries = some s ∧ Populated memory entries s) ↔
      Fits entries ∧ Alone entries := by
  constructor
  · intro hall
    constructor
    · by_contra hfits
      obtain ⟨pre, e, post, h⟩ := exists_hole hhole
      obtain ⟨s, hs, hpop⟩ := hall fun _ _ => 0
      rw [pmmInit_eq h] at hs
      obtain rfl := Option.some.inj hs
      exact not_fits hwf h hfits hpop
    · intro pre e post h x hx p hc hst
      obtain ⟨s, hs, hpop⟩ := hall fun _ _ => 0
      rw [pmmInit_eq h] at hs
      obtain rfl := Option.some.inj hs
      exact not_alone hwf h hx hc hst hpop
  · rintro ⟨hfits, halone⟩ memory
    obtain ⟨pre, e, post, h⟩ := exists_hole hhole
    exact ⟨_, pmmInit_eq h, populated_of_fits hwf h hfits halone⟩

/-- Memory that ends one page behind 128 MiB. -/
def oneMore : List MemmapEntry := [⟨0x100000, 0x7f01000, .usable⟩]

theorem oneMore_wellFormed : ∀ e ∈ oneMore, e.WellFormed := by decide

theorem pmmInit_iff_oneMore :
    (∀ memory, ∃ s, pmmInit memory oneMore = some s ∧ Populated memory oneMore s) ↔
      Fits oneMore ∧ Alone oneMore :=
  pmmInit_iff oneMore oneMore_wellFormed ⟨_, List.mem_cons_self, by decide⟩

/-- The bit of the last page lies behind the bitmap. -/
theorem oneMore_not_populated :
    ¬ ∀ memory, ∃ s, pmmInit memory oneMore = some s ∧ Populated memory oneMore s := by
  intro hall
  have h : Hole (bitmapSize (highestPage oneMore)) oneMore [] ⟨0x100000, 0x7f01000, .usable⟩ [] :=
    ⟨rfl, rfl, by decide, fun x hx => absurd hx List.not_mem_nil⟩
  obtain ⟨s, hs, hpop⟩ := hall fun _ _ => 0
  rw [pmmInit_eq h] at hs
  obtain rfl := Option.some.inj hs
  exact not_fits oneMore_wellFormed h (by unfold Fits; decide) hpop

end Lyre.Pmm
