import Lyre.Properties.Pmm

/-!
# What the virtual memory code relies on in the page allocator

Page tables and mappings take single pages from `pmm_alloc` and give them back with
`pmm_free`. All they rely on is that a page handed out is page-aligned, fits in a page table
entry and belongs to nobody, and that giving a page back takes it from its owner alone.

`PageAllocator` states this, `Pmm.allocator` shows that `mm/pmm.c` provides it.
-/

namespace Lyre

/--
A source of single pages. `alloc` returns an address, `0` being `NULL`; `Owned s p` says that
the page at `p` is in somebody's hands.
-/
structure PageAllocator (σ : Type) where
  alloc : σ → Nat × σ
  free : σ → Nat → σ
  Inv : σ → Prop
  Owned : σ → Nat → Prop
  inv_alloc : ∀ {s}, Inv s → Inv (alloc s).2
  not_owned : ∀ {s}, Inv s → (alloc s).1 ≠ 0 → ¬ Owned s (alloc s).1
  aligned : ∀ {s}, Inv s → pageSize ∣ (alloc s).1
  lt : ∀ {s}, Inv s → (alloc s).1 < 2 ^ 52
  owned_alloc : ∀ {s q}, Inv s → (Owned (alloc s).2 q ↔ Owned s q ∨ (q = (alloc s).1 ∧ q ≠ 0))
  inv_free : ∀ {s p}, Inv s → Owned s p → Inv (free s p)
  owned_free : ∀ {s p q}, Inv s → Owned s p → (Owned (free s p) q ↔ Owned s q ∧ q ≠ p)

/-- The next `n` allocations all succeed. -/
def PageAllocator.Supplies {σ : Type} (A : PageAllocator σ) : σ → Nat → Prop
  | _, 0 => True
  | s, n + 1 => (A.alloc s).1 ≠ 0 ∧ A.Supplies (A.alloc s).2 n

instance PageAllocator.decidableSupplies {σ : Type} (A : PageAllocator σ) :
    ∀ (n : Nat) (s : σ), Decidable (A.Supplies s n)
  | 0, _ => inferInstanceAs (Decidable True)
  | n + 1, s =>
    @instDecidableAnd _ _ inferInstance (A.decidableSupplies n (A.alloc s).2)

theorem PageAllocator.Supplies.le {σ : Type} {A : PageAllocator σ} :
    ∀ {n m : Nat} {s : σ}, A.Supplies s m → n ≤ m → A.Supplies s n
  | 0, _, _, _, _ => trivial
  | _ + 1, 0, _, _, h => absurd h (by omega)
  | _ + 1, _ + 1, _, h, hle => ⟨h.1, h.2.le (Nat.le_of_succ_le_succ hle)⟩

/-- `n` pages have been taken. -/
def PageAllocator.taken {σ : Type} (A : PageAllocator σ) : Nat → σ → σ
  | 0, s => s
  | n + 1, s => A.taken n (A.alloc s).2

/-- From one state to the other, at most `n` pages have been taken. -/
def PageAllocator.Took {σ : Type} (A : PageAllocator σ) (s s' : σ) (n : Nat) : Prop :=
  ∃ j ≤ n, s' = A.taken j s

namespace PageAllocator

variable {σ : Type} {A : PageAllocator σ} {s s₁ s' : σ} {n m : Nat}

theorem taken_add : ∀ (j : Nat) {k : Nat} {s : σ}, A.taken (j + k) s = A.taken k (A.taken j s)
  | 0, k, s => by rw [Nat.zero_add, taken]
  | j + 1, k, s => by rw [Nat.add_right_comm, taken, taken, taken_add j]

theorem Took.refl (s : σ) (n : Nat) : A.Took s s n := ⟨0, Nat.zero_le n, rfl⟩

theorem Took.one (s : σ) : A.Took s (A.alloc s).2 1 := ⟨1, Nat.le_refl 1, rfl⟩

theorem Took.trans (h : A.Took s s₁ n) (h' : A.Took s₁ s' m) : A.Took s s' (n + m) := by
  obtain ⟨j, hj, rfl⟩ := h
  obtain ⟨k, hk, rfl⟩ := h'
  exact ⟨j + k, Nat.add_le_add hj hk, (taken_add j).symm⟩

end PageAllocator

namespace Pmm

/-- The page at address `p` is one that `pmm.c` manages, and its bit is set. -/
def Taken (s : State) (p : Nat) : Prop :=
  ∃ i, p = i * pageSize ∧ i ≠ 0 ∧ i < s.highestPageIndex ∧ bitmapTest s.bitmap i = true

/-- The invariant of the allocator, with all of memory addressable by a page table entry. -/
structure Sound (s : State) : Prop extends Good s where
  addressable : s.highestPageIndex ≤ 2 ^ 40

theorem taken_alloc {s : State} (h : Sound s) {q : Nat} :
    Taken (pmmAllocNozero s 1).2 q ↔
      Taken s q ∨ (q = (pmmAllocNozero s 1).1 ∧ q ≠ 0) := by
  obtain ⟨hhi, _, ⟨h0, hb⟩ | ⟨page, hp, hpe, hle, hclear, hb⟩⟩ :=
    pmmAllocNozero_spec h.toGood (Nat.le_refl 1)
  · unfold Taken
    rw [hhi, hb, h0]
    constructor
    · exact Or.inl
    · rintro (h | ⟨rfl, h⟩)
      · exact h
      · exact absurd rfl h
  · unfold Taken
    rw [hhi, hb, hpe]
    constructor
    · rintro ⟨i, rfl, hi, hlt, ht⟩
      rw [bitmapTest_setRange, Bool.or_eq_true, decide_eq_true_eq] at ht
      rcases ht with ht | ht
      · have : i = page := by omega
        exact Or.inr ⟨by rw [this], Nat.mul_ne_zero hi (by decide)⟩
      · exact Or.inl ⟨i, rfl, hi, hlt, ht⟩
    · rintro (⟨i, rfl, hi, hlt, ht⟩ | ⟨rfl, _⟩)
      · exact ⟨i, rfl, hi, hlt, by rw [bitmapTest_setRange, ht, Bool.or_true]⟩
      · exact ⟨page, rfl, hp, by omega, by simp⟩

/-- `Taken` names a page by its index. -/
theorem taken_iff {s : State} {i : Nat} :
    Taken s (i * pageSize) ↔ i ≠ 0 ∧ i < s.highestPageIndex ∧ bitmapTest s.bitmap i = true := by
  constructor
  · rintro ⟨j, hj, h⟩
    have : i = j := Nat.eq_of_mul_eq_mul_right (by decide : 0 < pageSize) hj
    rw [this]
    exact h
  · exact fun h => ⟨i, rfl, h⟩

theorem taken_free {s : State} {p q : Nat} (hp : Taken s p) :
    Taken (pmmFree s p 1) q ↔ Taken s q ∧ q ≠ p := by
  obtain ⟨i, rfl, hi, hlt, ht⟩ := hp
  have hpage : i * pageSize / pageSize = i := Nat.mul_div_cancel i (by decide)
  unfold Taken pmmFree
  rw [hpage]
  constructor
  · rintro ⟨j, rfl, hj, hjlt, hjt⟩
    rw [bitmapTest_resetRange, Bool.and_eq_true, Bool.not_eq_true', decide_eq_false_iff_not] at hjt
    refine ⟨⟨j, rfl, hj, hjlt, hjt.2⟩, fun he => ?_⟩
    have : j = i := Nat.eq_of_mul_eq_mul_right (by decide : 0 < pageSize) he
    omega
  · rintro ⟨⟨j, rfl, hj, hjlt, hjt⟩, hne⟩
    refine ⟨j, rfl, hj, hjlt, ?_⟩
    have hji : j ≠ i := fun he => hne (by rw [he])
    rw [bitmapTest_resetRange, hjt, Bool.and_true, Bool.not_eq_true', decide_eq_false_iff_not]
    omega

/-- **`pmm.c` is a page allocator.** -/
def allocator : PageAllocator State where
  alloc s := pmmAllocNozero s 1
  free s p := pmmFree s p 1
  Inv := Sound
  Owned := Taken
  inv_alloc {s} h := by
    obtain ⟨hhi, hcur, hcase⟩ := pmmAllocNozero_spec h.toGood (Nat.le_refl 1)
    refine ⟨⟨by rw [hhi]; exact hcur, ?_⟩, by rw [hhi]; exact h.addressable⟩
    rcases hcase with ⟨_, hb⟩ | ⟨page, _, _, _, _, hb⟩
    · rw [hb]; exact h.zero
    · rw [hb, bitmapTest_setRange, h.zero, Bool.or_true]
  not_owned {s} h hne := by
    obtain ⟨_, _, ⟨h0, _⟩ | ⟨page, hp, hpe, _, hclear, _⟩⟩ :=
      pmmAllocNozero_spec h.toGood (Nat.le_refl 1)
    · exact absurd h0 hne
    · rw [hpe, taken_iff, hclear page (Nat.le_refl _) (by omega)]
      simp
  aligned {s} h := by
    obtain ⟨_, _, ⟨h0, _⟩ | ⟨page, _, hpe, _⟩⟩ := pmmAllocNozero_spec h.toGood (Nat.le_refl 1)
    · rw [h0]; exact Nat.dvd_zero _
    · rw [hpe]; exact Nat.dvd_mul_left _ _
  lt {s} h := by
    have hle := h.addressable
    obtain ⟨_, _, ⟨h0, _⟩ | ⟨page, _, hpe, hpl, _⟩⟩ :=
      pmmAllocNozero_spec h.toGood (Nat.le_refl 1)
    · rw [h0]; decide
    · rw [hpe]
      unfold pageSize
      omega
  owned_alloc h := taken_alloc h
  inv_free {s p} h hp := by
    obtain ⟨i, rfl, hi, _, _⟩ := hp
    refine ⟨⟨h.cursor, ?_⟩, h.addressable⟩
    show bitmapTest (resetRange s.bitmap (i * pageSize / pageSize) 1) 0 = true
    rw [bitmapTest_resetRange, h.zero, Nat.mul_div_cancel i (by decide), Bool.and_true,
      Bool.not_eq_true', decide_eq_false_iff_not]
    omega
  owned_free _ hp := taken_free hp

end Pmm

end Lyre
