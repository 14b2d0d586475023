import Lyre.Infra.Bytes

/-!
# Records that follow each other in memory

The records of a format have different sizes, which they say themselves, and lie one behind the other
(`Spans`). The interval can be divided between any two of them (`spans_append`), and some of them can
be replaced by others that fill the same place (`Spans.replace`).
-/

namespace Infra.Bytes

/-- What is read at an address, how many bytes it has, and which records are well formed. Such a
record depends on its own bytes only. -/
structure Format (R : Type*) where
  get : Mem → Nat → R
  width : R → Nat
  Valid : R → Prop
  width_pos : ∀ r, Valid r → 0 < width r
  get_congr : ∀ m m' a, Valid (get m a) → (∀ x, a ≤ x → x < a + width (get m a) → m' x = m x) →
    get m' a = get m a

namespace Format

variable {R : Type*} (F : Format R) {m m' : Mem} {a b c e : Nat} {r : R} {l l' pre post : List R}

/-- The bytes from `a` to `e` are the records. -/
def Spans (m : Mem) : Nat → Nat → List R → Prop
  | a, e, [] => a = e
  | a, e, r :: l => F.get m a = r ∧ F.Valid r ∧ Spans m (a + F.width r) e l

variable {F}

theorem Spans.le (h : F.Spans m a e l) : a ≤ e := by
  induction l generalizing a with
  | nil => exact Nat.le_of_eq h
  | cons r l ih => exact Nat.le_trans (Nat.le_add_right a _) (ih h.2.2)

theorem Spans.lt (h : F.Spans m a e (r :: l)) : a < e := by
  have hpos := F.width_pos r h.2.1
  have hle := Spans.le h.2.2
  omega

theorem Spans.width_le (h : F.Spans m a e (r :: l)) : a + F.width r ≤ e := Spans.le h.2.2

theorem spans_append : F.Spans m a e (l ++ l') ↔ ∃ b, F.Spans m a b l ∧ F.Spans m b e l' := by
  induction l generalizing a with
  | nil =>
    constructor
    · exact fun h => ⟨a, rfl, h⟩
    · rintro ⟨b, rfl, h⟩
      exact h
  | cons r l ih =>
    constructor
    · rintro ⟨hget, hvalid, h⟩
      obtain ⟨b, hl, hl'⟩ := ih.mp h
      exact ⟨b, ⟨hget, hvalid, hl⟩, hl'⟩
    · rintro ⟨b, ⟨hget, hvalid, hl⟩, hl'⟩
      exact ⟨hget, hvalid, ih.mpr ⟨b, hl, hl'⟩⟩

theorem Spans.congr (h : F.Spans m a e l) (hm : ∀ x, a ≤ x → x < e → m' x = m x) :
    F.Spans m' a e l := by
  induction l generalizing a with
  | nil => exact h
  | cons r l ih =>
    have hle := h.width_le
    obtain ⟨rfl, hvalid, hrest⟩ := h
    have hget : F.get m' a = F.get m a :=
      F.get_congr m m' a hvalid fun x hx hx' => hm x hx (by omega)
    exact ⟨hget, hvalid, ih hrest fun x hx hx' => hm x (by omega) hx'⟩

/-- The bytes from `b` to `c` are replaced. -/
theorem Spans.replace (hpre : F.Spans m a b pre) (hl : F.Spans m' b c l) (hpost : F.Spans m c e post)
    (hsame : ∀ x, ¬ (b ≤ x ∧ x < c) → m' x = m x) : F.Spans m' a e (pre ++ (l ++ post)) := by
  refine spans_append.mpr ⟨b, hpre.congr fun x _ hx => hsame x (by omega), ?_⟩
  exact spans_append.mpr ⟨c, hl, hpost.congr fun x hx _ => hsame x (by omega)⟩

end Format

/-! ## Walks over sizes

Where nothing is known of the records but their sizes, a walk from one to the next is at `walk n a`
behind the `n`-th of them.
-/

/-- The address behind `n` records from `a` on. -/
def walk (width : Nat → Nat) : Nat → Nat → Nat
  | 0, a => a
  | n + 1, a => walk width n (a + width a)

variable {width : Nat → Nat} {stop : Nat → Prop} {a n k size : Nat}

theorem walk_succ (n a : Nat) : walk width (n + 1) a = walk width n a + width (walk width n a) := by
  induction n generalizing a with
  | zero => rfl
  | succ n ih => exact ih (a + width a)

theorem walk_stuck (h : width (walk width k a) = 0) (hn : k ≤ n) : walk width n a = walk width k a := by
  induction n with
  | zero =>
    obtain rfl : k = 0 := Nat.le_zero.mp hn
    rfl
  | succ n ih =>
    rcases Nat.eq_or_lt_of_le hn with rfl | hlt
    · rfl
    · rw [walk_succ, ih (Nat.le_of_lt_succ hlt), h, Nat.add_zero]

/-- **A walk that stops at the latest at `size`** stops exactly if no record of size 0 comes before. -/
theorem walk_stops_iff (hsize : ∀ x, size ≤ x → stop x) :
    (∃ n, stop (walk width n a)) ↔
      ∀ n, (∀ k ≤ n, ¬ stop (walk width k a)) → 0 < width (walk width n a) := by
  constructor
  · rintro ⟨n, hn⟩ k hk
    by_contra hzero
    have hstuck := @walk_stuck width a n k (Nat.eq_zero_of_not_pos hzero)
    rcases Nat.le_total n k with hle | hle
    · exact hk n hle hn
    · rw [hstuck hle] at hn
      exact hk k (Nat.le_refl k) hn
  · intro h
    by_contra hnone
    have hnever : ∀ n, ¬ stop (walk width n a) := fun n hn => hnone ⟨n, hn⟩
    have hgrow : ∀ n, n ≤ walk width n a := by
      intro n
      induction n with
      | zero => exact Nat.zero_le _
      | succ n ih =>
        have hpos := h n fun k _ => hnever k
        rw [walk_succ]
        omega
    exact hnever size (hsize _ (hgrow size))

end Infra.Bytes
