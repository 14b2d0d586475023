import Lyre.Infra.Bytes
import Lyre.Infra.Radix

/-!
# Rows of words as bytes

Memory that is made of rows, each with words of eight bytes, has the bytes of the words at the
addresses behind the one of the row. `store` puts bytes into such a memory, and what is read then is
what is read from a memory of bytes (`bytes_store`); rows apart from the bytes stay as they are
(`store_row`).
-/

namespace Infra.Rows

open Infra.Bytes (put SameOff)

abbrev Mem := Infra.Radix.Mem Nat Nat Nat

variable {size : Nat} {m m' : Mem} {a n t i x : Nat} {f : Nat → BitVec 8}

/-- The byte at an address, in rows of `size` bytes. -/
def bytes (size : Nat) (m : Mem) : Bytes.Mem := fun a =>
  BitVec.ofNat 8 (m (a / size * size) (a % size / 8) / 256 ^ (a % 8))

/-- The word has a byte in `[a, a + n)`. -/
def Meets (size t i a n : Nat) : Prop :=
  size ∣ t ∧ i < size / 8 ∧ t + 8 * i < a + n ∧ a < t + 8 * i + 8

instance : Decidable (Meets size t i a n) := inferInstanceAs (Decidable (_ ∧ _))

/-- `n` bytes from `a` on become those of `f`. -/
def store (size : Nat) (m : Mem) (a n : Nat) (f : Nat → BitVec 8) : Mem := fun t i =>
  if Meets size t i a n then Bytes.read (put (bytes size m) a n f) (t + 8 * i) 8 else m t i

/-- The bytes of a list are put at `a`. -/
def storeList (size : Nat) (m : Mem) (a : Nat) (l : List (BitVec 8)) : Mem :=
  store size m a l.length fun k => l.getD k 0

/-- The bytes of a word. -/
def word (v : Nat) : List (BitVec 8) := (List.range 8).map fun k => BitVec.ofNat 8 (v / 256 ^ k)

@[simp] theorem length_word (v : Nat) : (word v).length = 8 := by
  rw [word, List.length_map, List.length_range]

theorem bytes_congr (h : ∀ i, m' (a / size * size) i = m (a / size * size) i) :
    bytes size m' a = bytes size m a := by
  rw [bytes, bytes, h]

theorem bytes_zero (h : ∀ i, m (a / size * size) i = 0) : bytes size m a = 0 := by
  rw [bytes, h, Nat.zero_div]
  rfl

section

variable (h8 : 8 ∣ size) (hpos : 0 < size)

include h8 hpos

theorem place (x : Nat) : x % size / 8 < size / 8 ∧ x / size * size + 8 * (x % size / 8) + x % 8 = x := by
  obtain ⟨k, rfl⟩ := h8
  have hlt := Nat.mod_lt x hpos
  have hmod : x % (8 * k) % 8 = x % 8 := Nat.mod_mul_right_mod x 8 k
  have hdiv := Nat.div_add_mod' x (8 * k)
  refine ⟨?_, by omega⟩
  rw [Nat.mul_div_cancel_left k (by decide)]
  omega

/-- **What is stored is what is read.** -/
theorem bytes_store : bytes size (store size m a n f) = put (bytes size m) a n f := by
  funext x
  obtain ⟨hi, hx⟩ := place h8 hpos x
  have hmod : x % 8 < 8 := Nat.mod_lt x (by decide)
  rw [bytes, store]
  split
  · rw [Bytes.read_byte hmod, hx]
  · next hmeets =>
    have hout : ¬ (a ≤ x ∧ x < a + n) := fun hin =>
      hmeets ⟨Nat.dvd_mul_left _ _, hi, by omega, by omega⟩
    rw [put, if_neg hout]
    rfl

theorem bytes_storeList (l : List (BitVec 8)) :
    bytes size (storeList size m a l) = put (bytes size m) a l.length fun k => l.getD k 0 :=
  bytes_store h8 hpos

omit hpos in
theorem store_row (hap : size ∣ t → t + size ≤ a ∨ a + n ≤ t) : store size m a n f t i = m t i := by
  refine if_neg fun hmeets => ?_
  obtain ⟨ht, hi, hlt, hgt⟩ := hmeets
  have hap := hap ht
  obtain ⟨k, rfl⟩ := h8
  rw [Nat.mul_div_cancel_left k (by decide)] at hi
  omega

end

/-! ## Lists in memory -/

/-- The bytes of the list are at `a`, and nothing else has changed. -/
structure Stored (size : Nat) (m m' : Mem) (a : Nat) (l : List (BitVec 8)) : Prop where
  holds : Bytes.Holds (bytes size m') a l
  same : SameOff (bytes size m) (bytes size m') a l.length
  rows : ∀ t i, (size ∣ t → t + size ≤ a ∨ a + l.length ≤ t) → m' t i = m t i

namespace Stored

variable {m'' : Mem} {l l' : List (BitVec 8)}

theorem of_storeList (h8 : 8 ∣ size) (hpos : 0 < size) (m : Mem) (a : Nat) (l : List (BitVec 8)) :
    Stored size m (storeList size m a l) a l where
  holds k hk := by rw [bytes_storeList h8 hpos, Bytes.put_at _ _ _ hk]
  same := by
    rw [bytes_storeList h8 hpos]
    exact Bytes.put_sameOff _ _ _ _
  rows t i ht := store_row h8 ht

theorem nil (size : Nat) (m : Mem) (a : Nat) : Stored size m m a [] :=
  ⟨fun _ hk => absurd hk (Nat.not_lt_zero _), .refl _ _ _, fun _ _ _ => rfl⟩

private theorem join {b k : Nat} (h : Stored size m m' a l) (h' : Stored size m' m'' b l')
    (ha : n ≤ a ∧ a + l.length ≤ n + k) (hb : n ≤ b ∧ b + l'.length ≤ n + k) :
    SameOff (bytes size m) (bytes size m'') n k ∧
      ∀ t i, (size ∣ t → t + size ≤ n ∨ n + k ≤ t) → m'' t i = m t i := by
  refine ⟨h.same.trans' h'.same ha hb, fun t i ht => ?_⟩
  rw [h'.rows t i fun hd => (ht hd).imp (by omega) (by omega),
    h.rows t i fun hd => (ht hd).imp (by omega) (by omega)]

theorem append (h : Stored size m m' a l) (h' : Stored size m' m'' (a + l.length) l') :
    Stored size m m'' a (l ++ l') := by
  obtain ⟨hsame, hrows⟩ := h.join h' (n := a) (k := l.length + l'.length) ⟨by omega, by omega⟩
    ⟨by omega, by omega⟩
  rw [← List.length_append] at hsame hrows
  exact ⟨(h.holds.sameOff h'.same (Or.inr (Nat.le_refl _))).append h'.holds, hsame, hrows⟩

theorem prepend (h : Stored size m m' (a + l'.length) l) (h' : Stored size m' m'' a l') :
    Stored size m m'' a (l' ++ l) := by
  obtain ⟨hsame, hrows⟩ := h.join h' (n := a) (k := l'.length + l.length) ⟨by omega, by omega⟩
    ⟨by omega, by omega⟩
  rw [← List.length_append] at hsame hrows
  exact ⟨h'.holds.append (h.holds.sameOff h'.same (Or.inl (Nat.le_refl _))), hsame, hrows⟩

end Stored

end Infra.Rows
