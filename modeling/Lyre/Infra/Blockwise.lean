import Lyre.Infra.Bytes

/-!
# Copies that are made block by block

Something that is cut into blocks of `w` bytes, the `i`-th of which lies at the address `base i`,
has its byte `p` at `place w base p`. A copy between such places and a buffer is made in pieces. What
the first `n` bytes have become is said by `Gathered` (out of the places, into the buffer) and
`Scattered` (out of the buffer, to the places), and each has a rule for one more piece.
-/

namespace Infra.Bytes

variable {m m' buf buf' : Mem} {w a n c p q i j : Nat} {base pos : Nat → Nat}

/-! ## Places -/

/-- The address of byte `p`. -/
def place (w : Nat) (base : Nat → Nat) (p : Nat) : Nat := base (p / w) + p % w

theorem place_add {k : Nat} (h : p % w + k < w) : place w base (p + k) = place w base p + k := by
  have hdiv : (p + k) / w = p / w := by
    rw [Nat.div_eq_iff (by omega)]
    have := Nat.div_add_mod p w
    rw [Nat.mul_comm]
    omega
  have hmod : (p + k) % w = p % w + k := by
    rw [Nat.add_mod, Nat.mod_eq_of_lt (show k < w by omega), Nat.mod_eq_of_lt h]
  rw [place, place, hdiv, hmod, Nat.add_assoc]

theorem place_mul (hw : 0 < w) : place w base (w * i) = base i := by
  rw [place, Nat.mul_div_cancel_left i hw, Nat.mul_mod_right, Nat.add_zero]

/-- No two bytes have one place if the blocks lie apart from each other. -/
theorem place_inj (hw : 0 < w) (hap : p / w ≠ q / w → Apart (base (p / w)) w (base (q / w)) w)
    (h : place w base p = place w base q) : p = q := by
  have hp : p % w < w := Nat.mod_lt p hw
  have hq : q % w < w := Nat.mod_lt q hw
  unfold place at h
  by_cases hdiv : p / w = q / w
  · rw [hdiv] at h
    rw [← Nat.div_add_mod p w, ← Nat.div_add_mod q w, hdiv]
    omega
  · have := hap hdiv
    unfold Apart at this
    omega

/-! ## Into the buffer -/

/-- The first `n` bytes at the places are in the buffer, which is as it was otherwise. -/
structure Gathered (m buf buf' : Mem) (pos : Nat → Nat) (n : Nat) : Prop where
  moved : ∀ k < n, buf' k = m (pos k)
  others : ∀ k, n ≤ k → buf' k = buf k

namespace Gathered

theorem zero : Gathered m buf buf pos 0 := ⟨fun _ hk => absurd hk (Nat.not_lt_zero _), fun _ _ => rfl⟩

theorem step (h : Gathered m buf buf' pos n) (hc : ∀ k < c, pos (n + k) = a + k) :
    Gathered m buf (put buf' n c fun k => m (a + k)) pos (n + c) where
  moved k hk := by
    rcases Nat.lt_or_ge k n with hlt | hge
    · rw [put_sameOff buf' n c _ k (by omega), h.moved k hlt]
    · obtain ⟨d, rfl⟩ := Nat.exists_eq_add_of_le hge
      rw [put_at buf' n _ (by omega), hc d (by omega)]
  others k hk := by rw [put_sameOff buf' n c _ k (by omega), h.others k (by omega)]

end Gathered

/-! ## Out of the buffer -/

/-- The first `n` bytes of the buffer are at the places, and no other byte has changed. -/
structure Scattered (m m' buf : Mem) (pos : Nat → Nat) (n : Nat) : Prop where
  moved : ∀ k < n, m' (pos k) = buf k
  others : ∀ x, (∀ k < n, x ≠ pos k) → m' x = m x

namespace Scattered

theorem zero : Scattered m m buf pos 0 := ⟨fun _ hk => absurd hk (Nat.not_lt_zero _), fun _ _ => rfl⟩

theorem step (h : Scattered m m' buf pos n) (hc : ∀ k < c, pos (n + k) = a + k)
    (hinj : ∀ k < n, ∀ d < c, pos k ≠ pos (n + d)) :
    Scattered m (put m' a c fun k => buf (n + k)) buf pos (n + c) where
  moved k hk := by
    rcases Nat.lt_or_ge k n with hlt | hge
    · have hout : ¬ (a ≤ pos k ∧ pos k < a + c) := by
        rintro ⟨hle, hlt'⟩
        obtain ⟨d, hd⟩ := Nat.exists_eq_add_of_le hle
        exact hinj k hlt d (by omega) (by rw [hc d (by omega), hd])
      rw [put_sameOff m' a c _ _ hout, h.moved k hlt]
    · obtain ⟨d, rfl⟩ := Nat.exists_eq_add_of_le hge
      rw [hc d (by omega), put_at m' a _ (by omega)]
  others x hx := by
    have hout : ¬ (a ≤ x ∧ x < a + c) := by
      rintro ⟨hle, hlt⟩
      obtain ⟨d, rfl⟩ := Nat.exists_eq_add_of_le hle
      exact hx (n + d) (by omega) (hc d (by omega)).symm
    rw [put_sameOff m' a c _ x hout]
    exact h.others x fun k hk => hx k (by omega)

end Scattered

end Infra.Bytes
