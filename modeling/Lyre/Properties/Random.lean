import Lyre.Lib.Random

/-!
# What `random.c` puts out

A pass of `twist` makes each word but the last one from the words before it and after it, as the
recurrence says. The last word is never changed, not even by `random_seed`, whose loop stops before
it.
-/

namespace Lyre.Random

/-! ## The words -/

/-- The product with the matrix of the recurrence. -/
def timesA (x : BitVec 64) : BitVec 64 := (x >>> 1) ^^^ if x.getLsbD 0 then mtA else 0

/-- What two consecutive words contribute to a later one. -/
def mix (x y : BitVec 64) : BitVec 64 := timesA ((x &&& mtUpperMask) ^^^ (y &&& mtLowerMask))

theorem or_eq_xor {x y : BitVec 64} (h : x &&& y = 0#64) : x ||| y = x ^^^ y := by
  apply BitVec.eq_of_getLsbD_eq
  intro i _
  have hi : BitVec.getLsbD (x &&& y) i = false := by
    rw [h, BitVec.getLsbD_zero]
  rw [BitVec.getLsbD_and] at hi
  rw [BitVec.getLsbD_or, BitVec.getLsbD_xor]
  generalize BitVec.getLsbD x i = p at hi ⊢
  generalize BitVec.getLsbD y i = q at hi ⊢
  cases p <;> cases q <;> simp at hi ⊢

theorem masked_disjoint {a b : BitVec 64} (h : a &&& b = 0#64) (x y : BitVec 64) :
    (x &&& a) &&& (y &&& b) = 0#64 := by
  calc (x &&& a) &&& (y &&& b)
      = (x &&& y) &&& (a &&& b) := by ac_rfl
    _ = 0#64 := by rw [h, BitVec.and_zero]

theorem masked_add (x y : BitVec 64) :
    (x &&& mtUpperMask) + (y &&& mtLowerMask) = (x &&& mtUpperMask) ^^^ (y &&& mtLowerMask) := by
  have hdisjoint := masked_disjoint (a := mtUpperMask) (b := mtLowerMask) (by decide) x y
  rw [BitVec.add_eq_or_of_and_eq_zero _ _ hdisjoint, or_eq_xor hdisjoint]

theorem and_one_ne_zero (x : BitVec 64) : x &&& 1#64 ≠ 0#64 ↔ x.getLsbD 0 = true := by
  rw [BitVec.and_one_eq_setWidth_ofBool_getLsbD]
  cases x.getLsbD 0 <;> decide

theorem twistWord_eq (mt : Nat → BitVec 64) (i : Nat) :
    twistWord mt i =
      Function.update mt i (mt ((i + mtM) % mtN) ^^^ mix (mt i) (mt ((i + 1) % mtN))) := by
  unfold twistWord mix timesA
  simp only [masked_add, and_one_ne_zero]
  congr 2
  split
  · rfl
  · exact (BitVec.xor_zero).symm

/-- The words after the first `j` turns of the loop of `twist`. -/
def twistTo (mt : Nat → BitVec 64) (j : Nat) : Nat → BitVec 64 := (List.range j).foldl twistWord mt

theorem twistTo_succ (mt : Nat → BitVec 64) (j : Nat) :
    twistTo mt (j + 1) = twistWord (twistTo mt j) j := by
  unfold twistTo
  rw [List.range_succ, List.foldl_append]
  rfl

theorem twistTo_of_le (mt : Nat → BitVec 64) {i j : Nat} (h : j ≤ i) : twistTo mt j i = mt i := by
  induction j with
  | zero => rfl
  | succ j ih =>
    rw [twistTo_succ, twistWord_eq, Function.update_of_ne (by omega)]
    exact ih (by omega)

theorem twistTo_of_lt (mt : Nat → BitVec 64) {i j : Nat} (h : i < j) :
    twistTo mt j i = twistTo mt (i + 1) i := by
  induction j with
  | zero => omega
  | succ j ih =>
    rcases Nat.lt_or_ge i j with hij | hij
    · rw [twistTo_succ, twistWord_eq, Function.update_of_ne (by omega)]
      exact ih hij
    · have heq : i = j := by omega
      rw [heq]

theorem twist_eq (s : State) : twist s = ⟨twistTo s.mt 311, 0⟩ := by
  have hn : mtN - 1 = 311 := rfl
  unfold twist twistTo
  rw [hn]

theorem twistTo_low (mt : Nat → BitVec 64) {i : Nat} (h : i < 156) :
    twistTo mt 311 i = mt (i + 156) ^^^ mix (mt i) (mt (i + 1)) := by
  have hm : (i + mtM) % mtN = i + 156 := by
    unfold mtM mtN
    omega
  have hn : (i + 1) % mtN = i + 1 := by
    unfold mtN
    omega
  rw [twistTo_of_lt mt (by omega), twistTo_succ, twistWord_eq, Function.update_self, hm, hn,
    twistTo_of_le mt (Nat.le_refl i), twistTo_of_le mt (by omega : i ≤ i + 1),
    twistTo_of_le mt (by omega : i ≤ i + 156)]

theorem twistTo_high (mt : Nat → BitVec 64) {i : Nat} (h0 : 156 ≤ i) (h : i < 311) :
    twistTo mt 311 i = twistTo mt 311 (i - 156) ^^^ mix (mt i) (mt (i + 1)) := by
  have hm : (i + mtM) % mtN = i - 156 := by
    unfold mtM mtN
    omega
  have hn : (i + 1) % mtN = i + 1 := by
    unfold mtN
    omega
  rw [twistTo_of_lt mt h, twistTo_succ, twistWord_eq, Function.update_self, hm, hn,
    twistTo_of_le mt (Nat.le_refl i), twistTo_of_le mt (by omega : i ≤ i + 1),
    twistTo_of_lt mt (by omega : i - 156 < i), ← twistTo_of_lt mt (by omega : i - 156 < 311)]

/-! ## The stream -/

/-- The words after `q` passes over those of the seed. -/
def passes (s : State) (q : Nat) : Nat → BitVec 64 := (twistTo · 311)^[q] s.mt

theorem passes_zero (s : State) : passes s 0 = s.mt := Function.iterate_zero_apply ..

theorem passes_succ (s : State) (q : Nat) : passes s (q + 1) = twistTo (passes s q) 311 :=
  Function.iterate_succ_apply' _ q s.mt

/-- What is put out before tempering. -/
def raw (s : State) (n : Nat) : BitVec 64 := passes s (n / 312 + 1) (n % 312)

/-- After the first call the words are those of the pass that made the last value. -/
theorem afterCalls_succ {s : State} (hs : s.index = 312) (n : Nat) :
    afterCalls s (n + 1) = ⟨passes s (n / 312 + 1), n % 312 + 1⟩ := by
  have hstep : ∀ k, afterCalls s (k + 1) = (randomGenerate (afterCalls s k)).2 := fun k =>
    Function.iterate_succ_apply' _ k s
  induction n with
  | zero =>
    have hge : s.index ≥ mtN := by
      rw [hs]
      exact Nat.le_refl _
    rw [hstep]
    show (generate s).2 = _
    unfold generate
    rw [if_pos hge, twist_eq, Nat.zero_div, Nat.zero_mod, passes_succ, passes_zero]
  | succ n ih =>
    rw [hstep, ih]
    unfold randomGenerate generate
    dsimp only
    by_cases hlast : n % 312 + 1 = 312
    · -- the words are used up
      have hge : n % 312 + 1 ≥ mtN := Nat.le_of_eq hlast.symm
      have hq : (n + 1) / 312 = n / 312 + 1 := by omega
      have hi : (n + 1) % 312 = 0 := by omega
      rw [if_pos hge, hq, hi, passes_succ s (n / 312 + 1), twist_eq]
    · have hlt : ¬ n % 312 + 1 ≥ mtN := by
        unfold mtN
        omega
      have hq : (n + 1) / 312 = n / 312 := by omega
      have hi : (n + 1) % 312 = n % 312 + 1 := by omega
      rw [if_neg hlt, hq, hi]

theorem nthValue_eq {s : State} (hs : s.index = 312) (n : Nat) :
    nthValue s n = temper (raw s n) := by
  have hnext := afterCalls_succ hs n
  have hstep : afterCalls s (n + 1) = (randomGenerate (afterCalls s n)).2 :=
    Function.iterate_succ_apply' _ n s
  rw [hstep] at hnext
  have hmt := congrArg State.mt hnext
  have hindex := congrArg State.index hnext
  unfold nthValue raw
  unfold randomGenerate generate at hmt hindex ⊢
  dsimp only at hmt hindex ⊢
  have hi : (if (afterCalls s n).index ≥ mtN then twist (afterCalls s n)
      else afterCalls s n).index = n % 312 := by omega
  rw [hmt, hi]

theorem raw_add (s : State) {n : Nat} (h : n % 312 ≠ 311) :
    raw s (n + 312) = raw s (n + 156) ^^^ mix (raw s n) (raw s (n + 1)) := by
  have hlt : n % 312 < 312 := Nat.mod_lt n (by decide)
  have hq : (n + 312) / 312 = n / 312 + 1 := by omega
  have hi : (n + 312) % 312 = n % 312 := by omega
  have hnq : (n + 1) / 312 = n / 312 := by omega
  have hni : (n + 1) % 312 = n % 312 + 1 := by omega
  unfold raw
  rw [hq, hi, hnq, hni, passes_succ s (n / 312 + 1)]
  rcases Nat.lt_or_ge (n % 312) 156 with hlow | hhigh
  · have hmq : (n + 156) / 312 = n / 312 := by omega
    have hmi : (n + 156) % 312 = n % 312 + 156 := by omega
    rw [hmq, hmi, twistTo_low _ hlow]
  · have hmq : (n + 156) / 312 = n / 312 + 1 := by omega
    have hmi : (n + 156) % 312 = n % 312 - 156 := by omega
    rw [hmq, hmi, twistTo_high _ hhigh (by omega), passes_succ s (n / 312 + 1)]

theorem raw_zero (s : State) : raw s 0 = s.mt 156 ^^^ mix (s.mt 0) (s.mt 1) := by
  unfold raw
  rw [Nat.zero_div, Nat.zero_mod, passes_succ, passes_zero, twistTo_low _ (by decide)]

theorem raw_last (s : State) : raw s 311 = s.mt 311 := twistTo_of_le s.mt (Nat.le_refl 311)

/-! ## The seed -/

theorem seedWord_of_ne (mt : Nat → BitVec 64) {i k : Nat} (h : k ≠ i) :
    seedWord mt i k = mt k :=
  Function.update_of_ne h ..

theorem seedWord_self (mt : Nat → BitVec 64) (i : Nat) :
    seedWord mt (i + 1) (i + 1) = mtF * (mt i ^^^ (mt i >>> 62)) + BitVec.ofNat 64 (i + 1) := by
  unfold seedWord
  rw [Function.update_self, Nat.add_sub_cancel]
  rfl

/-- The words that the loop of `random_seed` does not reach. -/
theorem foldl_seedWord_of_notMem {l : List Nat} {k : Nat} (h : k ∉ l) (mt : Nat → BitVec 64) :
    l.foldl seedWord mt k = mt k := by
  induction l generalizing mt with
  | nil => rfl
  | cons i l ih =>
    rw [List.mem_cons, not_or] at h
    rw [List.foldl_cons, ih h.2, seedWord_of_ne mt h.1]

theorem randomSeed_last (s : State) (seed : BitVec 64) :
    (randomSeed s seed).mt 311 = s.mt 311 := by
  have hnot : 311 ∉ List.range' 1 (mtN - 2) := by
    rw [List.mem_range'_1]
    unfold mtN
    omega
  unfold randomSeed
  dsimp only
  rw [foldl_seedWord_of_notMem hnot]
  exact Function.update_of_ne (by decide) ..

/-- The words that the loop has made after `j` turns, from a recurrence that they obey. -/
theorem foldl_seedWord_range {mt seeds : Nat → BitVec 64} (h₀ : mt 0 = seeds 0)
    (hsucc : ∀ i, seeds (i + 1) =
      mtF * (seeds i ^^^ (seeds i >>> 62)) + BitVec.ofNat 64 (i + 1)) (j : Nat) :
    ∀ i, i ≤ j → (List.range' 1 j).foldl seedWord mt i = seeds i := by
  induction j with
  | zero =>
    intro i hi
    obtain rfl : i = 0 := by omega
    exact h₀
  | succ j ih =>
    intro i hi
    rw [List.range'_1_concat, List.foldl_append, List.foldl_cons, List.foldl_nil, Nat.add_comm 1 j]
    rcases Nat.lt_or_ge i (j + 1) with hlt | hge
    · rw [seedWord_of_ne _ (by omega)]
      exact ih i (by omega)
    · obtain rfl : i = j + 1 := by omega
      rw [seedWord_self, ih j (Nat.le_refl j), hsucc]

/-! ## The tempering -/

/-- A step of the tempering loses nothing: the word would be smaller than itself. -/
theorem right_step_zero {y mask : BitVec 64} {n : Nat} (hn : 0 < n)
    (h : y ^^^ ((y >>> n) &&& mask) = 0) : y = 0 := by
  have heq := congrArg BitVec.toNat (BitVec.xor_eq_zero_iff.mp h)
  rw [BitVec.toNat_and, BitVec.toNat_ushiftRight] at heq
  have hle : y.toNat ≤ y.toNat >>> n :=
    Nat.le_trans (Nat.le_of_eq heq) Nat.and_le_left
  have hhalf : y.toNat >>> n ≤ y.toNat / 2 := by
    rw [Nat.shiftRight_eq_div_pow]
    exact Nat.div_le_div_left (Nat.le_self_pow (by omega) 2) (by decide)
  have hzero : y.toNat = 0 := by omega
  exact BitVec.eq_of_toNat_eq hzero

theorem temper_eq_zero {y : BitVec 64} (h : temper y = 0) : y = 0 := by
  have hlast : ∀ z : BitVec 64, z ^^^ (z >>> mtL) = 0 → z = 0 := by
    intro z hz
    have hall : z ^^^ ((z >>> mtL) &&& BitVec.allOnes 64) = 0 := by
      rw [BitVec.and_allOnes]
      exact hz
    exact right_step_zero (by decide) hall
  exact right_step_zero (by decide) (right_step_zero (by decide) (right_step_zero (by decide)
    (hlast _ h)))

end Lyre.Random
