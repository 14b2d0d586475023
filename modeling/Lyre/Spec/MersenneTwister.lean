import Mathlib.Algebra.Group.Nat.Defs
import Mathlib.Tactic.Common

/-!
# The Mersenne Twister

The generator of words of `w` bits by its recurrence. The first `n` words are made from the seed; each
later one is made from the word `n - m` before it and from the upper bits and the lower `r` bits of the
words `n` and `n - 1` before it. What is put out are the words from the `n`-th on, after tempering.
-/

namespace Lyre.MersenneTwister

/-- The parameters, under their usual names. -/
structure Parameters (w : Nat) where
  n : Nat
  m : Nat
  r : Nat
  a : BitVec w
  u : Nat
  d : BitVec w
  s : Nat
  b : BitVec w
  t : Nat
  c : BitVec w
  l : Nat
  f : BitVec w
  m_lt : m < n
  one_lt : 1 < n

variable {w : Nat} (p : Parameters w)

/-- The first words. -/
def seeded (seed : BitVec w) : Nat → BitVec w
  | 0 => seed
  | i + 1 =>
    p.f * (seeded seed i ^^^ (seeded seed i >>> (w - 2))) + BitVec.ofNat w (i + 1)

/-- The lower `r` bits. -/
def lowerMask : BitVec w := BitVec.ofNat w (2 ^ p.r - 1)

def upperMask : BitVec w := ~~~ lowerMask p

/-- The product with the matrix of the recurrence. -/
def timesA (x : BitVec w) : BitVec w := (x >>> 1) ^^^ if x.getLsbD 0 then p.a else 0

/-- What two consecutive words contribute to a later one. -/
def mix (x y : BitVec w) : BitVec w :=
  timesA p ((x &&& upperMask p) ||| (y &&& lowerMask p))

/-- Word `k` of the recurrence. -/
def word (seed : BitVec w) (k : Nat) : BitVec w :=
  if k < p.n then seeded p seed k
  else
    word seed (k - p.n + p.m) ^^^ mix p (word seed (k - p.n)) (word seed (k - p.n + 1))
termination_by k
decreasing_by
  all_goals
    have := p.m_lt
    have := p.one_lt
    omega

def temper (y : BitVec w) : BitVec w :=
  let y := y ^^^ ((y >>> p.u) &&& p.d)
  let y := y ^^^ ((y <<< p.s) &&& p.b)
  let y := y ^^^ ((y <<< p.t) &&& p.c)
  y ^^^ (y >>> p.l)

/-- The `k`-th word that is put out, the first one being the 0-th. -/
def output (seed : BitVec w) (k : Nat) : BitVec w := temper p (word p seed (p.n + k))

theorem seeded_succ (seed : BitVec w) (i : Nat) :
    seeded p seed (i + 1) =
      p.f * (seeded p seed i ^^^ (seeded p seed i >>> (w - 2))) + BitVec.ofNat w (i + 1) := rfl

theorem word_seeded (seed : BitVec w) {k : Nat} (h : k < p.n) :
    word p seed k = seeded p seed k := by
  rw [word, if_pos h]

theorem word_add (seed : BitVec w) (k : Nat) :
    word p seed (k + p.n) =
      word p seed (k + p.m) ^^^ mix p (word p seed k) (word p seed (k + 1)) := by
  rw [word, if_neg (by omega), Nat.add_sub_cancel]

/-- MT19937-64. -/
def mt19937_64 : Parameters 64 where
  n := 312
  m := 156
  r := 31
  a := 0xB5026F5AA96619E9#64
  u := 29
  d := 0x5555555555555555#64
  s := 17
  b := 0x71D67FFFEDA60000#64
  t := 37
  c := 0xFFF7EEE000000000#64
  l := 43
  f := 6364136223846793005#64
  m_lt := by decide
  one_lt := by decide

/-- The first word of the customary seed. -/
example : output mt19937_64 5489#64 0 = 14514284786278117030#64 := by
  have h := word_add mt19937_64 5489#64 0
  unfold output
  rw [Nat.add_zero, ← Nat.zero_add mt19937_64.n, h]
  rw [word_seeded _ _ (by decide), word_seeded _ _ (by decide), word_seeded _ _ (by decide)]
  decide +kernel

end Lyre.MersenneTwister
