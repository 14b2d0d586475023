import Mathlib.Data.Nat.Notation
import Mathlib.Logic.Function.Iterate

/-!
# `lib/random.c`: the random numbers

The lock and the interrupts play no role: each function runs as one step. The array `mt` is the
function of its index, of which only the first `MT_N` values are looked at.
-/

namespace Lyre.Random

def mtW : Nat := 64
def mtN : Nat := 312
def mtM : Nat := 156
def mtR : Nat := 31
def mtA : BitVec 64 := 0xB5026F5AA96619E9#64
def mtU : Nat := 29
def mtD : BitVec 64 := 0x5555555555555555#64
def mtS : Nat := 17
def mtB : BitVec 64 := 0x71D67FFFEDA60000#64
def mtT : Nat := 37
def mtC : BitVec 64 := 0xFFF7EEE000000000#64
def mtL : Nat := 43
def mtF : BitVec 64 := 0X5851F42D4C957F2D#64

/-- `(uint64_t)(1 << MT_R) - 1`, where `1` is an `int`: the sign bit is set by the shift, and is
extended by the cast. -/
def mtLowerMask : BitVec 64 := (1#32 <<< mtR).signExtend 64 - 1#64

def mtUpperMask : BitVec 64 := ~~~ mtLowerMask

structure State where
  mt : Nat → BitVec 64
  index : Nat

/-- The static variables. -/
def initial : State := { mt := fun _ => 0#64, index := mtN }

/-- One turn of the loop of `twist`. -/
def twistWord (mt : Nat → BitVec 64) (i : Nat) : Nat → BitVec 64 :=
  let x := (mt i &&& mtUpperMask) + (mt ((i + 1) % mtN) &&& mtLowerMask)
  let xA := x >>> 1
  let xA := if x &&& 1#64 ≠ 0#64 then xA ^^^ mtA else xA
  Function.update mt i (mt ((i + mtM) % mtN) ^^^ xA)

def twist (s : State) : State :=
  { mt := (List.range (mtN - 1)).foldl twistWord s.mt, index := 0 }

def temper (y : BitVec 64) : BitVec 64 :=
  let y := y ^^^ ((y >>> mtU) &&& mtD)
  let y := y ^^^ ((y >>> mtS) &&& mtB)
  let y := y ^^^ ((y >>> mtT) &&& mtC)
  y ^^^ (y >>> mtL)

def generate (s : State) : BitVec 64 × State :=
  let s := if s.index ≥ mtN then twist s else s
  (temper (s.mt s.index), { s with index := s.index + 1 })

/-- One turn of the loop of `random_seed`. -/
def seedWord (mt : Nat → BitVec 64) (i : Nat) : Nat → BitVec 64 :=
  Function.update mt i
    (mtF * (mt (i - 1) ^^^ (mt (i - 1) >>> (mtW - 2))) + BitVec.ofNat 64 i)

/-- The loop runs from 1 to `MT_N - 2`. -/
def randomSeed (s : State) (seed : BitVec 64) : State :=
  { mt := (List.range' 1 (mtN - 2)).foldl seedWord (Function.update s.mt 0 seed), index := mtN }

def randomGenerate (s : State) : BitVec 64 × State := generate s

/-- The state after `n` calls of `random_generate`. -/
def afterCalls (s : State) (n : Nat) : State := (fun s => (randomGenerate s).2)^[n] s

/-- The value of call `n` of `random_generate`, the first one being call 0. -/
def nthValue (s : State) (n : Nat) : BitVec 64 := (randomGenerate (afterCalls s n)).1

end Lyre.Random
