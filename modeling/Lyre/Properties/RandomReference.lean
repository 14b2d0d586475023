import Lyre.Infra.XorLinear
import Lyre.Properties.Random
import Lyre.Spec.MersenneTwister

/-!
# `random.c` and the Mersenne Twister

If every value that is put out were that of the reference, the words before tempering would be
related by a linear function, and would obey both recurrences, the one of the source with its masks
and the one of the reference. Taken at two neighbours these are so many equations that only words
which are zero solve them. The reference would then have made zeros from its seed, which it does
not.
-/

namespace Lyre.Random

open Infra MersenneTwister

/-! ## Linear functions -/

theorem timesA_linear : XorLinear timesA := (XorLinear.shiftRight 1).xor (XorLinear.bit 0 mtA)

theorem masked_right (n : Nat) (mask : BitVec 64) :
    XorLinear (fun y : BitVec 64 => (y >>> n) &&& mask) :=
  (XorLinear.and mask).comp (XorLinear.shiftRight n)

theorem masked_left (n : Nat) (mask : BitVec 64) :
    XorLinear (fun y : BitVec 64 => (y <<< n) &&& mask) :=
  (XorLinear.and mask).comp (XorLinear.shiftLeft n)

theorem temper_linear : XorLinear Random.temper :=
  have h1 := XorLinear.id.xor (masked_right mtU mtD)
  have h2 := XorLinear.id.xor (masked_right mtS mtB)
  have h3 := XorLinear.id.xor (masked_right mtT mtC)
  have h4 := XorLinear.id.xor (XorLinear.shiftRight (v := 64) mtL)
  h4.comp (h3.comp (h2.comp h1))

theorem referenceTemper_linear : XorLinear (MersenneTwister.temper mt19937_64) :=
  have h1 := XorLinear.id.xor (masked_right mtU mtD)
  have h2 := XorLinear.id.xor (masked_left mtS mtB)
  have h3 := XorLinear.id.xor (masked_left mtT mtC)
  have h4 := XorLinear.id.xor (XorLinear.shiftRight (v := 64) mtL)
  h4.comp (h3.comp (h2.comp h1))

/-- The second step of the tempering of the reference undone. A word is put together seventeen bits
at a time. -/
def unshiftB (y : BitVec 64) : BitVec 64 :=
  let z := y ^^^ ((y <<< mtS) &&& mtB)
  let z := y ^^^ ((z <<< mtS) &&& mtB)
  y ^^^ ((z <<< mtS) &&& mtB)

/-- The first step undone. -/
def unshiftD (y : BitVec 64) : BitVec 64 :=
  let z := y ^^^ ((y >>> mtU) &&& mtD)
  y ^^^ ((z >>> mtU) &&& mtD)

/-- The tempering of the reference undone. -/
def untemper (y : BitVec 64) : BitVec 64 :=
  let y := y ^^^ (y >>> mtL)
  let y := y ^^^ ((y <<< mtT) &&& mtC)
  unshiftD (unshiftB y)

theorem unshiftB_linear : XorLinear unshiftB :=
  have h1 := XorLinear.id.xor (masked_left mtS mtB)
  have h2 := XorLinear.id.xor ((masked_left mtS mtB).comp h1)
  XorLinear.id.xor ((masked_left mtS mtB).comp h2)

theorem unshiftD_linear : XorLinear unshiftD :=
  have h1 := XorLinear.id.xor (masked_right mtU mtD)
  XorLinear.id.xor ((masked_right mtU mtD).comp h1)

theorem untemper_linear : XorLinear untemper :=
  have h1 := XorLinear.id.xor (XorLinear.shiftRight (v := 64) mtL)
  have h2 := XorLinear.id.xor (masked_left mtT mtC)
  unshiftD_linear.comp (unshiftB_linear.comp (h2.comp h1))

theorem untemper_temper (x : BitVec 64) :
    untemper (MersenneTwister.temper mt19937_64 x) = x :=
  (untemper_linear.comp referenceTemper_linear).eq_of_twoPow XorLinear.id (by decide +kernel) x

/-- The product with the matrix undone. Its highest bit is the lowest one of the word. -/
def untimesA (y : BitVec 64) : BitVec 64 :=
  (y <<< 1) ^^^ if y.getLsbD 63 then (mtA <<< 1) ^^^ 1#64 else 0

theorem untimesA_timesA (x : BitVec 64) : untimesA (timesA x) = x :=
  (((XorLinear.shiftLeft 1).xor (XorLinear.bit 63 _)).comp timesA_linear).eq_of_twoPow
    XorLinear.id (by decide +kernel) x

theorem timesA_eq_zero {x : BitVec 64} (h : timesA x = 0) : x = 0 := by
  rw [← untimesA_timesA x, h]
  decide

/-! ## The two recurrences -/

/-- The contributions of a word to the recurrence of the source. -/
def upper (x : BitVec 64) : BitVec 64 := timesA (x &&& mtUpperMask)
def lower (x : BitVec 64) : BitVec 64 := timesA (x &&& mtLowerMask)

theorem upper_linear : XorLinear upper := timesA_linear.comp (XorLinear.and mtUpperMask)

theorem lower_linear : XorLinear lower := timesA_linear.comp (XorLinear.and mtLowerMask)

theorem mix_eq (x y : BitVec 64) : Random.mix x y = upper x ^^^ lower y := timesA_linear ..

/-- The contributions of a word to the recurrence of the reference. -/
def referenceUpper (x : BitVec 64) : BitVec 64 := timesA (x &&& upperMask mt19937_64)
def referenceLower (x : BitVec 64) : BitVec 64 := timesA (x &&& lowerMask mt19937_64)

theorem referenceUpper_linear : XorLinear referenceUpper :=
  timesA_linear.comp (XorLinear.and (upperMask mt19937_64))

theorem referenceLower_linear : XorLinear referenceLower :=
  timesA_linear.comp (XorLinear.and (lowerMask mt19937_64))

theorem referenceMix_eq (x y : BitVec 64) :
    MersenneTwister.mix mt19937_64 x y = referenceUpper x ^^^ referenceLower y := by
  have hdisjoint := masked_disjoint
    (a := upperMask mt19937_64) (b := lowerMask mt19937_64) (by decide) x y
  unfold MersenneTwister.mix
  rw [or_eq_xor hdisjoint]
  exact timesA_linear ..

/-- The word of the reference that is put out as the source puts out `z`. -/
def translate (z : BitVec 64) : BitVec 64 := untemper (Random.temper z)

theorem translate_linear : XorLinear translate := untemper_linear.comp temper_linear

/-- How far the two recurrences are apart, in the earlier one of two neighbours. -/
def gapUpper (z : BitVec 64) : BitVec 64 := referenceUpper (translate z) ^^^ translate (upper z)

/-- And in the later one. -/
def gapLower (z : BitVec 64) : BitVec 64 := referenceLower (translate z) ^^^ translate (lower z)

theorem gapUpper_linear : XorLinear gapUpper :=
  (referenceUpper_linear.comp translate_linear).xor (translate_linear.comp upper_linear)

theorem gapLower_linear : XorLinear gapLower :=
  (referenceLower_linear.comp translate_linear).xor (translate_linear.comp lower_linear)

/-! ## Only zeros obey both

The tables say how the middle one of three words is put together from the equations between
neighbours. -/

/-- For the equation of the first two words. -/
def table₁ : List (BitVec 64) :=
  [0x8EEA29B5BFA54953#64, 0xD91606A3970759A9#64, 0x15AB0FA3BD0E36EE#64, 0xF043029FF019D24E#64,
   0x11F90DA2891825EE#64, 0xDE86C7EEDF82BE74#64, 0x450E6539EB28BE0E#64, 0x9B0C49287613F193#64,
   0x67B36860181F9894#64, 0xA21162001187489C#64, 0x40DD660AFED2C0D5#64, 0x2D592B3EC1ADB1AF#64,
   0x5E6A0B9398B07B61#64, 0x8B0C4B285713E193#64, 0x51F138AD60898ACC#64, 0xCF496BBED32BA597#64,
   0x45A6429BFEA788F0#64, 0x785218043D144638#64, 0x53646AA873D8E47B#64, 0x98350EAAEA8F957F#64,
   0xCD59C194E6BED5CF#64, 0x47BE0A9EFA63D9F0#64, 0x1000000000800048#64, 0x765C25A593B62C40#64,
   0xC4DF4F3973B9AF1C#64, 0x82BEC67572A6155D#64, 0x8D7D29320F760BDC#64, 0x02800A2021945002#64,
   0x30476A36970E8236#64, 0x0A35628CDE1CE64F#64, 0#64, 0#64, 0#64, 0#64, 0#64, 0#64, 0#64, 0#64,
   0#64, 0#64, 0#64, 0#64, 0#64, 0#64, 0#64, 0#64, 0#64, 0#64, 0#64, 0#64, 0#64, 0#64, 0#64, 0#64,
   0#64, 0#64, 0#64, 0#64, 0#64, 0#64, 0#64, 0#64, 0#64, 0xF6B8B1B18AB50B6B#64]

/-- For the equation of the last two words. -/
def table₂ : List (BitVec 64) :=
  [0xD37DCEF5FA25009E#64, 0x60958800DBDB8819#64, 0xD136029AFFA598F2#64, 0x4DF2AF5B32A4E4EE#64,
   0x5186AA8F0549CBBA#64, 0x507E54124926A567#64, 0x3C7264B58D3D198D#64, 0xCB5B03885CC6D13E#64,
   0xC6DA0726B012B872#64, 0#64, 0x0080480100865002#64, 0xC3D68B6F00DCC552#64,
   0xD080222425151222#64, 0x0080080000044002#64, 0x3BDE398D4F10E781#64, 0x01644BA87359E43B#64,
   0xD8724C0BE05EF5D2#64, 0xCB132E1135BF1D9D#64, 0x0EB61E15AAE179A2#64, 0x4A2F01212F996D45#64,
   0x630AEEA6EC065BE7#64, 0x9553671411BD45ED#64, 0x968F82694C0EC0A4#64, 0xCBED8863510A1AF0#64,
   0xDB1606A3878719A9#64, 0xEA41AF904DAC2C12#64, 0x83280D1DF460CA3B#64, 0x5C6D6A339770038C#64,
   0xF9D16C9500299B9F#64, 0x9290880E1080627A#64, 0xD91606A3970719A9#64, 0xD21A0D8AC416E832#64,
   0x145F6D1D44ACBC3E#64, 0xD9960EA3970359AB#64, 0x25775F609C9A14B0#64, 0xFF19439B75A6EF2B#64,
   0x491604A3920709A9#64, 0x83B3808A3E08ECF6#64, 0xD3D36DABE953B12C#64, 0x9B8C43285797A199#64,
   0x3F0B6BB3B03B23ED#64, 0x49160EA793075B89#64, 0x19328D5D21B1F4CC#64, 0x0D59293FC0ADA127#64,
   0xD8356E8ACA9C857F#64, 0xCEAA01B3ADB42B63#64, 0x750B313BFCB9E39F#64, 0xCB512422A9456904#64,
   0x4A2F03212E997D45#64, 0x4323682B5D1B9CC6#64, 0x513302087C8CDCD6#64, 0x5CA80193A924AB63#64,
   0x861F273863AEFE1E#64, 0xC526429BFEA38AF2#64, 0xDE06C7E6DB86BE36#64, 0x344967B9DCEBC62F#64,
   0x03390782BC9E74EC#64, 0x6CFF6BA53E0A295F#64, 0x1F7C05340BB720E8#64, 0x9B8C43285717A191#64,
   0xFF4324B405BB499D#64, 0x8DC9419EF2BEF595#64, 0x521A4D8BC414F83A#64, 0x901B7AF5B6B83068#64]

/-- For the equation of the words that are made from them. -/
def table₃ : List (BitVec 64) :=
  [0x71F1C2A8A8826462#64, 0#64, 0#64, 0x523FE42CAD51E714#64, 0x08EFDB4F141F8D37#64, 0#64,
   0x51EE4702B7CF0443#64, 0#64, 0x00DA5526BD103A6A#64, 0#64, 0x7596A3EA104D814A#64, 0#64, 0#64,
   0#64, 0x43E4618842CCB439#64, 0x9E7D4113A6655BCC#64, 0x86EA29B7BDA56943#64,
   0x9BCD7385AA966BC7#64, 0x05F1003BF072EA5D#64, 0xAEC3AF3A0EB8AE62#64, 0x99414E0398D22904#64,
   0xD7AC886130865C7A#64, 0x49B1C5499AC5C267#64, 0xC5FB469031624A27#64, 0xB24020C514910408#64,
   0xF136029BFEA5987A#64, 0x9A722F2AD54DFD92#64, 0#64, 0xC50DFB1067F8AF5E#64, 0#64,
   0x49030E31142A1D85#64, 0x9AB544AAFB09D57D#64, 0xC9960EA3930359AB#64, 0xFBE1988E4318AACC#64,
   0x032368294D1B9CD6#64, 0x168502B287AD5626#64, 0xE400E8EA26137460#64, 0xDDBF2698FEA2F2E4#64,
   0x40DD660AFED2C0DD#64, 0x3F0B69B3B13B33ED#64, 0#64, 0x823EC67576A2155F#64,
   0x7CA81193A0242BE3#64, 0#64, 0#64, 0#64, 0#64, 0#64, 0x0090800A0400205A#64, 0#64, 0#64, 0#64,
   0#64, 0#64, 0#64, 0#64, 0#64, 0#64, 0#64, 0#64, 0#64, 0#64, 0#64, 0#64]

theorem tables_first (z : BitVec 64) :
    combine table₁ (gapUpper z) ^^^ combine table₃ (gapUpper (upper z)) = 0 :=
  (((combine_linear table₁).comp gapUpper_linear).xor
    ((combine_linear table₃).comp (gapUpper_linear.comp upper_linear))).eq_zero
      (by decide +kernel) z

theorem tables_middle (z : BitVec 64) :
    combine table₁ (gapLower z) ^^^ combine table₂ (gapUpper z) ^^^
      combine table₃ (gapUpper (lower z) ^^^ gapLower (upper z)) = z :=
  ((((combine_linear table₁).comp gapLower_linear).xor
    ((combine_linear table₂).comp gapUpper_linear)).xor
      ((combine_linear table₃).comp ((gapUpper_linear.comp lower_linear).xor
        (gapLower_linear.comp upper_linear)))).eq_of_twoPow XorLinear.id (by decide +kernel) z

theorem tables_last (z : BitVec 64) :
    combine table₂ (gapLower z) ^^^ combine table₃ (gapLower (lower z)) = 0 :=
  (((combine_linear table₂).comp gapLower_linear).xor
    ((combine_linear table₃).comp (gapLower_linear.comp lower_linear))).eq_zero
      (by decide +kernel) z

/-- Three words are related, and so are the two made from them: then the middle one is zero. -/
theorem middle_eq_zero {z₀ z₁ z₂ : BitVec 64} (h₀ : gapUpper z₀ = gapLower z₁)
    (h₁ : gapUpper z₁ = gapLower z₂)
    (h₂ : gapUpper (Random.mix z₀ z₁) = gapLower (Random.mix z₁ z₂)) : z₁ = 0 := by
  rw [mix_eq, mix_eq, gapUpper_linear, gapLower_linear] at h₂
  have hcross : gapUpper (lower z₁) ^^^ gapLower (upper z₁) =
      gapUpper (upper z₀) ^^^ gapLower (lower z₂) := xor_exchange h₂
  have hmiddle := tables_middle z₁
  rw [← h₀, h₁, hcross] at hmiddle
  have hsplit := combine_linear table₃ (gapUpper (upper z₀)) (gapLower (lower z₂))
  dsimp only at hsplit
  rw [hsplit] at hmiddle
  rw [← hmiddle]
  calc combine table₁ (gapUpper z₀) ^^^ combine table₂ (gapLower z₂) ^^^
        (combine table₃ (gapUpper (upper z₀)) ^^^ combine table₃ (gapLower (lower z₂)))
      = (combine table₁ (gapUpper z₀) ^^^ combine table₃ (gapUpper (upper z₀))) ^^^
        (combine table₂ (gapLower z₂) ^^^ combine table₃ (gapLower (lower z₂))) := by ac_rfl
    _ = 0 := by rw [tables_first, tables_last]; rfl

/-! ## The streams -/

/-- Word `n` of the reference is the translation of what the source puts out. -/
theorem word_eq_translate {s : State} {seed : BitVec 64} (hs : s.index = 312)
    (h : ∀ n, nthValue s n = output mt19937_64 seed n) (n : Nat) :
    word mt19937_64 seed (312 + n) = translate (raw s n) := by
  have hn := h n
  rw [nthValue_eq hs] at hn
  unfold translate
  rw [hn]
  exact (untemper_temper _).symm

theorem gap_eq {s : State} {seed : BitVec 64} (hs : s.index = 312)
    (h : ∀ n, nthValue s n = output mt19937_64 seed n) {n : Nat} (hn : n % 312 ≠ 311) :
    gapUpper (raw s n) = gapLower (raw s (n + 1)) := by
  have hsource := congrArg translate (raw_add s hn)
  rw [mix_eq, translate_linear, translate_linear] at hsource
  have hreference : word mt19937_64 seed (312 + n + 312) =
      word mt19937_64 seed (312 + n + 156) ^^^ MersenneTwister.mix mt19937_64
        (word mt19937_64 seed (312 + n)) (word mt19937_64 seed (312 + n + 1)) :=
    word_add mt19937_64 seed (312 + n)
  rw [Nat.add_assoc, Nat.add_assoc, Nat.add_assoc, word_eq_translate hs h, word_eq_translate hs h,
    word_eq_translate hs h, word_eq_translate hs h, referenceMix_eq, hsource] at hreference
  have hmix := (BitVec.xor_right_inj _).mp hreference
  have hgap := xor_exchange ((BitVec.xor_comm ..).trans hmix)
  unfold gapUpper gapLower
  rw [BitVec.xor_comm (referenceUpper _), BitVec.xor_comm (referenceLower _)]
  exact hgap

theorem raw_eq_zero {s : State} {seed : BitVec 64} (hs : s.index = 312)
    (h : ∀ n, nthValue s n = output mt19937_64 seed n) {n : Nat} (hn : n % 312 < 310)
    (hm : (n + 156) % 312 ≠ 311) : raw s (n + 1) = 0 := by
  have hgap : ∀ k, k % 312 ≠ 311 → gapUpper (raw s k) = gapLower (raw s (k + 1)) := fun k hk =>
    gap_eq hs h hk
  refine middle_eq_zero (hgap n (by omega)) (hgap (n + 1) (by omega)) ?_
  -- what the two pairs contribute is the difference of words that are related themselves
  have hfirst : Random.mix (raw s n) (raw s (n + 1)) = raw s (n + 156) ^^^ raw s (n + 312) := by
    rw [raw_add s (by omega : n % 312 ≠ 311), ← BitVec.xor_assoc, BitVec.xor_self,
      BitVec.zero_xor]
  have hsecond : Random.mix (raw s (n + 1)) (raw s (n + 1 + 1)) =
      raw s (n + 156 + 1) ^^^ raw s (n + 312 + 1) := by
    have hadd := raw_add s (by omega : (n + 1) % 312 ≠ 311)
    have h₁ : n + 312 + 1 = n + 1 + 312 := by omega
    have h₂ : n + 156 + 1 = n + 1 + 156 := by omega
    rw [h₁, h₂, hadd, ← BitVec.xor_assoc, BitVec.xor_self, BitVec.zero_xor]
  rw [hfirst, hsecond, gapUpper_linear, gapLower_linear, hgap (n + 156) hm,
    hgap (n + 312) (by omega)]

/-! ## The reference -/

theorem eq_zero_of_masked {x mask : BitVec 64} (h : x &&& ~~~ mask = 0) (h' : x &&& mask = 0) :
    x = 0 := by
  apply BitVec.eq_of_getLsbD_eq
  intro i hi
  have hup : BitVec.getLsbD (x &&& ~~~ mask) i = false := by
    rw [h]
    exact BitVec.getLsbD_zero
  have hlow : BitVec.getLsbD (x &&& mask) i = false := by
    rw [h']
    exact BitVec.getLsbD_zero
  rw [BitVec.getLsbD_and, BitVec.getLsbD_not] at hup
  rw [BitVec.getLsbD_and] at hlow
  show x.getLsbD i = BitVec.getLsbD 0#64 i
  rw [BitVec.getLsbD_zero]
  cases hx : x.getLsbD i
  · rfl
  · simp [hx, hi] at hup hlow
    rw [hlow] at hup
    cases hup

/-- The reference does not make four zeros where these are: two words of the seed would be zero. -/
theorem word_ne_zero (seed : BitVec 64) :
    ¬ (word mt19937_64 seed 313 = 0 ∧ word mt19937_64 seed 314 = 0 ∧
      word mt19937_64 seed 469 = 0 ∧ word mt19937_64 seed 470 = 0) := by
  rintro ⟨h₁, h₂, h₃, h₄⟩
  have hmix : ∀ k, word mt19937_64 seed (k + 156) = 0 → word mt19937_64 seed (k + 312) = 0 →
      (word mt19937_64 seed k &&& upperMask mt19937_64) = 0 ∧
        (word mt19937_64 seed (k + 1) &&& lowerMask mt19937_64) = 0 := by
    intro k hk hk'
    have hadd : word mt19937_64 seed (k + 312) = word mt19937_64 seed (k + 156) ^^^
        MersenneTwister.mix mt19937_64 (word mt19937_64 seed k) (word mt19937_64 seed (k + 1)) :=
      word_add mt19937_64 seed k
    rw [hk, hk'] at hadd
    have hor := timesA_eq_zero ((BitVec.zero_xor).symm.trans hadd.symm)
    exact BitVec.or_eq_zero_iff.mp hor
  obtain ⟨-, hlow⟩ := hmix 157 h₁ h₃
  obtain ⟨hup, hnext⟩ := hmix 158 h₂ h₄
  have hzero : word mt19937_64 seed 158 = 0 := eq_zero_of_masked hup hlow
  have hseed : word mt19937_64 seed 159 = mt19937_64.f *
      (word mt19937_64 seed 158 ^^^ (word mt19937_64 seed 158 >>> 62)) + 159#64 := by
    rw [word_seeded _ _ (by decide), word_seeded _ _ (by decide)]
    rfl
  rw [hseed, hzero] at hnext
  revert hnext
  decide

/-! ## The law of `random_generate` -/

theorem randomSeed_index (s : State) (seed : BitVec 64) : (randomSeed s seed).index = 312 := rfl

theorem randomSeed_mt (s : State) (seed : BitVec 64) {i : Nat} (h : i ≤ 310) :
    (randomSeed s seed).mt i = seeded mt19937_64 seed i := by
  have hn : mtN - 2 = 310 := rfl
  unfold randomSeed
  dsimp only
  rw [hn]
  have h₀ : Function.update s.mt 0 seed 0 = seeded mt19937_64 seed 0 := Function.update_self ..
  have hf : mtF = mt19937_64.f := by decide
  refine foldl_seedWord_range h₀ (fun k => ?_) 310 i h
  rw [seeded_succ, hf]

theorem temper_injective {x y : BitVec 64} (h : Random.temper x = Random.temper y) : x = y := by
  apply BitVec.xor_eq_zero_iff.mp
  apply temper_eq_zero
  rw [temper_linear, h]
  exact BitVec.xor_self

/-- Whatever the state before and the seed are, some value is not that of the reference; and value
311 gives the last word of the state before away. -/
theorem random_never (s : State) (seed : BitVec 64) :
    (¬ ∀ n, nthValue (randomSeed s seed) n = output mt19937_64 seed n) ∧
      ∀ s' : State, nthValue (randomSeed s' seed) 311 = nthValue (randomSeed s seed) 311 ↔
        s'.mt 311 = s.mt 311 := by
  constructor
  · intro h
    have hs := randomSeed_index s seed
    have hword : ∀ n, n % 312 < 310 → (n + 156) % 312 ≠ 311 →
        word mt19937_64 seed (312 + (n + 1)) = 0 := by
      intro n hn hm
      rw [word_eq_translate hs h, raw_eq_zero hs h hn hm]
      exact translate_linear.zero
    exact word_ne_zero seed ⟨hword 0 (by decide) (by decide), hword 1 (by decide) (by decide),
      hword 156 (by decide) (by decide), hword 157 (by decide) (by decide)⟩
  · intro s'
    rw [nthValue_eq (randomSeed_index s' seed), nthValue_eq (randomSeed_index s seed), raw_last,
      raw_last, randomSeed_last, randomSeed_last]
    exact ⟨temper_injective, fun h => by rw [h]⟩

/-- The first value of the customary seed. -/
theorem random_first_wrong :
    nthValue (randomSeed initial 5489#64) 0 ≠ output mt19937_64 5489#64 0 := by
  have hword : word mt19937_64 5489#64 312 = seeded mt19937_64 5489#64 156 ^^^
      MersenneTwister.mix mt19937_64 (seeded mt19937_64 5489#64 0)
        (seeded mt19937_64 5489#64 1) := by
    have hadd := word_add mt19937_64 5489#64 0
    rw [word_seeded _ _ (by decide : 0 + mt19937_64.m < mt19937_64.n),
      word_seeded _ _ (by decide : 0 < mt19937_64.n),
      word_seeded _ _ (by decide : 0 + 1 < mt19937_64.n)] at hadd
    exact hadd
  rw [nthValue_eq (randomSeed_index _ _), raw_zero, randomSeed_mt _ _ (by decide),
    randomSeed_mt _ _ (by decide), randomSeed_mt _ _ (by decide)]
  show _ ≠ MersenneTwister.temper mt19937_64 (word mt19937_64 5489#64 312)
  rw [hword]
  decide +kernel

end Lyre.Random
