import Lyre.Properties.Tmpfs

/-!
# The storage of tmpfs resources

Storage grows by doubling, from 4096 bytes on, and never shrinks. So the loops that double end for
what is below 2^63, if there is storage to begin with; a directory has none (`growth_ends_iff`).
`tmpfs_truncate` leaves what it cuts off in the storage, from where an extension brings it back.
As long as that has been zeros only, a byte that nobody has written reads as zero (`gaps_zero`).
-/

namespace Lyre.Tmpfs

open Infra Infra.Ring

variable {R : Realloc} {this this' : Resource} {needed fuel k c length offset : Nat}
  {buf : List Byte} {memory ok : Bool}

/-! ## The doubling loops -/

/-- The loop of `tmpfs_truncate` is the one of `tmpfs_resource_write`, for one byte less. -/
theorem truncateLoop_eq (h : 0 < length) : truncateLoop length fuel c = growLoop (length - 1) fuel c := by
  induction fuel generalizing c with
  | zero => rfl
  | succ fuel ih =>
    unfold truncateLoop growLoop
    rw [ih]
    have hiff : c < length ↔ c ≤ length - 1 := by omega
    simp only [hiff]

theorem growLoop_zero : growLoop needed fuel 0 = none := by
  induction fuel with
  | zero => rfl
  | succ fuel ih =>
    unfold growLoop
    rw [if_pos (Nat.zero_le _)]
    exact ih

theorem growLoop_lt (h : growLoop needed fuel c = some k) : needed < k := by
  induction fuel generalizing c with
  | zero => simp [growLoop] at h
  | succ fuel ih =>
    unfold growLoop at h
    split at h
    · exact ih h
    · next hlt =>
      obtain rfl := Option.some.inj h
      exact Nat.not_le.mp hlt

/-- Doubling a power of two gives the next one, and nothing after the last. -/
theorem u64_two_pow_double (hk : k ≤ 63) :
    u64 (2 ^ k * 2) = if k = 63 then 0 else 2 ^ (k + 1) := by
  rw [← Nat.pow_succ]
  split
  · next h =>
    subst h
    decide
  · next h => exact u64_of_lt (Nat.pow_lt_pow_right (by decide) (by omega))

theorem growLoop_two_pow (hk : k ≤ 63) (h : growLoop needed fuel (2 ^ k) = some c) :
    ∃ j ≤ 63, c = 2 ^ j := by
  induction fuel generalizing k with
  | zero => simp [growLoop] at h
  | succ fuel ih =>
    unfold growLoop at h
    split at h
    · rw [u64_two_pow_double hk] at h
      split at h
      · rw [growLoop_zero] at h
        cases h
      · exact ih (by omega) h
    · exact ⟨k, hk, (Option.some.inj h).symm⟩

theorem growLoop_ends {d : Nat} (hk : k + d = 63) (hneeded : needed < 2 ^ 63) (hfuel : d < fuel) :
    ∃ c, growLoop needed fuel (2 ^ k) = some c := by
  induction d generalizing k fuel with
  | zero =>
    obtain ⟨fuel, rfl⟩ := Nat.exists_eq_add_of_lt hfuel
    have hk' : k = 63 := by omega
    subst hk'
    exact ⟨2 ^ 63, by rw [growLoop, if_neg (by omega)]⟩
  | succ d ih =>
    cases fuel with
    | zero => omega
    | succ fuel =>
      rw [growLoop]
      split
      · rw [u64_two_pow_double (by omega), if_neg (by omega)]
        exact ih (by omega) (by omega)
      · exact ⟨_, rfl⟩

/-! ## The storage in a run -/

/-- The resources that calls of `tmpfs_resource_write` and `tmpfs_truncate` make of a new one. -/
def Grown (R : Realloc) (new : Resource) : Resource → Prop :=
  Reach (fun this c this' => ∃ ok, perform R this c = some (ok, this')) anyStep new

/-- What is left of the storage: it is kept as far as it goes, and zeros are added to it. -/
structure Kept (this this' : Resource) : Prop where
  capacity : this.capacity ≤ this'.capacity
  bytes : ∀ i < this.capacity, this'.data i = this.data i
  zeros : ∀ i, this.capacity ≤ i → i < this'.capacity → this'.data i = 0
  size : this'.stSize = this.stSize
  doubled : this'.capacity = this.capacity ∨
    ∃ needed fuel, growLoop needed fuel this.capacity = some this'.capacity

theorem Kept.refl (this : Resource) : Kept this this where
  capacity := Nat.le_refl _
  bytes _ _ := rfl
  zeros _ hle hlt := absurd hlt (Nat.not_lt.mpr hle)
  size := rfl
  doubled := .inl rfl

theorem reserve_cases (h : reserve R this needed memory = some (ok, this')) :
    ok = false ∧ this' = this ∨
    ok = true ∧ needed < this'.capacity ∧ Kept this this' := by
  unfold reserve at h
  split at h
  · next hsmall =>
    obtain ⟨c, hc, h⟩ := Option.map_eq_some_iff.mp h
    have hlt := growLoop_lt hc
    cases memory with
    | false =>
      obtain ⟨rfl, rfl⟩ := Prod.mk.inj h
      exact .inl ⟨rfl, rfl⟩
    | true =>
      obtain ⟨rfl, rfl⟩ := Prod.mk.inj h
      refine .inr ⟨rfl, hlt, ?_, ?_, ?_, rfl, .inr ⟨needed, 65, hc⟩⟩
      · exact Nat.le_of_lt (Nat.lt_of_le_of_lt hsmall hlt)
      · exact fun i hi => R.keeps _ _ _ i hi
      · exact fun i hle hlt => R.zeroes _ _ _ i hle hlt
  · next hlarge =>
    obtain ⟨rfl, rfl⟩ := Prod.mk.inj (Option.some.inj h)
    exact .inr ⟨rfl, Nat.not_le.mp hlarge, .refl _⟩

theorem extend_cases (h : extend this length memory = some (ok, this')) :
    ok = false ∧ this' = this ∨
    ok = true ∧ length ≤ this'.capacity ∧ Kept this this' := by
  unfold extend at h
  split at h
  · next hsmall =>
    obtain ⟨c, hc, h⟩ := Option.map_eq_some_iff.mp h
    rw [truncateLoop_eq (by omega)] at hc
    have hlt := growLoop_lt hc
    cases memory with
    | false =>
      obtain ⟨rfl, rfl⟩ := Prod.mk.inj h
      exact .inl ⟨rfl, rfl⟩
    | true =>
      obtain ⟨rfl, rfl⟩ := Prod.mk.inj h
      have hroom : length ≤ c := by omega
      refine .inr ⟨rfl, hroom, ?_, ?_, ?_, rfl, .inr ⟨length - 1, 65, hc⟩⟩
      · exact Nat.le_trans (Nat.le_of_lt hsmall) hroom
      · exact fun i hi => if_pos hi
      · exact fun i hle _ => if_neg (Nat.not_lt.mpr hle)
  · next hlarge =>
    obtain ⟨rfl, rfl⟩ := Prod.mk.inj (Option.some.inj h)
    exact .inr ⟨rfl, Nat.not_lt.mp hlarge, .refl _⟩

/-- What a call does: it fails and leaves the resource as it is, or it has room for what it is
about. -/
inductive Performed (this : Resource) : Change → Bool → Resource → Prop
  | failed (c : Change) : Performed this c false this
  | write (offset : Nat) (buf : List Byte) (memory : Bool) (roomy : Resource) (size blocks : Int) :
    u64 (offset + buf.length) < roomy.capacity → Kept this roomy →
      (size = this.stSize ∨ size = offT (offset + buf.length)) →
      Performed this (.write offset buf memory) true
        ⟨blit roomy.data offset buf, roomy.capacity, size, blocks⟩
  | truncate (length : Nat) (memory : Bool) (roomy : Resource) (blocks : Int) :
    length ≤ roomy.capacity → Kept this roomy →
      Performed this (.truncate length memory) true
        ⟨roomy.data, roomy.capacity, offT length, blocks⟩

theorem perform_performed {change : Change} (h : perform R this change = some (ok, this')) :
    Performed this change ok this' := by
  cases change with
  | write offset buf memory =>
    simp only [perform, tmpfsResourceWrite, Option.map_map, Option.map_eq_some_iff] at h
    obtain ⟨⟨ok', roomy⟩, hres, h⟩ := h
    obtain ⟨rfl, rfl⟩ | ⟨rfl, hroom, hkept⟩ := reserve_cases hres
    · obtain ⟨rfl, rfl⟩ := Prod.mk.inj h
      exact .failed _
    · obtain ⟨rfl, rfl⟩ := Prod.mk.inj h
      simp only [Option.isSome_some]
      split
      · exact .write offset buf memory roomy _ _ hroom hkept (.inr rfl)
      · exact .write offset buf memory roomy _ _ hroom hkept (.inl hkept.size)
  | truncate length memory =>
    simp only [perform, tmpfsTruncate, Option.map_eq_some_iff] at h
    obtain ⟨⟨ok', roomy⟩, hres, h⟩ := h
    obtain ⟨rfl, rfl⟩ | ⟨rfl, hroom, hkept⟩ := extend_cases hres
    · obtain ⟨rfl, rfl⟩ := Prod.mk.inj h
      exact .failed _
    · obtain ⟨rfl, rfl⟩ := Prod.mk.inj h
      exact .truncate length memory roomy _ hroom hkept

/-! ## The loops end -/

/-- `create_tmpfs_resource`. -/
def created (regular : Bool) : Resource := if regular then createTmpfsResource else createTmpfsDirectory

/-- The capacities that a resource comes to have. -/
def Doubled (regular : Bool) (capacity : Nat) : Prop :=
  if regular then ∃ k ≤ 63, capacity = 2 ^ k else capacity = 0

theorem Kept.of_doubled {regular : Bool} (h : Kept this this') (hcap : Doubled regular this.capacity) :
    Doubled regular this'.capacity := by
  obtain hsame | ⟨needed, fuel, hloop⟩ := h.doubled
  · rw [hsame]
    exact hcap
  · cases regular with
    | true =>
      obtain ⟨k, hk, hpow⟩ := hcap
      rw [hpow] at hloop
      exact growLoop_two_pow hk hloop
    | false =>
      have hzero : this.capacity = 0 := hcap
      rw [hzero, growLoop_zero] at hloop
      cases hloop

theorem Performed.of_doubled {regular : Bool} {change : Change} (h : Performed this change ok this')
    (hcap : Doubled regular this.capacity) : Doubled regular this'.capacity := by
  cases h with
  | failed => exact hcap
  | write offset buf memory roomy size blocks hroom hkept => exact hkept.of_doubled hcap
  | truncate length memory roomy blocks hroom hkept => exact hkept.of_doubled hcap

theorem Grown.of_doubled {regular : Bool} (h : Grown R (created regular) this) :
    Doubled regular this.capacity := by
  refine h.invariant (I := fun this => Doubled regular this.capacity) ?_ ?_
  · cases regular with
    | true => exact ⟨12, by decide, rfl⟩
    | false => rfl
  · rintro this change this' hcap - ⟨ok, hstep⟩
    exact (perform_performed hstep).of_doubled hcap

/-- The loop of `tmpfs_resource_write`, where it is entered, ends. -/
def WriteEnds (this : Resource) (offset count : Nat) : Prop :=
  this.capacity ≤ u64 (offset + count) →
    ∃ fuel c, growLoop (u64 (offset + count)) fuel this.capacity = some c

/-- The loop of `tmpfs_truncate`, where it is entered, ends. -/
def TruncateEnds (this : Resource) (length : Nat) : Prop :=
  this.capacity < length → ∃ fuel c, truncateLoop length fuel this.capacity = some c

theorem growLoop_ends_iff (hk : k ≤ 63) :
    (∃ fuel c, growLoop needed fuel (2 ^ k) = some c) ↔ needed < 2 ^ 63 := by
  constructor
  · rintro ⟨fuel, c, h⟩
    obtain ⟨j, hj, rfl⟩ := growLoop_two_pow hk h
    exact Nat.lt_of_lt_of_le (growLoop_lt h) (Nat.pow_le_pow_right (by decide) hj)
  · intro h
    exact ⟨65, growLoop_ends (Nat.add_sub_cancel' hk) h (by omega)⟩

/-- **The growth loops of a resource that `openat` hands out** end if it is a regular file and what
is asked for is below 2^63, and else never, but for a directory that is truncated to nothing. -/
theorem growth_ends_iff {regular : Bool} (h : Grown R (created regular) this)
    (offset count length : Nat) :
    (WriteEnds this offset count ↔ regular = true ∧ u64 (offset + count) < 2 ^ 63) ∧
    (TruncateEnds this length ↔ if regular then length ≤ 2 ^ 63 else length = 0) := by
  have hcap := h.of_doubled
  cases regular with
  | true =>
    obtain ⟨k, hk, hpow⟩ := hcap
    have hle : 2 ^ k ≤ 2 ^ 63 := Nat.pow_le_pow_right (by decide) hk
    unfold WriteEnds TruncateEnds
    rw [hpow, growLoop_ends_iff hk]
    refine ⟨⟨fun hends => ⟨rfl, ?_⟩, fun hlt _ => hlt.2⟩, ?_⟩
    · by_contra hlarge
      exact hlarge (hends (by omega))
    · rw [if_pos rfl]
      by_cases hzero : length = 0
      · simp [hzero]
      · simp only [truncateLoop_eq (Nat.pos_of_ne_zero hzero), growLoop_ends_iff hk]
        omega
  | false =>
    have hzero : this.capacity = 0 := hcap
    unfold WriteEnds TruncateEnds
    rw [hzero]
    refine ⟨⟨fun hends => ?_, fun hreg => absurd hreg.1 (by decide)⟩, ?_⟩
    · obtain ⟨fuel, c, hloop⟩ := hends (Nat.zero_le _)
      rw [growLoop_zero] at hloop
      cases hloop
    · rw [if_neg (by decide)]
      constructor
      · intro hends
        by_contra hne
        obtain ⟨fuel, c, hloop⟩ := hends (Nat.pos_of_ne_zero hne)
        rw [truncateLoop_eq (Nat.pos_of_ne_zero hne), growLoop_zero] at hloop
        cases hloop
      · rintro rfl hlt
        exact absurd hlt (Nat.lt_irrefl 0)

/-- A new regular file is written to, and a directory is truncated. -/
theorem growth_ends_iff_new : WriteEnds createTmpfsResource 0 5000 ∧ TruncateEnds createTmpfsDirectory 0 :=
  ⟨(@growth_ends_iff pageRealloc createTmpfsResource true .refl 0 5000 0).1.mpr ⟨rfl, by decide⟩,
    (@growth_ends_iff pageRealloc createTmpfsDirectory false .refl 0 0 0).2.mpr rfl⟩

/-- A byte that is written to a directory, and one that is written behind the largest offset. -/
theorem write_to_directory :
    ¬ WriteEnds createTmpfsDirectory 0 1 ∧ ¬ WriteEnds createTmpfsResource (2 ^ 63 - 1) 1 := by
  constructor
  · intro hends
    obtain ⟨fuel, c, hloop⟩ := hends (Nat.zero_le _)
    rw [show createTmpfsDirectory.capacity = 0 from rfl, growLoop_zero] at hloop
    cases hloop
  · intro hends
    have hcap : createTmpfsResource.capacity = 2 ^ 12 := rfl
    have hlt := (growLoop_ends_iff (k := 12) (by decide)).mp (hends (by decide))
    exact absurd hlt (by decide)

/-! ## Bytes that nobody has written -/

/-- A resource, and the bytes of it that have been written since they were last cut off. -/
structure History where
  file : Resource
  written : Nat → Bool

/-- What a call that succeeds does to the bytes. -/
def Change.note (written : Nat → Bool) : Change → Nat → Bool
  | .write offset buf _ => fun i => written i || decide (offset ≤ i ∧ i < offset + buf.length)
  | .truncate length _ => fun i => written i && decide (i < length)

def History.Step (R : Realloc) (h : History) (change : Change) (h' : History) : Prop :=
  ∃ ok, perform R h.file change = some (ok, h'.file) ∧
    h'.written = if ok then change.note h.written else h.written

def History.new : History := ⟨createTmpfsResource, fun _ => false⟩

/-- Nothing but zeros is cut off: the storage has no other bytes from the new length on. -/
def Clean (h : History) : Change → Prop
  | .write _ _ _ => True
  | .truncate length _ => ∀ i, length ≤ i → i < h.file.capacity → h.file.data i = 0

/-- What nobody has written reads as zero. -/
def GapsZero (h : History) : Prop :=
  ∀ i : Nat, (i : Int) < h.file.stSize → h.written i = false → h.file.data i = 0

/-- The invariant is about all of the storage. -/
structure Zeroed (h : History) : Prop where
  size : h.file.stSize ≤ h.file.capacity
  bytes : ∀ i < h.file.capacity, h.written i = false → h.file.data i = 0

theorem Zeroed.gapsZero {h : History} (hz : Zeroed h) : GapsZero h := by
  intro i hi hwritten
  have hsize := hz.size
  exact hz.bytes i (by omega) hwritten

theorem Zeroed.new : Zeroed .new where
  size := by decide
  bytes _ _ _ := rfl

theorem Kept.zeroed {h : History} (hz : Zeroed h) (hkept : Kept h.file this') :
    ∀ i < this'.capacity, h.written i = false → this'.data i = 0 := by
  intro i hi hwritten
  by_cases hold : i < h.file.capacity
  · rw [hkept.bytes i hold]
    exact hz.bytes i hold hwritten
  · exact hkept.zeros i (Nat.not_lt.mp hold) hi

theorem offT_le (n : Nat) : offT n ≤ u64 n := by
  unfold offT u64
  rw [BitVec.toInt_eq_toNat_cond, BitVec.toNat_ofNat]
  split <;> omega

theorem Zeroed.step {h h' : History} {change : Change} (hz : Zeroed h) (hclean : Clean h change)
    (hstep : h.Step R change h') : Zeroed h' := by
  obtain ⟨ok, hperform, hwritten⟩ := hstep
  obtain ⟨file, written⟩ := h'
  dsimp only at hperform hwritten
  cases perform_performed hperform with
  | failed =>
    rw [if_neg (by decide)] at hwritten
    rw [hwritten]
    exact hz
  | write offset buf memory roomy size blocks hroom hkept hsize =>
    rw [if_pos rfl] at hwritten
    subst hwritten
    refine ⟨?_, ?_⟩
    · have hcap := hkept.capacity
      have hold := hz.size
      have hnew := offT_le (offset + buf.length)
      dsimp only
      rcases hsize with rfl | rfl <;> omega
    · intro i hi hwritten
      simp only [Change.note, Bool.or_eq_false_iff, decide_eq_false_iff_not] at hwritten
      show blit roomy.data offset buf i = 0
      rw [blit_apply_of_not hwritten.2]
      exact hkept.zeroed hz i hi hwritten.1
  | truncate length memory roomy blocks hroom hkept =>
    rw [if_pos rfl] at hwritten
    subst hwritten
    refine ⟨?_, ?_⟩
    · have hle : offT length ≤ length := Int.le_trans (offT_le length) (by exact_mod_cast Nat.mod_le _ _)
      dsimp only
      omega
    · intro i hi hwritten
      simp only [Change.note, Bool.and_eq_false_iff, decide_eq_false_iff_not] at hwritten
      rcases hwritten with hwritten | hcut
      · exact hkept.zeroed hz i hi hwritten
      · -- what is cut off is zero already
        show roomy.data i = 0
        by_cases hold : i < h.file.capacity
        · rw [hkept.bytes i hold]
          exact hclean i (Nat.not_lt.mp hcut) hold
        · exact hkept.zeros i (Nat.not_lt.mp hold) hi

/-- **Gaps read as zero** in every run of writes and truncates that cut off nothing but zeros. -/
theorem gaps_zero {h : History} (hrun : Reach (History.Step R) Clean .new h) : GapsZero h :=
  (hrun.invariant (I := Zeroed) .new fun _ _ _ hz hclean hstep => hz.step hclean hstep).gapsZero

/-- One byte is written behind the end of a new file. -/
theorem gaps_zero_write :
    GapsZero ⟨⟨blit (fun _ => 0) 10 [65], 4096, 11, 1⟩,
      Change.note (fun _ => false) (.write 10 [65] true)⟩ := by
  have hstep : History.new.Step pageRealloc (.write 10 [65] true) ⟨_, _⟩ := ⟨true, rfl, rfl⟩
  have hclean : Clean .new (.write 10 [65] true) := trivial
  exact gaps_zero (.tail .refl hclean hstep)

/-- A byte is written, cut off, and brought back. -/
theorem stale_byte_returns :
    ∃ h : History, Reach (History.Step pageRealloc) anyStep .new h ∧ ¬ GapsZero h := by
  let data : Nat → Byte := blit (fun _ => 0) 0 [65]
  let note : Nat → Bool := Change.note (fun _ => false) (.write 0 [65] true)
  have hwrite : History.new.Step pageRealloc (.write 0 [65] true) ⟨⟨data, 4096, 1, 1⟩, note⟩ :=
    ⟨true, rfl, rfl⟩
  let cut : Nat → Bool := Change.note note (.truncate 0 true)
  have hcut : History.Step pageRealloc ⟨⟨data, 4096, 1, 1⟩, note⟩ (.truncate 0 true)
      ⟨⟨data, 4096, 0, 0⟩, cut⟩ := ⟨true, rfl, rfl⟩
  have hextend : History.Step pageRealloc ⟨⟨data, 4096, 0, 0⟩, cut⟩ (.truncate 1 true)
      ⟨⟨data, 4096, 1, 1⟩, Change.note cut (.truncate 1 true)⟩ := ⟨true, rfl, rfl⟩
  refine ⟨_, .tail (.tail (.tail .refl trivial hwrite) trivial hcut) trivial hextend, ?_⟩
  intro hzero
  exact absurd (hzero 0 (by decide) rfl) (by decide)

end Lyre.Tmpfs
