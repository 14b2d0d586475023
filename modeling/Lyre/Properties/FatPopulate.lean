import Lyre.Properties.FatNames

/-!
# What `fat32fs_populate` reads and writes

The order of a record says where its part of a name goes in `namebuffer`, and the first record of a
run says with it where the entry is. Which run a record belongs to, and which checksum it has to have,
can be seen in the directory (`runStart`, `target`), and the loop goes by that (`Follows`).
-/

namespace Lyre.Fat32

open Infra Infra.Bytes

/-! ## Runs of records -/

/-- The record with which the run begins that is open in front of record `i`. Unused records do not
end a run. -/
def runStart (buf : Mem) : Nat → Option Nat
  | 0 => none
  | i + 1 =>
    if buf (dentSize * i) = 0xe5 then runStart buf i
    else if IsLfn buf (dentSize * i) then some ((runStart buf i).getD i)
    else none

/-- The checksum for a run that begins at record `i`: the one of the name that its order leads to. If
that is the record itself, its order has already been cut to five bits. -/
def target (buf : Mem) (i : Nat) : Byte :=
  lfnchecksum fun k => if orderAt buf i = 0 ∧ k = 0 then 0 else buf (dentSize * (i + orderAt buf i) + k)

/-- Record `i` goes on with a run and has not the checksum for it. -/
def BadAt (buf : Mem) (i : Nat) : Prop :=
  LfnAt buf i ∧ ∃ j, runStart buf i = some j ∧ buf (dentSize * i + 13) ≠ target buf j

/-- The loop comes to record `i`. -/
def Reached (buf : Mem) (i : Nat) : Prop := ∀ j < i, buf (dentSize * j) ≠ 0 ∧ ¬ BadAt buf j

/-- Parts of names have the numbers 1 to 19, and the entry for a run is in the directory. -/
def Confined (buf : Mem) (n : Nat) : Prop :=
  ∀ i < n, Reached buf i → LfnAt buf i → ¬ BadAt buf i →
    0 < orderAt buf i ∧ orderAt buf i ≤ 19 ∧ (runStart buf i = none → i + orderAt buf i < n)

variable {buf : Mem} {s : Scan} {i j k n left : Nat} {fs : Volume} {chainsize : Nat → Nat}
  {memory : Nat → Bool} {ok : Bool}

theorem Reached.succ (h : Reached buf i) (h0 : buf (dentSize * i) ≠ 0) (hbad : ¬ BadAt buf i) :
    Reached buf (i + 1) := by
  intro j hj
  rcases Nat.lt_or_eq_of_le (Nat.le_of_lt_succ hj) with hlt | rfl
  · exact h j hlt
  · exact ⟨h0, hbad⟩

/-! ## The loop goes by them -/

/-- The variables of the loop in front of record `i`. The orders of the records before it have been
cut. -/
structure Follows (buf : Mem) (i : Nat) (s : Scan) : Prop where
  buffer : ∀ x, dentSize * i ≤ x ∨ x % dentSize ≠ 0 → s.buffer x = buf x
  islfn : s.islfn = (runStart buf i).isSome
  checksum : ∀ j, runStart buf i = some j → s.checksum = target buf j

theorem Follows.start (buf namebuffer : Mem) (currentinode : Nat) :
    Follows buf 0 (.start buf namebuffer currentinode) :=
  ⟨fun _ _ => rfl, rfl, fun j hj => by cases hj⟩

theorem Follows.note (h : Follows buf i s) : Follows buf i (s.note i) := ⟨h.buffer, h.islfn, h.checksum⟩

theorem Follows.order (h : Follows buf i s) :
    (Lfn.order s.buffer (dentSize * i) &&& 0x1f).toNat = orderAt buf i := by
  rw [Lfn.order, h.buffer _ (.inl (le_refl _))]
  rfl

theorem Follows.unused (h : Follows buf i s) (he5 : buf (dentSize * i) = 0xe5) :
    Follows buf (i + 1) s := by
  have hrun : runStart buf (i + 1) = runStart buf i := by rw [runStart, if_pos he5]
  refine ⟨fun x hx => h.buffer x (hx.imp_left fun hle => ?_), by rw [hrun]; exact h.islfn, by
    rw [hrun]; exact h.checksum⟩
  exact (Nat.mul_le_mul_left _ (Nat.le_succ i)).trans hle

theorem runStart_lfn (hlfn : LfnAt buf i) : runStart buf (i + 1) = some ((runStart buf i).getD i) := by
  rw [runStart, if_neg hlfn.2.1, if_pos hlfn.2.2]

/-- The buffer once the order of record `i` has been cut. -/
theorem Follows.cut (h : Follows buf i s) {b : Byte} :
    ∀ x, dentSize * (i + 1) ≤ x ∨ x % dentSize ≠ 0 →
      Function.update s.buffer (dentSize * i) b x = buf x := by
  intro x hx
  have hne : x ≠ dentSize * i := by
    rintro rfl
    rcases hx with hx | hx
    · rw [Nat.mul_succ] at hx
      exact absurd hx (by unfold dentSize; omega)
    · exact hx (Nat.mul_mod_right _ _)
  rw [Function.update_of_ne hne]
  exact h.buffer x (hx.imp_left fun hle => (Nat.mul_le_mul_left _ (Nat.le_succ i)).trans hle)

theorem Follows.target (h : Follows buf i s) :
    lfnchecksum (Dent.name (Function.update s.buffer (dentSize * i) (BitVec.ofNat 8 (orderAt buf i)))
      (dentSize * (i + orderAt buf i))) = target buf i := by
  refine lfnchecksum_congr fun k hk => ?_
  rw [Dent.name]
  by_cases hself : orderAt buf i = 0 ∧ k = 0
  · rw [if_pos hself, hself.1, hself.2, Nat.add_zero, Nat.add_zero, Function.update_self]
    rfl
  · have hne : dentSize * (i + orderAt buf i) + k ≠ dentSize * i := by
      rw [Nat.mul_add]
      unfold dentSize
      omega
    rw [if_neg hself, Function.update_of_ne hne]
    refine h.buffer _ (.inl ?_)
    rw [Nat.mul_add, Nat.add_assoc]
    exact Nat.le_add_right _ _

/-- What a record of a long name does. -/
structure LfnTurn (buf : Mem) (i : Nat) (s s' : Scan) : Prop where
  follows : Follows buf (i + 1) s'
  reads : s'.reads = s.reads ++ if runStart buf i = none then [i + orderAt buf i] else []
  writes : s'.writes = s.writes ++ [(orderAt buf i * 13, 13)]

theorem Follows.lfn (h : Follows buf i s) (hlfn : LfnAt buf i) (hbad : ¬ BadAt buf i) :
    (s.lfn i).2 = true ∧ LfnTurn buf i s (s.lfn i).1 := by
  have hnext := runStart_lfn hlfn
  rw [Scan.lfn]
  simp only [h.order]
  cases hrun : runStart buf i with
  | none =>
    have hfirst : s.islfn = false := by rw [h.islfn, hrun]; rfl
    rw [hrun] at hnext
    rw [if_pos hfirst]
    refine ⟨rfl, ⟨h.cut, by rw [hnext]; rfl, fun j hj => ?_⟩, by rw [if_pos hrun], rfl⟩
    rw [hnext] at hj
    cases hj
    exact h.target
  | some j =>
    have hmore : ¬ s.islfn = false := by rw [h.islfn, hrun]; simp
    rw [hrun] at hnext
    have hsum : Lfn.checksum (Function.update s.buffer (dentSize * i) (BitVec.ofNat 8 (orderAt buf i)))
        (dentSize * i) = s.checksum := by
      rw [Lfn.checksum, h.cut _ (.inr (by rw [Nat.mul_add_mod]; decide)), h.checksum j hrun]
      by_contra hne
      exact hbad ⟨hlfn, j, hrun, hne⟩
    rw [if_neg hmore, if_neg (not_not.mpr hsum)]
    refine ⟨rfl, ⟨h.cut, ?_, fun j' hj' => ?_⟩, ?_, rfl⟩
    · rw [hnext]
      exact eq_true_of_ne_false hmore
    · rw [hnext] at hj'
      cases hj'
      exact h.checksum j hrun
    · rw [if_neg (by rw [hrun]; simp), List.append_nil]

theorem Follows.lfn_bad (h : Follows buf i s) (hbad : BadAt buf i) :
    (s.lfn i).2 = false ∧ (s.lfn i).1.reads = s.reads ∧ (s.lfn i).1.writes = s.writes := by
  obtain ⟨hlfn, j, hrun, hne⟩ := hbad
  have hmore : ¬ s.islfn = false := by rw [h.islfn, hrun]; simp
  have hsum : Lfn.checksum (Function.update s.buffer (dentSize * i) (BitVec.ofNat 8 (orderAt buf i)))
      (dentSize * i) ≠ s.checksum := by
    rw [Lfn.checksum, h.cut _ (.inr (by rw [Nat.mul_add_mod]; decide)), h.checksum j hrun]
    exact hne
  rw [Scan.lfn]
  simp only [h.order]
  rw [if_neg hmore, if_pos hsum]
  exact ⟨rfl, rfl, rfl⟩

/-! ### Entries -/

theorem countspacepadding_le (str : Nat → Byte) (len : Nat) : countspacepadding str len ≤ len := by
  induction len with
  | zero => exact Nat.le_refl 0
  | succ len ih =>
    rw [countspacepadding]
    split
    · exact Nat.succ_le_succ ih
    · exact Nat.zero_le _

/-- Places in the 256 bytes of `namebuffer`, which begins at 13. -/
def InNamebuffer (w : Nat × Nat) : Prop := 13 ≤ w.1 ∧ w.1 + w.2 ≤ 13 + 256

theorem shortName_spec (s : Scan) (i : Nat) : (s.shortName i).buffer = s.buffer ∧
    (s.shortName i).reads = s.reads ∧ (s.shortName i).children = s.children ∧
    ∃ w, (s.shortName i).writes = s.writes ++ w ∧ ∀ x ∈ w, InNamebuffer x := by
  have hname := countspacepadding_le (Dent.name s.buffer (dentSize * i)) 8
  have hext := countspacepadding_le (fun k => Dent.name s.buffer (dentSize * i) (8 + k)) 3
  rw [Scan.shortName]
  split_ifs
  · exact ⟨rfl, rfl, rfl, [], by simp, by simp⟩
  · refine ⟨rfl, rfl, rfl, _, rfl, ?_⟩
    simp [InNamebuffer]
    omega
  · refine ⟨rfl, rfl, rfl, _, rfl, ?_⟩
    simp [InNamebuffer]
    omega
  · refine ⟨rfl, rfl, rfl, [_] ++ [_, _], List.append_assoc _ _ _, ?_⟩
    simp [InNamebuffer]
    omega

/-- What an entry leaves. -/
structure EntryTurn (s s' : Scan) : Prop where
  buffer : s'.buffer = s.buffer
  islfn : s'.islfn = false
  reads : s'.reads = s.reads
  writes : ∃ w, s'.writes = s.writes ++ w ∧ ∀ x ∈ w, InNamebuffer x

theorem entry_turn (s : Scan) (fs : Volume) (chainsize : Nat → Nat) (ok : Bool) (i : Nat) :
    EntryTurn s (s.entry fs chainsize ok i).1 ∧
      (ok = true → (s.entry fs chainsize ok i).2 = true) := by
  obtain ⟨hbuffer, hreads, -, w, hwrites, hw⟩ := shortName_spec s i
  have hbase : (if s.islfn = false then s.shortName i else s).buffer = s.buffer ∧
      (if s.islfn = false then s.shortName i else s).reads = s.reads ∧
      ∃ w, (if s.islfn = false then s.shortName i else s).writes = s.writes ++ w ∧
        ∀ x ∈ w, InNamebuffer x := by
    split
    · exact ⟨hbuffer, hreads, w, hwrites, hw⟩
    · exact ⟨rfl, rfl, [], by simp, by simp⟩
  rw [Scan.entry]
  generalize (if s.islfn = false then s.shortName i else s) = s₂ at hbase ⊢
  obtain ⟨hb, hr, hwr⟩ := hbase
  simp only
  split_ifs with hdot hmemory
  · exact ⟨⟨hb, rfl, hr, hwr⟩, fun _ => rfl⟩
  · exact ⟨⟨hb, rfl, hr, hwr⟩, fun hok => by rw [hok] at hmemory; cases hmemory⟩
  · exact ⟨⟨hb, rfl, hr, hwr⟩, fun _ => rfl⟩

theorem Follows.entry {s' : Scan} (h : Follows buf i s) (hentry : EntryAt buf i) (ht : EntryTurn s s') :
    Follows buf (i + 1) s' := by
  have hrun : runStart buf (i + 1) = none := by rw [runStart, if_neg hentry.2.1, if_neg hentry.2.2]
  refine ⟨fun x hx => ?_, by rw [ht.islfn, hrun]; rfl, fun j hj => ?_⟩
  · rw [ht.buffer]
    exact h.buffer x (hx.imp_left fun hle => (Nat.mul_le_mul_left _ (Nat.le_succ i)).trans hle)
  · rw [hrun] at hj
    cases hj

/-! ## What is in bounds -/

/-- The records that have been read are in the directory, and only `namebuffer` has been written. -/
def InBounds (n : Nat) (s : Scan) : Prop := (∀ r ∈ s.reads, r < n) ∧ ∀ w ∈ s.writes, InNamebuffer w

theorem InBounds.append {s s' : Scan} {r : List Nat} {w : List (Nat × Nat)} (hr : s'.reads = s.reads ++ r)
    (hw : s'.writes = s.writes ++ w) :
    InBounds n s' ↔ InBounds n s ∧ (∀ x ∈ r, x < n) ∧ ∀ x ∈ w, InNamebuffer x := by
  simp only [InBounds, hr, hw, List.forall_mem_append]
  tauto

theorem InBounds.note (hi : i < n) : InBounds n (s.note i) ↔ InBounds n s := by
  rw [@InBounds.append n s (s.note i) [i] [] rfl (List.append_nil _).symm]
  simp [hi]

theorem LfnTurn.inBounds_iff {s' : Scan} (h : LfnTurn buf i s s') : InBounds n s' ↔ InBounds n s ∧
    0 < orderAt buf i ∧ orderAt buf i ≤ 19 ∧ (runStart buf i = none → i + orderAt buf i < n) := by
  rw [InBounds.append h.reads h.writes]
  have hplace : (∀ x ∈ [(orderAt buf i * 13, 13)], InNamebuffer x) ↔
      0 < orderAt buf i ∧ orderAt buf i ≤ 19 := by
    simp only [List.mem_singleton, forall_eq, InNamebuffer]
    omega
  have hrecord : (∀ x ∈ (if runStart buf i = none then [i + orderAt buf i] else []), x < n) ↔
      (runStart buf i = none → i + orderAt buf i < n) := by
    split <;> simp [*]
  rw [hplace, hrecord]
  tauto

theorem scanLoop_inBounds (hconfined : Confined buf n) (hleft : i + left = n) (h : Follows buf i s)
    (hreached : Reached buf i) (hin : InBounds n s) :
    InBounds n (scanLoop fs chainsize memory left i s).1 := by
  induction left generalizing i s with
  | zero => exact hin
  | succ left ih =>
    obtain ⟨hend, hunused, hlfn, hentry⟩ :=
      scanLoop_turn left fs chainsize memory fun x hx => h.buffer x (.inl hx)
    have hin₁ : InBounds n (s.note i) := (InBounds.note (by omega)).mpr hin
    rcases record_cases buf i with h0 | he5 | hl | he
    · rw [hend h0]
      exact hin₁
    · rw [hunused he5]
      refine ih (by omega) (h.note.unused he5) (hreached.succ (by rw [he5]; decide) ?_) hin₁
      exact fun hbad => hbad.1.2.1 he5
    · rw [hlfn hl]
      by_cases hbad : BadAt buf i
      · obtain ⟨hfalse, hr, hw⟩ := h.note.lfn_bad hbad
        rw [hfalse]
        exact (InBounds.append (hr.trans (List.append_nil _).symm)
          (hw.trans (List.append_nil _).symm)).mpr ⟨hin₁, by simp, by simp⟩
      · obtain ⟨htrue, hturn⟩ := h.note.lfn hl hbad
        rw [htrue]
        exact ih (by omega) hturn.follows (hreached.succ hl.1 hbad)
          (hturn.inBounds_iff.mpr ⟨hin₁, hconfined i (by omega) hreached hl hbad⟩)
    · rw [hentry he]
      obtain ⟨hturn, -⟩ := entry_turn (s.note i) fs chainsize (memory i) i
      obtain ⟨w, hw, hwin⟩ := hturn.writes
      have hin₂ : InBounds n ((s.note i).entry fs chainsize (memory i) i).1 :=
        (InBounds.append (hturn.reads.trans (List.append_nil _).symm) hw).mpr ⟨hin₁, by simp, hwin⟩
      split
      · exact ih (by omega) (h.note.entry he hturn)
          (hreached.succ he.1 fun hbad => he.2.2 hbad.1.2.2) hin₂
      · exact hin₂

/-- With memory for all nodes, the loop comes to every record that it can come to. -/
theorem confined_of_scanLoop (hleft : i + left = n) (h : Follows buf i s)
    (hin : InBounds n (scanLoop fs chainsize (fun _ => true) left i s).1) :
    InBounds n s ∧ ∀ k, i ≤ k → k < n → Reached buf k → LfnAt buf k → ¬ BadAt buf k →
      0 < orderAt buf k ∧ orderAt buf k ≤ 19 ∧ (runStart buf k = none → k + orderAt buf k < n) := by
  induction left generalizing i s with
  | zero => exact ⟨hin, fun k hk hkn => by omega⟩
  | succ left ih =>
    obtain ⟨hend, hunused, hlfn, hentry⟩ :=
      scanLoop_turn left fs chainsize (fun _ => true) fun x hx => h.buffer x (.inl hx)
    have hback : InBounds n (s.note i) → InBounds n s := (InBounds.note (by omega)).mp
    -- behind a record at which the loop ends, no record is reached
    have hstop : ∀ k, i < k → Reached buf k → buf (dentSize * i) ≠ 0 ∧ ¬ BadAt buf i :=
      fun k hk hr => hr i hk
    rcases record_cases buf i with h0 | he5 | hl | he
    · rw [hend h0] at hin
      refine ⟨hback hin, fun k hk hkn hr hlk hbad => ?_⟩
      rcases Nat.eq_or_lt_of_le hk with rfl | hlt
      · exact absurd h0 hlk.1
      · exact absurd h0 (hstop k hlt hr).1
    · rw [hunused he5] at hin
      obtain ⟨hin₁, hrest⟩ := ih (by omega) (h.note.unused he5) hin
      refine ⟨hback hin₁, fun k hk hkn hr hlk hbad => ?_⟩
      rcases Nat.eq_or_lt_of_le hk with rfl | hlt
      · exact absurd he5 hlk.2.1
      · exact hrest k hlt hkn hr hlk hbad
    · rw [hlfn hl] at hin
      by_cases hbad : BadAt buf i
      · obtain ⟨hfalse, hr, hw⟩ := h.note.lfn_bad hbad
        rw [hfalse] at hin
        refine ⟨hback ((InBounds.append (hr.trans (List.append_nil _).symm)
          (hw.trans (List.append_nil _).symm)).mp hin).1, fun k hk hkn hr hlk hbadk => ?_⟩
        rcases Nat.eq_or_lt_of_le hk with rfl | hlt
        · exact absurd hbad hbadk
        · exact absurd hbad (hstop k hlt hr).2
      · obtain ⟨htrue, hturn⟩ := h.note.lfn hl hbad
        rw [htrue] at hin
        obtain ⟨hin₂, hrest⟩ := ih (by omega) hturn.follows hin
        obtain ⟨hin₁, hok⟩ := hturn.inBounds_iff.mp hin₂
        refine ⟨hback hin₁, fun k hk hkn hr hlk hbadk => ?_⟩
        rcases Nat.eq_or_lt_of_le hk with rfl | hlt
        · exact hok
        · exact hrest k hlt hkn hr hlk hbadk
    · rw [hentry he] at hin
      obtain ⟨hturn, hok⟩ := entry_turn (s.note i) fs chainsize true i
      obtain ⟨w, hw, -⟩ := hturn.writes
      rw [if_pos (hok rfl)] at hin
      obtain ⟨hin₂, hrest⟩ := ih (by omega) (h.note.entry he hturn) hin
      refine ⟨hback ((InBounds.append (hturn.reads.trans (List.append_nil _).symm) hw).mp hin₂).1,
        fun k hk hkn hr hlk hbadk => ?_⟩
      rcases Nat.eq_or_lt_of_le hk with rfl | hlt
      · exact absurd hlk.2.2 he.2.2
      · exact hrest k hlt hkn hr hlk hbadk

/-- A directory of one record, whose order 0 goes in front of `namebuffer` and whose order 1 leads
behind the directory. -/
theorem populate_strays :
    ¬ InBounds 1 (populate sampleVolume (fun _ => 0) (fun _ => true)
      (fun k => if k = 0 then 0x40 else 0xf) (fun _ => 0) 3 32).1 ∧
    ¬ InBounds 1 (populate sampleVolume (fun _ => 0) (fun _ => true)
      (fun k => if k = 0 then 0x41 else 0xf) (fun _ => 0) 3 32).1 := by
  constructor
  · intro h
    have hplace := (h.2 (0, 13) (by decide)).1
    exact absurd hplace (by decide)
  · intro h
    exact absurd (h.1 1 (by decide)) (by decide)

/-- **When `fat32fs_populate` stays in its buffers**, whether or not there is memory for the nodes. -/
theorem populate_inBounds_iff (fs : Volume) (chainsize : Nat → Nat) (buffer namebuffer : Mem)
    (currentinode size : Nat) :
    (∀ memory, InBounds (size / dentSize)
      (populate fs chainsize memory buffer namebuffer currentinode size).1) ↔
      Confined buffer (size / dentSize) := by
  have hstart : InBounds (size / dentSize) (.start buffer namebuffer currentinode) :=
    ⟨by simp [Scan.start], by simp [Scan.start]⟩
  constructor
  · intro h
    obtain ⟨-, hall⟩ := confined_of_scanLoop (Nat.zero_add _) (.start buffer namebuffer currentinode)
      (h fun _ => true)
    exact fun i hi => hall i (Nat.zero_le i) hi
  · intro hconfined memory
    exact scanLoop_inBounds hconfined (Nat.zero_add _) (.start buffer namebuffer currentinode)
      (fun j hj => absurd hj (Nat.not_lt_zero j)) hstart

end Lyre.Fat32
