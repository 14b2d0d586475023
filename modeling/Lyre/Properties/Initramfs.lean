import Lyre.Fs.Initramfs

/-!
# Unpacking the initramfs

`Stored` says what an archive looks like in memory: octal numbers, strings and data at the places that
the format has for them, a name of more than 99 bytes in a record of its own. `unpackLoop_stored` is
that the loop does with it what it should, although it writes the NUL behind a long name into the
archive. `unpackLoop_freed` is about whatever may be in memory instead.
-/

namespace Lyre.Initramfs

open Infra.Bytes

variable {σ : Type} {call : σ → Entry → Option σ} {m m' : Mem} {a len n fuel : Nat} {x : Entry} {v : σ}

/-! ## The format -/

/-- The digits of an octal number in a field, which ends with a NUL or is full. -/
def Digits (m : Mem) : Nat → Nat → List Nat → Prop
  | _, 0, ds => ds = []
  | a, _ + 1, [] => m a = 0
  | a, len + 1, d :: ds => d < 8 ∧ m a = BitVec.ofNat 8 (0x30 + d) ∧ Digits m (a + 1) len ds

/-- The number. -/
def octal (ds : List Nat) : BitVec 64 := ds.foldl (fun v d => v * 8 + BitVec.ofNat 64 d) 0

def Octal (m : Mem) (a len : Nat) (v : BitVec 64) : Prop := ∃ ds, Digits m a len ds ∧ octal ds = v

def StringAt (m : Mem) : Nat → List (BitVec 8) → Prop
  | a, [] => m a = 0
  | a, c :: s => c ≠ 0 ∧ m a = c ∧ StringAt m (a + 1) s

/-- A header, less the name and what is stored for the type. -/
structure Header (m : Mem) (a : Nat) (type : BitVec 8) (size : Nat) : Prop where
  magic : Ustar m a
  type : m (a + 156) = type
  sized : Octal m (a + 124) 12 (BitVec.ofNat 64 size)
  bound : size < 2 ^ 62

def Body.type : Body → BitVec 8
  | .file .. => 0x30
  | .link _ => 0x32
  | .dir _ => 0x35

/-- The bytes behind the header. -/
def Body.size : Body → Nat
  | .file _ data => data.length
  | _ => 0

def Body.At (m : Mem) (a : Nat) : Body → Prop
  | .file mode data => Octal m (a + 100) 8 mode ∧ Holds m (a + 512) data
  | .link target => StringAt m (a + 157) target ∧ target.length < 2 ^ 64
  | .dir mode => Octal m (a + 100) 8 mode

/-- A record, less its name. -/
structure Entry.At (m : Mem) (a : Nat) (x : Entry) : Prop extends Header m a x.body.type x.body.size where
  mtime : Octal m (a + 136) 12 x.mtime
  body : x.body.At m a

/-- The name of a record is in its header, or it is what another record in front of it has; that
record ends the name with a NUL if it is as long as it says. -/
def Stored (m : Mem) : Nat → List Entry → Prop
  | a, [] => ¬ Ustar m a
  | a, x :: xs => x.name ≠ [0x2e, 0x2f] ∧ x.name.length < 2 ^ 64 ∧
    ((x.At m a ∧ StringAt m a x.name ∧ Stored m (a + recordSize x.body.size) xs) ∨
      ∃ n, Header m a 0x4c n ∧ ¬ Here m a ∧
        StringAt (Function.update m (a + 512 + n) 0) (a + 512) x.name ∧
        x.At m (a + recordSize n) ∧ Stored m (a + recordSize n + recordSize x.body.size) xs)

/-! ## Only what comes later is read -/

theorem Digits.congr : ∀ {len a : Nat} {ds : List Nat}, (∀ y, a ≤ y → m' y = m y) →
    Digits m a len ds → Digits m' a len ds
  | 0, _, _, _, h => h
  | _ + 1, a, [], hm, h => (hm a (Nat.le_refl a)).trans h
  | _ + 1, a, _ :: _, hm, h =>
    ⟨h.1, (hm a (Nat.le_refl a)).trans h.2.1, h.2.2.congr fun y hy => hm y (by omega)⟩

theorem Octal.congr {w : BitVec 64} (h : Octal m a len w) (hm : ∀ y, a ≤ y → m' y = m y) :
    Octal m' a len w := by
  obtain ⟨ds, hds, rfl⟩ := h
  exact ⟨ds, hds.congr hm, rfl⟩

theorem StringAt.congr : ∀ {s : List (BitVec 8)} {a : Nat}, (∀ y, a ≤ y → m' y = m y) →
    StringAt m a s → StringAt m' a s
  | [], a, hm, h => (hm a (Nat.le_refl a)).trans h
  | _ :: _, a, hm, h =>
    ⟨h.1, (hm a (Nat.le_refl a)).trans h.2.1, h.2.2.congr fun y hy => hm y (by omega)⟩

theorem ustar_congr (hm : ∀ y, a < y → m' y = m y) : Ustar m' a ↔ Ustar m a :=
  forall₂_congr fun k _ => by rw [hm (a + 257 + k) (by omega)]

/-- The first byte of the header belongs to the name. -/
theorem Entry.At.congr (h : x.At m a) (hm : ∀ y, a < y → m' y = m y) : x.At m' a where
  magic := (ustar_congr hm).mpr h.magic
  type := (hm _ (by omega)).trans h.type
  sized := h.sized.congr fun y hy => hm y (by omega)
  bound := h.bound
  mtime := h.mtime.congr fun y hy => hm y (by omega)
  body := by
    have hbody := h.body
    cases hx : x.body with
    | file mode data =>
      rw [hx] at hbody
      refine ⟨hbody.1.congr fun y hy => hm y (by omega), fun k hk => ?_⟩
      rw [hm _ (by omega), hbody.2 k hk]
    | link target =>
      rw [hx] at hbody
      exact ⟨hbody.1.congr fun y hy => hm y (by omega), hbody.2⟩
    | dir mode =>
      rw [hx] at hbody
      exact Octal.congr hbody fun y hy => hm y (by omega)

theorem recordSize_pos (size : Nat) : 0 < recordSize size := Nat.add_pos_left (by decide) _

theorem le_recordSize (h : n < 2 ^ 62) : 512 + n ≤ recordSize n := by
  unfold recordSize alignUp divRoundup u64
  omega

theorem Stored.congr : ∀ {xs : List Entry} {a : Nat}, (∀ y, a ≤ y → m' y = m y) →
    Stored m a xs → Stored m' a xs
  | [], a, hm, h => fun hu => h ((ustar_congr fun y hy => hm y (Nat.le_of_lt hy)).mp hu)
  | x :: xs, a, hm, ⟨hname, hlen, h⟩ => by
    refine ⟨hname, hlen, h.imp ?_ ?_⟩
    · rintro ⟨hx, hs, hrest⟩
      exact ⟨hx.congr fun y hy => hm y (by omega), hs.congr hm, hrest.congr fun y hy => hm y (by omega)⟩
    · rintro ⟨n, hh, hhere, hs, hx, hrest⟩
      have hpos := recordSize_pos n
      refine ⟨n, ⟨(ustar_congr fun y hy => hm y (by omega)).mpr hh.magic, (hm _ (by omega)).trans hh.type,
        hh.sized.congr fun y hy => hm y (by omega), hh.bound⟩, ?_, hs.congr fun y hy => ?_,
        hx.congr fun y hy => hm y (by omega), hrest.congr fun y hy => hm y (by omega)⟩
      · unfold Here
        rwa [hm a (by omega), hm (a + 1) (by omega), hm (a + 2) (by omega)]
      · rw [Function.update_apply, Function.update_apply, hm y (by omega)]

/-! ## What is read -/

theorem digit_read : ∀ d < 8, BitVec.ofNat 8 (0x30 + d) ≠ 0 ∧
    (BitVec.ofNat 8 (0x30 + d)).signExtend 64 - 0x30 = BitVec.ofNat 64 d := by decide

theorem oct2int_digits : ∀ {len a : Nat} {ds : List Nat} (w : BitVec 64), Digits m a len ds →
    oct2int m a len w = ds.foldl (fun v d => v * 8 + BitVec.ofNat 64 d) w
  | 0, _, _, _, h => by
    obtain rfl := h
    rfl
  | _ + 1, _, [], _, h => if_pos h
  | _ + 1, _, d :: _, w, ⟨hd, hm, h⟩ => by
    obtain ⟨hne, hdigit⟩ := digit_read d hd
    rw [oct2int, hm, if_neg hne, hdigit, oct2int_digits _ h, List.foldl_cons]

theorem Octal.read {w : BitVec 64} (h : Octal m a len w) : oct2int m a len 0 = w := by
  obtain ⟨ds, hds, rfl⟩ := h
  exact oct2int_digits 0 hds

theorem StringAt.loop : ∀ {s : List (BitVec 8)} {a left : Nat}, StringAt m a s → s.length < left →
    stringLoop m left a = s
  | [], _, left + 1, h, _ => if_pos h
  | c :: s, _, left + 1, ⟨hc, hm, h⟩, hlt => by
    rw [stringLoop, hm, if_neg hc, h.loop (Nat.lt_of_succ_lt_succ hlt)]

/-- A record with a name is unpacked. -/
theorem turn_entry {s : State σ} (hx : x.At s.mem s.currentFile)
    (hname : StringAt s.mem (s.nameOverride.getD s.currentFile) x.name)
    (hlen : x.name.length < 2 ^ 64) :
    turn call s = (call s.vfs x).map (s.next x.body.size s.mem none) := by
  have hsize : (oct2int s.mem (s.currentFile + 124) 12 0).toNat = x.body.size := by
    rw [hx.sized.read, BitVec.toNat_ofNat, Nat.mod_eq_of_lt (Nat.lt_trans hx.bound (by decide))]
  have hread : string s.mem (s.nameOverride.getD s.currentFile) = x.name := hname.loop hlen
  have hbody := hx.body
  have htype := hx.type
  obtain ⟨name, mtime, body⟩ := x
  unfold turn
  dsimp only at hread hsize hbody htype ⊢
  rw [hread, hx.mtime.read, htype, hsize]
  cases body with
  | file mode data =>
    rw [show Body.type (.file mode data) = 0x30 from rfl, if_pos rfl, hbody.1.read,
      show Body.size (.file mode data) = data.length from rfl, hbody.2.map_range]
  | link target =>
    have htarget : string s.mem (s.currentFile + 157) = target := hbody.1.loop hbody.2
    rw [show Body.type (.link target) = 0x32 from rfl, if_neg (by decide), if_pos rfl, htarget]
  | dir mode =>
    rw [show Body.type (.dir mode) = 0x35 from rfl, if_neg (by decide), if_neg (by decide), if_pos rfl,
      Octal.read hbody]

/-- A record that has the name of the next one. -/
theorem turn_long {s : State σ} (h : Header s.mem s.currentFile 0x4c n) :
    turn call s = some (s.next n (Function.update s.mem (s.currentFile + 512 + n) 0)
      (some (s.currentFile + 512)) s.vfs) := by
  have hsize : (oct2int s.mem (s.currentFile + 124) 12 0).toNat = n := by
    rw [h.sized.read, BitVec.toNat_ofNat, Nat.mod_eq_of_lt (Nat.lt_trans h.bound (by decide))]
  unfold turn
  dsimp only
  rw [h.type, hsize, if_neg (by decide), if_neg (by decide), if_neg (by decide), if_pos rfl]

theorem StringAt.not_here {s : List (BitVec 8)} (h : StringAt m a s) (hne : s ≠ [0x2e, 0x2f]) :
    ¬ Here m a := by
  rintro ⟨h0, h1, h2⟩
  match s, h with
  | [], h => exact absurd (h.symm.trans h0) (by decide)
  | [c], h => exact absurd (h.2.2.symm.trans h1) (by decide)
  | [c, d], h => exact hne (by rw [← h.2.1, h0, ← h.2.2.2.1, h1])
  | c :: d :: e :: s, h => exact h.2.2.2.2.1 (h.2.2.2.2.2.1.symm.trans h2)

theorem unpackLoop_turn {s : State σ} (hu : Ustar s.mem s.currentFile)
    (hh : ¬ Here s.mem (s.nameOverride.getD s.currentFile)) :
    unpackLoop call (fuel + 1) s = (turn call s).bind (unpackLoop call fuel) := by
  rw [unpackLoop, if_pos hu, if_neg hh]

/-- **An archive is unpacked.** The loop ends, and has done to the VFS what the entries say, one after
the other, with long names and short ones. -/
theorem unpackLoop_stored : ∀ {xs : List Entry} {s : State σ} {fuel : Nat},
    Stored s.mem s.currentFile xs → s.nameOverride = none → 2 * xs.length < fuel →
    (unpackLoop call fuel s).map State.vfs = xs.foldlM call s.vfs
  | [], s, fuel + 1, h, _, _ => by
    rw [unpackLoop, if_neg h]
    rfl
  | x :: xs, s, fuel + 2, ⟨hname, hlen, h⟩, hnone, hfuel => by
    rw [List.length_cons] at hfuel
    rw [List.foldlM_cons]
    rcases h with ⟨hx, hs, hrest⟩ | ⟨n, hh, hhere, hs, hx, hrest⟩
    · have hat : s.nameOverride.getD s.currentFile = s.currentFile := by rw [hnone]; rfl
      rw [unpackLoop_turn hx.magic (by rw [hat]; exact hs.not_here hname),
        turn_entry hx (by rw [hat]; exact hs) hlen]
      cases hcall : call s.vfs x with
      | none => rfl
      | some v => exact unpackLoop_stored (s := s.next x.body.size s.mem none v) hrest rfl (by omega)
    · have hpos := recordSize_pos n
      have hle := le_recordSize hh.bound
      -- the NUL is put in front of the record, or in the first byte of its name
      have hframe : ∀ y, s.currentFile + recordSize n < y →
          Function.update s.mem (s.currentFile + 512 + n) 0 y = s.mem y := fun y hy =>
        Function.update_of_ne (by omega) _ _
      have hsize := recordSize_pos x.body.size
      rw [unpackLoop_turn hh.magic (by rw [hnone]; exact hhere), turn_long hh, Option.bind_some,
        unpackLoop_turn ((ustar_congr hframe).mpr hx.magic) (hs.not_here hname),
        turn_entry (hx.congr hframe) hs hlen]
      dsimp only [State.next]
      cases hcall : call s.vfs x with
      | none => rfl
      | some v =>
        have hrest' : Stored (Function.update s.mem (s.currentFile + 512 + n) 0)
            (s.currentFile + recordSize n + recordSize x.body.size) xs :=
          hrest.congr fun y hy => hframe y (by omega)
        rw [Option.map_some, Option.bind_some]
        exact unpackLoop_stored hrest' rfl (by omega)

/-- An archive with the directory `a`. -/
def sample (k : Nat) : BitVec 8 :=
  ([(0, 0x61), (100, 0x37), (101, 0x35), (102, 0x35), (156, 0x35), (257, 0x75), (258, 0x73),
    (259, 0x74), (260, 0x61), (261, 0x72)].lookup k).getD 0

theorem unpackLoop_stored_sample :
    (unpackLoop (fun v x => some (v ++ [x.name])) 3 ⟨sample, 0, none, [], []⟩).map State.vfs =
      [⟨[0x61], 0, .dir 0o755⟩].foldlM (fun v (x : Entry) => some (v ++ [x.name])) [] := by
  have hx : Entry.At sample 0 ⟨[0x61], 0, .dir 0o755⟩ :=
    { magic := by decide
      type := by decide
      sized := ⟨[], (by decide : sample 124 = 0), rfl⟩
      bound := by decide
      mtime := ⟨[], (by decide : sample 136 = 0), rfl⟩
      body := ⟨[7, 5, 5], ⟨by decide, by decide, by decide, by decide, by decide, by decide,
        (by decide : sample 103 = 0)⟩, by decide⟩ }
  refine unpackLoop_stored ⟨by decide, by decide, .inl ⟨hx, ⟨by decide, by decide,
    (by decide : sample 1 = 0)⟩, ?_⟩⟩ rfl (by decide)
  change ¬ Ustar sample 512
  decide

/-! ## The pages that are given back -/

/-- Page ranges one behind the other, in front of the page of the next record. -/
structure FreedInFront (s : State σ) : Prop where
  once : s.freed.Pairwise fun p q => p.1 / pageSize + p.2 ≤ q.1 / pageSize
  front : ∀ p ∈ s.freed, p.1 / pageSize + p.2 ≤ s.currentFile / pageSize

theorem FreedInFront.next {s : State σ} (h : FreedInFront s) (size : Nat) (o : Option Nat) :
    FreedInFront (s.next size m o v) where
  once := List.pairwise_append.mpr ⟨h.once, List.pairwise_singleton _ _, fun p hp q hq => by
    obtain rfl := List.mem_singleton.mp hq
    exact h.front p hp⟩
  front p hp := by
    change p.1 / pageSize + p.2 ≤ (s.currentFile + recordSize size) / pageSize
    rcases List.mem_append.mp hp with hp | hp
    · exact Nat.le_trans (h.front p hp) (Nat.div_le_div_right (Nat.le_add_right _ _))
    · obtain rfl := List.mem_singleton.mp hp
      unfold pageSize
      omega

theorem turn_next {s s' : State σ} (h : turn call s = some s') :
    ∃ size mem o v, s' = s.next size mem o v := by
  unfold turn at h
  dsimp only at h
  split at h
  · obtain ⟨v, -, rfl⟩ := Option.map_eq_some_iff.mp h
    exact ⟨_, _, _, v, rfl⟩
  split at h
  · obtain ⟨v, -, rfl⟩ := Option.map_eq_some_iff.mp h
    exact ⟨_, _, _, v, rfl⟩
  split at h
  · obtain ⟨v, -, rfl⟩ := Option.map_eq_some_iff.mp h
    exact ⟨_, _, _, v, rfl⟩
  split at h
  · exact ⟨_, _, _, _, (Option.some.inj h).symm⟩
  · exact ⟨_, _, _, _, (Option.some.inj h).symm⟩

/-- **Whatever is in memory**, no page is given back twice, and none that is behind the record at
which the loop ends (the record is below `2 ^ 64` if no address has wrapped). -/
theorem unpackLoop_freed : ∀ {fuel : Nat} {s s' : State σ}, FreedInFront s →
    unpackLoop call fuel s = some s' → FreedInFront s'
  | fuel + 1, s, s', h, hrun => by
    rw [unpackLoop] at hrun
    split at hrun
    · split at hrun
      · exact unpackLoop_freed (s := { s with nameOverride := none }) ⟨h.once, h.front⟩ hrun
      · obtain ⟨s₁, hturn, hrun⟩ := Option.bind_eq_some_iff.mp hrun
        obtain ⟨size, mem, o, v, rfl⟩ := turn_next hturn
        exact unpackLoop_freed (h.next size o) hrun
    · obtain rfl := Option.some.inj hrun
      exact h

theorem unpackLoop_freed_sample :
    ∃ s', unpackLoop (fun _ _ => some ()) 3 ⟨sample, 0, none, (), []⟩ = some s' ∧ FreedInFront s' := by
  obtain ⟨s', hs'⟩ := Option.isSome_iff_exists.mp
    (by decide +kernel : (unpackLoop (fun _ _ => some ()) 3 ⟨sample, 0, none, (), []⟩).isSome = true)
  exact ⟨s', hs', unpackLoop_freed ⟨.nil, fun _ hp => absurd hp List.not_mem_nil⟩ hs'⟩

end Lyre.Initramfs
