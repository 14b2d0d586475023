import Lyre.Infra.Blockwise
import Lyre.Properties.FatChains

/-!
# What `fat32fs_rwbytes` transfers

`rwbytes_transfers_iff` says for which ranges of a chain each byte goes to or from its place. The
first cluster is transferred up to its end only if the count is larger than a cluster; a smaller
count is taken as it is, over the end of the cluster if the range begins inside of it (`overrun`).
And whole clusters are asserted to be below `clustercount`, which the last two are not.
-/

namespace Lyre.Fat32

open Infra Infra.Bytes Fat32fs

variable {fs : Volume} {s s' s₀ : Transfer} {l : List Nat} {write : Bool}
  {start e c j n o offset count : Nat}

/-- What the mount of a FAT32 volume guarantees: the clusters lie behind the first FAT, and their
numbers are no ends of chains. -/
structure Volume.Sound (fs : Volume) : Prop where
  clustersize : 0 < fs.clustersize
  before : fs.fatoffset + (fs.clustercount + 2) * 4 ≤ fs.dataoffset
  entries : fs.clustercount + 2 ≤ finalCluster

theorem Volume.Sound.not_final (hfs : fs.Sound) (hc : c < fs.clustercount + 2) :
    ¬ IsFinalCluster c := by
  have := hfs.entries
  unfold IsFinalCluster
  omega

/-- The place of byte `p` of the chain. -/
def Volume.byteplace (fs : Volume) (l : List Nat) (p : Nat) : Nat :=
  place fs.clustersize (fun i => fs.clusterdiskoffset (l.getD i 0)) p

/-- From `s₀` to `s`, the first `n` bytes of the range have been transferred and nothing else has
changed. -/
def Volume.Transfers (fs : Volume) (l : List Nat) (offset n : Nat) (write : Bool) (s₀ s : Transfer) :
    Prop :=
  if write then
    Scattered s₀.device s.device s₀.buffer (fun k => fs.byteplace l (offset + k)) n ∧
      s.buffer = s₀.buffer
  else
    Gathered s₀.device s₀.buffer s.buffer (fun k => fs.byteplace l (offset + k)) n ∧
      s.device = s₀.device

/-! ## Places -/

theorem Volume.dataoffset_le_byteplace (fs : Volume) (l : List Nat) (p : Nat) :
    fs.dataoffset ≤ fs.byteplace l p := by
  simp only [Volume.byteplace, place, Volume.clusterdiskoffset]
  omega

theorem Volume.clusterdiskoffset_apart {d : Nat} (fs : Volume) (hc : 2 ≤ c) (hd : 2 ≤ d)
    (hne : c ≠ d) : Apart (fs.clusterdiskoffset c) fs.clustersize (fs.clusterdiskoffset d)
      fs.clustersize := by
  have key : ∀ {c d : Nat}, 2 ≤ c → c < d →
      fs.clusterdiskoffset c + fs.clustersize ≤ fs.clusterdiskoffset d := by
    intro c d hc hlt
    have hmul : fs.clustersize * (c - 2 + 1) ≤ fs.clustersize * (d - 2) :=
      Nat.mul_le_mul_left _ (by omega)
    rw [Nat.mul_succ] at hmul
    unfold Volume.clusterdiskoffset
    omega
  rcases Nat.lt_or_gt_of_ne hne with hlt | hgt
  · exact Or.inl (key hc hlt)
  · exact Or.inr (key hd hgt)

theorem getD_mem (hj : j < l.length) (d : Nat) : l.getD j d ∈ l := by
  rw [List.getD_eq_getElem l d hj]
  exact List.getElem_mem hj

theorem getD_congr (hj : j < l.length) (d d' : Nat) : l.getD j d = l.getD j d' := by
  rw [List.getD_eq_getElem l d hj, List.getD_eq_getElem l d' hj]

theorem getD_inj {i : Nat} (hnd : l.Nodup) (hi : i < l.length) (hj : j < l.length)
    (h : l.getD i 0 = l.getD j 0) : i = j := by
  rw [List.getD_eq_getElem l 0 hi, List.getD_eq_getElem l 0 hj] at h
  exact (hnd.getElem_inj_iff).mp h

theorem byteplace_inj {p q : Nat} (hfs : fs.Sound) (hnd : l.Nodup) (hin : ∀ c ∈ l, 2 ≤ c)
    (hp : p < l.length * fs.clustersize) (hq : q < l.length * fs.clustersize)
    (h : fs.byteplace l p = fs.byteplace l q) : p = q := by
  have hp' : p / fs.clustersize < l.length := Nat.div_lt_of_lt_mul (by rwa [Nat.mul_comm])
  have hq' : q / fs.clustersize < l.length := Nat.div_lt_of_lt_mul (by rwa [Nat.mul_comm])
  refine place_inj hfs.clustersize (fun hne => ?_) h
  refine fs.clusterdiskoffset_apart (hin _ (getD_mem hp' 0)) (hin _ (getD_mem hq' 0)) ?_
  exact fun heq => hne (getD_inj hnd hp' hq' heq)

/-- The bytes of a cluster from its `o`-th one on. -/
theorem byteplace_add {k : Nat} (hk : o + k < fs.clustersize) :
    fs.byteplace l (fs.clustersize * j + o + k) = fs.clusterdiskoffset (l.getD j 0) + o + k := by
  have hmod : (fs.clustersize * j + (o + k)) % fs.clustersize = o + k := by
    rw [Nat.mul_add_mod, Nat.mod_eq_of_lt hk]
  have hdiv : (fs.clustersize * j + (o + k)) / fs.clustersize = j := by
    rw [Nat.mul_add_div (by omega), Nat.div_eq_of_lt hk, Nat.add_zero]
  rw [Nat.add_assoc (fs.clustersize * j), Volume.byteplace, place, hmod, hdiv, Nat.add_assoc]

theorem clusterdiskoffset_succ (hc : 2 ≤ c) :
    fs.clusterdiskoffset (c + 1) = fs.clusterdiskoffset c + fs.clustersize := by
  unfold Volume.clusterdiskoffset
  rw [show c + 1 - 2 = c - 2 + 1 by omega, Nat.mul_succ, Nat.add_assoc]

theorem chains_fat {device : Mem} {x : Nat} (hfs : fs.Sound)
    (hs : SameOff s.device device x count) (hx : fs.dataoffset ≤ x) (hc : c < fs.clustercount + 2) :
    (fs.chains device).fat 0 c = (fs.chains s.device).fat 0 c := by
  refine read_sameOff hs (Or.inr ?_)
  have := hfs.before
  omega

theorem rwcluster_fat {buffer d : Nat} (hfs : fs.Sound) (hc : c < fs.clustercount + 2) :
    (fs.chains (fs.rwcluster s buffer d o count write).device).fat 0 c =
      (fs.chains s.device).fat 0 c := by
  cases write with
  | true =>
    have hbehind : fs.dataoffset ≤ fs.clusterdiskoffset d + o := by
      unfold Volume.clusterdiskoffset
      omega
    have hs : SameOff s.device (fs.rwcluster s buffer d o count true).device
        (fs.clusterdiskoffset d + o) count := put_sameOff _ _ _ fun k => s.buffer (buffer + k)
    exact chains_fat hfs hs hbehind hc
  | false => rfl

/-! ## Pieces -/

namespace Volume.Transfers

theorem zero : fs.Transfers l offset 0 write s s := by
  cases write with
  | true => exact ⟨Scattered.zero, rfl⟩
  | false => exact ⟨Gathered.zero, rfl⟩

theorem step (h : fs.Transfers l offset n write s₀ s) (c o count : Nat)
    (hc : ∀ k < count, fs.byteplace l (offset + (n + k)) = fs.clusterdiskoffset c + o + k)
    (hinj : ∀ k < n, ∀ d < count,
      fs.byteplace l (offset + k) ≠ fs.byteplace l (offset + (n + d))) :
    fs.Transfers l offset (n + count) write s₀ (fs.rwcluster s n c o count write) := by
  cases write with
  | true =>
    obtain ⟨hs, hbuffer⟩ := h
    refine ⟨?_, hbuffer⟩
    rw [Volume.rwcluster, if_pos rfl, hbuffer]
    exact hs.step hc hinj
  | false =>
    obtain ⟨hg, hdevice⟩ := h
    refine ⟨?_, hdevice⟩
    simp only [Volume.rwcluster, Bool.false_eq_true, if_false, hdevice]
    exact hg.step hc

theorem first (hc : ∀ k < count, fs.byteplace l (offset + k) = fs.clusterdiskoffset c + o + k) :
    fs.Transfers l offset count write s₀ (fs.rwcluster s₀ 0 c o count write) := by
  have hstep := (zero : fs.Transfers l offset 0 write s₀ s₀).step c o count
    (fun k hk => by rw [Nat.zero_add, hc k hk]) fun k hk => absurd hk (Nat.not_lt_zero k)
  rwa [Nat.zero_add] at hstep

theorem fat (hfs : fs.Sound) (h : fs.Transfers l offset n write s₀ s) (hc : c < fs.clustercount + 2) :
    (fs.chains s.device).fat 0 c = (fs.chains s₀.device).fat 0 c := by
  refine read_congr fun x _ hx => ?_
  have hx' : x < fs.dataoffset := by
    have := hfs.before
    omega
  cases write with
  | true =>
    refine h.1.others x fun k _ heq => ?_
    have := fs.dataoffset_le_byteplace l (offset + k)
    omega
  | false => rw [h.2]

end Volume.Transfers

theorem rwfirst_aligned (ho : offset % fs.clustersize = 0) :
    fs.rwfirst s c offset count write = some (s, c, 0, count) := by
  rw [Volume.rwfirst, ho]
  rfl

theorem rwrest_zero {buffer : Nat} : fs.rwrest s c buffer 0 write = some s := by
  simp [Volume.rwrest]

/-! ## The walk -/

/-- A device with the chain on it, and how far a transfer on it is: at the `j`-th cluster, or at the
end behind the last one. -/
structure Walk (fs : Volume) (start : Nat) (l : List Nat) (e : Nat) (s₀ : Transfer) : Prop where
  sound : fs.Sound
  final : IsFinalCluster e
  path : Path ((fs.chains s₀.device).fat 0) start l e
  inside : ∀ c ∈ l, 2 ≤ c ∧ c < fs.clustercount + 2

theorem exists_walk (hfs : fs.Sound) (hne : l ≠ []) (h : Chain (fs.chains s.device) start l) :
    ∃ e, Walk fs start l e s := by
  cases h with
  | none => exact absurd rfl hne
  | some _ he hp hin => exact ⟨_, hfs, he, hp, hin⟩

namespace Walk

theorem nodup (h : Walk fs start l e s₀) : l.Nodup :=
  h.path.nodup h.final fun c hc => h.sound.not_final (h.inside c hc).2

theorem distinct (h : Walk fs start l e s₀) (hlen : offset + (n + count) ≤ l.length * fs.clustersize) :
    ∀ k < n, ∀ d < count, fs.byteplace l (offset + k) ≠ fs.byteplace l (offset + (n + d)) := by
  intro k hk d hd heq
  have := byteplace_inj h.sound h.nodup (fun c hc => (h.inside c hc).1) (by omega) (by omega) heq
  omega

theorem next (h : Walk fs start l e s₀)
    (hfat : ∀ c < fs.clustercount + 2, (fs.chains s.device).fat 0 c = (fs.chains s₀.device).fat 0 c)
    (hj : j < l.length) : (fs.chains s.device).next (l.getD j e) = some (l.getD (j + 1) e) := by
  have hin := (h.inside _ (getD_mem hj e)).2
  rw [next_eq hin, hfat _ hin, h.path.next_getD hj]

theorem skip (h : Walk fs start l e s₀) (hj : j < l.length) :
    (fs.chains s₀.device).skip start j = some (l.getD j e, false) := by
  obtain ⟨d, hleft, hright⟩ := path_append.mp (show Path _ start (l.take j ++ l.drop j) e by
    rw [List.take_append_drop]
    exact h.path)
  have hd : d = l.getD j e := by
    rw [hright.start_getD, List.getD_eq_getElem _ e (by rw [List.length_drop]; omega),
      List.getD_eq_getElem _ e hj, List.getElem_drop]
    rfl
  have hin : ∀ x ∈ l.take j ++ [d], x < (fs.chains s₀.device).entries := by
    intro x hx
    rcases List.mem_append.mp hx with hx | hx
    · exact (h.inside x (List.mem_of_mem_take hx)).2
    · rw [List.mem_singleton.mp hx, hd]
      exact (h.inside _ (getD_mem hj e)).2
  have hskip := @skip_path _ _ _ 0 _ h.sound.entries hleft hin
  rw [List.length_take, Nat.min_eq_left (by omega), Nat.add_zero] at hskip
  rw [hskip, hd]
  rfl

theorem skip_all (h : Walk fs start l e s₀) (hne : l ≠ []) (hj : l.length ≤ j) :
    ∃ d, (fs.chains s₀.device).skip start j = some (d, true) := by
  obtain ⟨l₀, d, rfl⟩ : ∃ l₀ d, l = l₀ ++ [d] := ⟨_, _, (List.dropLast_concat_getLast hne).symm⟩
  refine ⟨d, skip_end h.sound.entries h.path h.final (fun x hx => (h.inside x hx).2) ?_⟩
  rw [List.length_append, List.length_singleton] at hj
  omega

/-! ### Whole clusters -/

theorem turn {buffer i : Nat} (h : Walk fs start l e s₀) (left : Nat)
    (ht : fs.Transfers l offset n write s₀ s)
    (hbuffer : n = buffer + fs.clustersize * i) (hpos : offset + n = fs.clustersize * j)
    (hj : j < l.length) :
    (fs.clustercount ≤ l.getD j 0 →
      fs.rwclustersLoop buffer write (left + 1) i s (l.getD j e) = none) ∧
    (l.getD j 0 < fs.clustercount → ∃ s',
      fs.rwclustersLoop buffer write (left + 1) i s (l.getD j e) =
        fs.rwclustersLoop buffer write left (i + 1) s' (l.getD (j + 1) e) ∧
      fs.Transfers l offset (n + fs.clustersize) write s₀ s') := by
  have hin := h.inside _ (getD_mem hj e)
  have hzero : l.getD j e ≠ 0 := by omega
  have hend : ¬ IsFinalCluster (l.getD j e) := h.sound.not_final hin.2
  have heq : l.getD j 0 = l.getD j e := getD_congr hj 0 e
  rw [Volume.rwclustersLoop, if_neg hzero, if_neg hend, heq]
  constructor
  · intro hcount
    rw [if_pos hcount]
  · intro hcount
    rw [if_neg (by omega)]
    have hstep : fs.Transfers l offset (n + fs.clustersize) write s₀
        (fs.rwcluster s n (l.getD j e) 0 fs.clustersize write) := by
      refine ht.step _ _ _ (fun k hk => ?_) (h.distinct ?_)
      · have hplace : fs.byteplace l (fs.clustersize * j + 0 + k) = _ := byteplace_add (by omega)
        rw [← heq, ← hplace, ← hpos]
        congr 1
        omega
      · have : fs.clustersize * (j + 1) ≤ fs.clustersize * l.length := Nat.mul_le_mul_left _ hj
        rw [Nat.mul_succ, Nat.mul_comm _ l.length] at this
        omega
    refine ⟨_, ?_, hstep⟩
    simp only [← hbuffer, h.next (fun c hc => hstep.fat h.sound hc) hj, Option.bind_eq_bind,
      Option.bind_some]

/-- The loop over whole clusters. It ends if all of them are below `clustercount`, and otherwise it
fails an assertion. -/
theorem loop {buffer i : Nat} (h : Walk fs start l e s₀) (left : Nat)
    (ht : fs.Transfers l offset n write s₀ s) (hbuffer : n = buffer + fs.clustersize * i)
    (hpos : offset + n = fs.clustersize * j) (hj : j + left ≤ l.length) :
    ((∀ t, j ≤ t → t < j + left → l.getD t 0 < fs.clustercount) → ∃ s',
      fs.rwclustersLoop buffer write left i s (l.getD j e) = some (s', l.getD (j + left) e, i + left) ∧
      fs.Transfers l offset (n + fs.clustersize * left) write s₀ s') ∧
    (∀ t, j ≤ t → t < j + left → fs.clustercount ≤ l.getD t 0 →
      fs.rwclustersLoop buffer write left i s (l.getD j e) = none) := by
  induction left generalizing n i j s with
  | zero => exact ⟨fun _ => ⟨s, rfl, ht⟩, fun t hle hlt => absurd hlt (by omega)⟩
  | succ left ih =>
    obtain ⟨hbad, hgood⟩ := h.turn left ht hbuffer hpos (by omega)
    have hnext : ∀ s', fs.Transfers l offset (n + fs.clustersize) write s₀ s' → _ := fun s' ht' =>
      ih (i := i + 1) (j := j + 1) ht' (by rw [hbuffer, Nat.mul_succ]; omega)
        (by rw [Nat.mul_succ]; omega) (by omega)
    constructor
    · intro hall
      obtain ⟨s', heq, ht'⟩ := hgood (hall j (Nat.le_refl j) (by omega))
      obtain ⟨s'', heq', ht''⟩ := (hnext s' ht').1 fun t hle hlt => hall t (by omega) (by omega)
      refine ⟨s'', ?_, ?_⟩
      · rw [heq, heq', Nat.add_right_comm j, Nat.add_right_comm i]
        rfl
      · rwa [Nat.mul_succ, Nat.add_comm _ fs.clustersize, ← Nat.add_assoc]
    · intro t hle hlt hcount
      rcases Nat.lt_or_ge (l.getD j 0) fs.clustercount with hok | hno
      · obtain ⟨s', heq, ht'⟩ := hgood hok
        rw [heq]
        refine (hnext s' ht').2 t ?_ (by omega) hcount
        rcases Nat.eq_or_lt_of_le hle with rfl | hlt'
        · omega
        · exact hlt'
      · exact hbad hno

/-- The middle of the chain and the final cluster, from the first byte of a cluster on. -/
theorem rest (h : Walk fs start l e s₀) (left : Nat)
    (ht : fs.Transfers l offset n write s₀ s)
    (hpos : offset + n = fs.clustersize * j)
    (hlen : offset + (n + left) ≤ l.length * fs.clustersize) :
    ((∀ t, j ≤ t → fs.clustersize * (t + 1) ≤ offset + (n + left) → l.getD t 0 < fs.clustercount) →
      ∃ s', fs.rwrest s (l.getD j e) n left write = some s' ∧
        fs.Transfers l offset (n + left) write s₀ s') ∧
    (∀ t, j ≤ t → fs.clustersize * (t + 1) ≤ offset + (n + left) → fs.clustercount ≤ l.getD t 0 →
      fs.rwrest s (l.getD j e) n left write = none) := by
  have hpositive := h.sound.clustersize
  have hsplit := Nat.div_add_mod left fs.clustersize
  have hmod := Nat.mod_lt left hpositive
  have hwhole : ∀ t, fs.clustersize * (t + 1) ≤ offset + (n + left) ↔
      t < j + left / fs.clustersize := by
    intro t
    rw [← Nat.add_assoc, hpos, Nat.mul_comm, ← Nat.le_div_iff_mul_le hpositive,
      Nat.mul_add_div hpositive]
    exact Nat.succ_le_iff
  have hj : j + left / fs.clustersize ≤ l.length := by
    rw [← Nat.mul_add_div hpositive, ← hpos, Nat.add_assoc]
    exact Nat.div_le_of_le_mul (by rwa [Nat.mul_comm])
  have hloop := @loop _ _ _ _ _ _ _ j _ _ n 0 h (left / fs.clustersize) ht rfl hpos hj
  have hrest : fs.rwrest s (l.getD j e) n left write =
      (fs.rwclustersLoop n write (left / fs.clustersize) 0 s (l.getD j e)).bind fun r =>
        if 0 < left - left / fs.clustersize * fs.clustersize then
          some (fs.rwcluster r.1 (n + left / fs.clustersize * fs.clustersize) r.2.1 0
            (left - left / fs.clustersize * fs.clustersize) write)
        else some r.1 := by
    unfold Volume.rwrest
    by_cases hm : left / fs.clustersize = 0
    · rw [if_pos hm, hm]
      rfl
    · rw [if_neg hm]
      rfl
  have hleft : left - left / fs.clustersize * fs.clustersize = left % fs.clustersize := by
    rw [Nat.mul_comm]
    omega
  rw [hleft] at hrest
  constructor
  · intro hall
    obtain ⟨s', heq, ht'⟩ := hloop.1 fun t hle hlt => hall t hle ((hwhole t).mpr hlt)
    rw [hrest, heq, Option.bind_some]
    by_cases htail : 0 < left % fs.clustersize
    · refine ⟨_, if_pos htail, ?_⟩
      have hj' : j + left / fs.clustersize < l.length := by
        refine Nat.lt_of_mul_lt_mul_left (a := fs.clustersize) ?_
        rw [Nat.mul_add, Nat.mul_comm _ l.length]
        omega
      have hstep := ht'.step (l.getD (j + left / fs.clustersize) e) 0
        (left % fs.clustersize) (fun k hk => ?_) (h.distinct (by omega))
      · rw [Nat.add_assoc, hsplit] at hstep
        rwa [Nat.mul_comm _ fs.clustersize]
      · have hplace : fs.byteplace l (fs.clustersize * (j + left / fs.clustersize) + 0 + k) = _ :=
          byteplace_add (by omega)
        rw [getD_congr hj' e 0, ← hplace, Nat.mul_add, ← hpos]
        congr 1
        omega
    · refine ⟨s', if_neg htail, ?_⟩
      rwa [show n + left = n + fs.clustersize * (left / fs.clustersize) by omega]
  · intro t hle hlt hcount
    rw [hrest, hloop.2 t hle ((hwhole t).mp hlt) hcount]
    rfl

/-! ### The first cluster -/

theorem rwbytes_eq (h : Walk fs start l e s₀) (hj : offset / fs.clustersize < l.length) :
    fs.rwbytes s₀ start offset count write =
      (fs.rwfirst s₀ (l.getD (offset / fs.clustersize) e) offset count write).bind fun r =>
        fs.rwrest r.1 r.2.1 r.2.2.1 r.2.2.2 write := by
  rw [Volume.rwbytes, h.skip hj]
  rfl

theorem rwfirst_inside (h : Walk fs start l e s₀) (hj : j < l.length)
    (ho : 0 < offset % fs.clustersize) :
    fs.rwfirst s₀ (l.getD j e) offset count write =
      let rcount := if fs.clustersize < count then fs.clustersize - offset % fs.clustersize else count
      some (fs.rwcluster s₀ 0 (l.getD j e) (offset % fs.clustersize) rcount write, l.getD (j + 1) e,
        rcount, count - rcount) := by
  simp only [Volume.rwfirst, if_pos ho, h.next (fun c hc => rwcluster_fat h.sound hc) hj,
    Option.bind_eq_bind, Option.bind_some]

theorem first_long (h : Walk fs start l e s₀) (hj : offset / fs.clustersize < l.length)
    (ho : 0 < offset % fs.clustersize) (hcount : fs.clustersize < count) :
    ∃ s n, n ≤ count ∧ offset + n = fs.clustersize * (offset / fs.clustersize + 1) ∧
      fs.Transfers l offset n write s₀ s ∧
      fs.rwbytes s₀ start offset count write =
        fs.rwrest s (l.getD (offset / fs.clustersize + 1) e) n (count - n) write := by
  have hmod := Nat.mod_lt offset h.sound.clustersize
  have hsplit := Nat.div_add_mod offset fs.clustersize
  refine ⟨fs.rwcluster s₀ 0 (l.getD (offset / fs.clustersize) e) (offset % fs.clustersize)
    (fs.clustersize - offset % fs.clustersize) write, fs.clustersize - offset % fs.clustersize,
    by omega, ?_, .first fun k hk => ?_, ?_⟩
  · rw [Nat.mul_succ]
    omega
  · rw [getD_congr hj e 0, ← byteplace_add (by omega), hsplit]
  · simp only [h.rwbytes_eq hj, h.rwfirst_inside hj ho, if_pos hcount, Option.bind_some]

theorem first_short (h : Walk fs start l e s₀) (hj : offset / fs.clustersize < l.length)
    (ho : 0 < offset % fs.clustersize) (hcount : count ≤ fs.clustersize) :
    fs.rwbytes s₀ start offset count write = some (fs.rwcluster s₀ 0
      (l.getD (offset / fs.clustersize) e) (offset % fs.clustersize) count write) := by
  simp only [h.rwbytes_eq hj, h.rwfirst_inside hj ho, if_neg (Nat.not_lt.mpr hcount),
    Option.bind_some, Nat.sub_self, rwrest_zero]

end Walk

/-! ## The ranges that are served -/

/-- The range begins in front of the end of the chain. If it is not longer than a cluster and begins
inside of one, it ends there, or the next cluster of the chain is also the next one on the device.
And the whole clusters of it are not the last two of the device. -/
structure Volume.Served (fs : Volume) (l : List Nat) (offset count : Nat) : Prop where
  inside : offset < l.length * fs.clustersize
  first : 0 < offset % fs.clustersize → count ≤ fs.clustersize →
    fs.clustersize < offset % fs.clustersize + count →
    l.getD (offset / fs.clustersize + 1) 0 = l.getD (offset / fs.clustersize) 0 + 1
  whole : ∀ t, offset ≤ fs.clustersize * t → fs.clustersize * (t + 1) ≤ offset + count →
    l.getD t 0 < fs.clustercount

/-- On every device with the chain on it, each byte of the range goes to or comes from its place, and
no other byte changes. -/
def Volume.Right (fs : Volume) (start : Nat) (l : List Nat) (offset count : Nat) (write : Bool) : Prop :=
  ∀ s, Chain (fs.chains s.device) start l →
    ∃ s', fs.rwbytes s start offset count write = some s' ∧ fs.Transfers l offset count write s s'

theorem rwbytes_right (h : Walk fs start l e s₀) (hlong : offset + count ≤ l.length * fs.clustersize)
    (hserved : fs.Served l offset count) :
    ∃ s, fs.rwbytes s₀ start offset count write = some s ∧ fs.Transfers l offset count write s₀ s := by
  have hpositive := h.sound.clustersize
  have hmod := Nat.mod_lt offset hpositive
  have hsplit := Nat.div_add_mod offset fs.clustersize
  have hj : offset / fs.clustersize < l.length :=
    Nat.div_lt_of_lt_mul (by rw [Nat.mul_comm]; exact hserved.inside)
  have hfrom : ∀ t, offset / fs.clustersize ≤ t → offset ≤ fs.clustersize * (offset / fs.clustersize) →
      offset ≤ fs.clustersize * t := fun t ht hle =>
    Nat.le_trans hle (Nat.mul_le_mul_left _ ht)
  rcases Nat.eq_zero_or_pos (offset % fs.clustersize) with ho | ho
  · -- from the beginning of a cluster on
    have hpos : offset + 0 = fs.clustersize * (offset / fs.clustersize) := by omega
    rw [h.rwbytes_eq hj, rwfirst_aligned ho, Option.bind_some]
    obtain ⟨s, heq, ht⟩ := (h.rest count .zero hpos (by omega)).1 fun t hle hend =>
      hserved.whole t (hfrom t hle (by omega)) (by omega)
    rw [Nat.zero_add] at ht
    exact ⟨s, heq, ht⟩
  rcases Nat.lt_or_ge fs.clustersize count with hcount | hcount
  · -- up to the end of the first cluster, and the rest
    obtain ⟨s₁, n, hn, hpos, ht, heq⟩ := h.first_long hj ho hcount
    rw [heq]
    obtain ⟨s, heq', ht'⟩ := (h.rest (count - n) ht hpos (by omega)).1 fun t hle hend => by
      refine hserved.whole t ?_ (by omega)
      have := Nat.mul_le_mul_left fs.clustersize hle
      omega
    rw [Nat.add_sub_cancel' hn] at ht'
    exact ⟨s, heq', ht'⟩
  · -- all of it at once
    refine ⟨_, h.first_short hj ho hcount, .first fun k hk => ?_⟩
    rw [getD_congr hj e 0]
    rcases Nat.lt_or_ge (offset % fs.clustersize + k) fs.clustersize with hin | hover
    · rw [← byteplace_add hin, hsplit]
    · -- the piece goes on into the next cluster
      have hnext := hserved.first ho hcount (by omega)
      have hplace : fs.byteplace l (fs.clustersize * (offset / fs.clustersize + 1) + 0 +
          (offset % fs.clustersize + k - fs.clustersize)) = _ := byteplace_add (by omega)
      have hkey : offset + k = fs.clustersize * (offset / fs.clustersize + 1) + 0 +
          (offset % fs.clustersize + k - fs.clustersize) := by
        rw [Nat.mul_succ]
        omega
      rw [hkey, hplace, hnext, clusterdiskoffset_succ (h.inside _ (getD_mem hj 0)).1]
      omega

/-- Whole clusters that are not below `clustercount` fail the assertion. -/
theorem rwbytes_whole {t : Nat} (h : Walk fs start l e s₀)
    (hlong : offset + count ≤ l.length * fs.clustersize) (hle : offset ≤ fs.clustersize * t)
    (hend : fs.clustersize * (t + 1) ≤ offset + count) (ht : fs.clustercount ≤ l.getD t 0) :
    fs.rwbytes s₀ start offset count write = none := by
  have hpositive := h.sound.clustersize
  have hsplit := Nat.div_add_mod offset fs.clustersize
  have hwhole : fs.clustersize * (t + 1) = fs.clustersize * t + fs.clustersize := Nat.mul_succ _ t
  have hj : offset / fs.clustersize < l.length :=
    Nat.div_lt_of_lt_mul (by rw [Nat.mul_comm]; omega)
  rcases Nat.eq_zero_or_pos (offset % fs.clustersize) with ho | ho
  · have hpos : offset + 0 = fs.clustersize * (offset / fs.clustersize) := by omega
    rw [h.rwbytes_eq hj, rwfirst_aligned ho, Option.bind_some]
    exact (h.rest count .zero hpos (by omega)).2 t
      (Nat.le_of_mul_le_mul_left (by omega) hpositive) (by omega) ht
  · have hcount : fs.clustersize < count := by
      by_contra hle'
      have heq : offset = fs.clustersize * t := by omega
      rw [heq, Nat.mul_mod_right] at ho
      exact Nat.lt_irrefl 0 ho
    obtain ⟨s₁, n, hn, hpos, ht', heq⟩ := h.first_long hj ho hcount
    rw [heq]
    refine (h.rest (count - n) ht' hpos (by omega)).2 t ?_ (by omega) ht
    exact Nat.lt_of_mul_lt_mul_left (a := fs.clustersize) (by omega)

/-- The place of the first byte of the next cluster is not where an overrun goes. -/
theorem overrun (hfs : fs.Sound) (hnd : l.Nodup) (hin : ∀ c ∈ l, 2 ≤ c) (hj : j + 1 < l.length)
    (hnext : l.getD (j + 1) 0 ≠ l.getD j 0 + 1) :
    Apart (fs.clusterdiskoffset (l.getD j 0)) (fs.clustersize + fs.clustersize)
      (fs.byteplace l (fs.clustersize * (j + 1))) fs.clustersize := by
  have hc := hin _ (getD_mem (Nat.lt_of_succ_lt hj) 0)
  have hd := hin _ (getD_mem hj 0)
  have hne : l.getD j 0 ≠ l.getD (j + 1) 0 := fun heq => by
    have := getD_inj hnd (Nat.lt_of_succ_lt hj) hj heq
    omega
  have hfirst := fs.clusterdiskoffset_apart hc hd hne
  have hsecond := fs.clusterdiskoffset_apart (Nat.le_succ_of_le hc) hd (Ne.symm hnext)
  have hpositive := hfs.clustersize
  rw [clusterdiskoffset_succ hc] at hsecond
  rw [Volume.byteplace, place_mul hpositive]
  unfold Apart at *
  omega

/-- A range that begins inside of a cluster, ends in the next one and is not longer than a cluster is
not served if the next cluster does not lie behind on the device. -/
theorem overrun_wrong (h : Walk fs start l e s₀) (hlong : offset + count ≤ l.length * fs.clustersize)
    (ho : 0 < offset % fs.clustersize) (hcount : count ≤ fs.clustersize)
    (hover : fs.clustersize < offset % fs.clustersize + count)
    (hnext : l.getD (offset / fs.clustersize + 1) 0 ≠ l.getD (offset / fs.clustersize) 0 + 1) :
    ¬ fs.Right start l offset count write := by
  intro hright
  have hmod := Nat.mod_lt offset h.sound.clustersize
  have hsplit := Nat.div_add_mod offset fs.clustersize
  have hsucc : fs.clustersize * (offset / fs.clustersize + 1) =
      fs.clustersize * (offset / fs.clustersize) + fs.clustersize := Nat.mul_succ _ _
  have hj : offset / fs.clustersize + 1 < l.length :=
    Nat.lt_of_mul_lt_mul_left (a := fs.clustersize) (by rw [Nat.mul_comm _ l.length]; omega)
  have hne : l ≠ [] := by
    rintro rfl
    exact absurd hj (Nat.not_lt_zero _)
  have hshort : ∀ s, Chain (fs.chains s.device) start l → ∃ s',
      s' = fs.rwcluster s 0 (l.getD (offset / fs.clustersize) 0) (offset % fs.clustersize) count write ∧
      fs.Transfers l offset count write s s' := by
    intro s hs
    obtain ⟨e', h'⟩ := exists_walk h.sound hne hs
    obtain ⟨s', heq, ht⟩ := hright s hs
    rw [h'.first_short (Nat.lt_of_succ_lt hj) ho hcount, Option.some.injEq] at heq
    rw [getD_congr (Nat.lt_of_succ_lt hj) 0 e']
    exact ⟨s', heq.symm, ht⟩
  have hchain : Chain (fs.chains s₀.device) start l := .some hne h.final h.path h.inside
  -- byte `n` of the range is the first one of the next cluster, and lies at `p`
  obtain ⟨n, hn⟩ : ∃ n, n = fs.clustersize - offset % fs.clustersize := ⟨_, rfl⟩
  obtain ⟨p, hp⟩ : ∃ p, p = fs.byteplace l (offset + n) := ⟨_, rfl⟩
  have hapart := overrun h.sound h.nodup (fun c hc => (h.inside c hc).1) hj hnext
  rw [show fs.clustersize * (offset / fs.clustersize + 1) = offset + n by omega, ← hp] at hapart
  unfold Apart at hapart
  have hsucc_ne : ∀ b : BitVec 8, b + 1 ≠ b := by decide
  cases write with
  | true =>
    obtain ⟨s', rfl, ht, -⟩ := hshort ⟨s₀.device, fun _ => s₀.device p + 1⟩ hchain
    have hmoved := ht.moved n (by omega)
    rw [← hp] at hmoved
    have hsame : SameOff s₀.device _ _ count := put_sameOff s₀.device (fs.clusterdiskoffset
      (l.getD (offset / fs.clustersize) 0) + offset % fs.clustersize) count
      fun k => (fun _ => s₀.device p + 1) (0 + k)
    exact hsucc_ne (s₀.device p) (hmoved.symm.trans (hsame p (by omega)))
  | false =>
    obtain ⟨q, hq⟩ : ∃ q, q = fs.clusterdiskoffset (l.getD (offset / fs.clustersize) 0) +
      offset % fs.clustersize + n := ⟨_, rfl⟩
    obtain ⟨device, hthere, hsame⟩ : ∃ device : Mem,
        device p = s₀.device q + 1 ∧ SameOff s₀.device device p 1 :=
      ⟨_, Function.update_self p _ s₀.device, fun x hx => Function.update_of_ne (by omega) _ _⟩
    have hbehind : fs.dataoffset ≤ p := by
      rw [hp]
      exact fs.dataoffset_le_byteplace l _
    obtain ⟨s', rfl, ht, -⟩ := hshort ⟨device, s₀.buffer⟩ (hchain.congr rfl fun c hc =>
      chains_fat h.sound hsame hbehind (h.inside c hc).2)
    have hmoved := ht.moved n (by omega)
    have hgot : Bytes.put s₀.buffer 0 count (fun k => device (fs.clusterdiskoffset
        (l.getD (offset / fs.clustersize) 0) + offset % fs.clustersize + k)) (0 + n) = _ :=
      put_at _ _ _ (by omega)
    rw [← hq, hsame q (by omega), Nat.zero_add] at hgot
    rw [← hp] at hmoved
    exact hsucc_ne (s₀.device q) (hthere.symm.trans (hmoved.symm.trans hgot))

/-! ## A small volume -/

/-- Five clusters of a sector each, with the FAT in front. -/
def sampleVolume : Volume where
  fatcount := 1
  free := 2
  startat := 4
  clustersize := 512
  clustercount := 5
  fatoffset := 512
  fatsize := 512
  dataoffset := 1024

/-- The FAT of it: a file with the clusters 2 and 4. -/
def sampleDevice : Mem :=
  Bytes.write (Bytes.write (fun _ => 0) (512 + 2 * 4) 4 4) (512 + 4 * 4) 4 finalCluster

theorem sampleVolume_sound : sampleVolume.Sound := ⟨by decide, by decide, by decide⟩

theorem sampleDevice_chain : Chain (sampleVolume.chains sampleDevice) 2 [2, 4] :=
  .some (e := finalCluster) (by decide) (by decide) ⟨rfl, by decide, by decide⟩ (by decide)

/-- Bytes 100 to 599 are in both clusters. All of them are transferred to and from the first one and
the cluster that lies behind it. -/
theorem rwbytes_overruns :
    ¬ sampleVolume.Right 2 [2, 4] 100 500 false ∧ ¬ sampleVolume.Right 2 [2, 4] 100 500 true := by
  obtain ⟨e, h⟩ := exists_walk (s := ⟨sampleDevice, sampleDevice⟩) sampleVolume_sound
    (List.cons_ne_nil _ _) sampleDevice_chain
  constructor
  · exact overrun_wrong h (by decide) (by decide) (by decide) (by decide) (by decide)
  · exact overrun_wrong h (by decide) (by decide) (by decide) (by decide) (by decide)

/-- **Which ranges of a chain are transferred as they should be.** -/
theorem rwbytes_transfers_iff (hfs : fs.Sound) (hne : l ≠ [])
    (hdevice : ∃ device, Chain (fs.chains device) start l)
    (hlong : offset + count ≤ l.length * fs.clustersize) (write : Bool) :
    fs.Right start l offset count write ↔ fs.Served l offset count := by
  constructor
  · intro hright
    obtain ⟨device, hchain⟩ := hdevice
    obtain ⟨e, h⟩ := exists_walk (s := ⟨device, device⟩) hfs hne hchain
    obtain ⟨s', heq, -⟩ := hright ⟨device, device⟩ hchain
    refine ⟨?_, fun ho hcount hover => ?_, fun t hle hend => ?_⟩
    · by_contra hout
      obtain ⟨d, hskip⟩ := h.skip_all hne (j := offset / fs.clustersize)
        ((Nat.le_div_iff_mul_le hfs.clustersize).mpr (Nat.not_lt.mp hout))
      simp only [Volume.rwbytes, hskip] at heq
      exact absurd heq nofun
    · by_contra hnext
      exact overrun_wrong h hlong ho hcount hover hnext hright
    · by_contra hcount
      rw [rwbytes_whole h hlong hle hend (Nat.not_lt.mp hcount)] at heq
      exact absurd heq nofun
  · intro hserved s hs
    obtain ⟨e, h⟩ := exists_walk hfs hne hs
    exact rwbytes_right h hlong hserved

theorem rwbytes_transfers_iff_sample : sampleVolume.Right 2 [2, 4] 100 900 true := by
  refine (rwbytes_transfers_iff sampleVolume_sound (List.cons_ne_nil _ _)
    ⟨sampleDevice, sampleDevice_chain⟩ (by decide) true).mpr
    ⟨by decide, fun _ hcount => absurd hcount (by decide), fun t hle hend => ?_⟩
  simp only [sampleVolume] at hle hend
  omega

end Lyre.Fat32

/-!
## Which clusters of a volume are used

The clusters of a volume with `clustercount` of them are 2 to `clustercount + 1`. The number is not
what the code goes by. `fat32fs_updatefsinfo` counts the zero entries behind the last cluster as well,
and `nextfree` finds them once the volume is full; `fat32fs_rwclusters` takes the number itself for
the limit, which leaves out the last two clusters (`clusters_inside_iff`).
-/

namespace Lyre.Fat32

open Infra Infra.Bytes Fat32fs

/-! ## A search that ends -/

section

variable {fs fs' : Fat32fs} {c r last ret count fuel : Nat} {l : List Nat} {memory : Bool}

/-- What the search finds is the first zero entry, however many entries there are. -/
theorem nextfreeLoop_first (hsize : fs.entries ≤ 2 ^ 32) (h : nextfreeLoop fs fuel c = some r)
    (hr : r ≠ 0) : c ≤ r ∧ r < fs.entries ∧ fs.fat 0 r = 0 ∧ ∀ i, c ≤ i → i < r → fs.fat 0 i ≠ 0 := by
  induction fuel generalizing c with
  | zero => cases h
  | succ fuel ih =>
    rw [nextfreeLoop] at h
    by_cases hc : c = 0
    · rw [if_pos hc] at h
      exact absurd (Option.some.inj h).symm hr
    by_cases hin : c < fs.entries
    · rw [if_neg hc, next_eq hin, Option.bind_eq_bind, Option.bind_some] at h
      by_cases h0 : fs.fat 0 c = 0
      · rw [if_pos h0] at h
        cases h
        exact ⟨le_refl _, hin, h0, fun i hi hi' => by omega⟩
      · rw [if_neg h0] at h
        by_cases hwrap : (c + 1) % 2 ^ 32 = 0
        · rw [hwrap] at h
          cases fuel with
          | zero => cases h
          | succ fuel =>
            rw [nextfreeLoop, if_pos rfl] at h
            exact absurd (Option.some.inj h).symm hr
        · have hmod : (c + 1) % 2 ^ 32 = c + 1 := by omega
          rw [hmod] at h
          obtain ⟨hcr, hrN, hr0, hno⟩ := ih h
          refine ⟨by omega, hrN, hr0, fun i hi hir => ?_⟩
          rcases Nat.eq_or_lt_of_le hi with rfl | hi
          · exact h0
          · exact hno i hi hir
    · rw [if_neg hc, next, if_neg hin] at h
      cases h

/-- When the loop of `fat32fs_allocateclusters` comes to its end. -/
theorem allocateLoop_linked (hcopies : 0 < fs.fatcount) (hsize : fs.entries ≤ 2 ^ 32)
    (hc : c < fs.entries) (hfat : fs.fat 0 c = 0)
    (h : allocateLoop count fs c = some (fs', last, true)) :
    ∃ l, l.length = count ∧ Linked fs fs' c last l := by
  induction count generalizing fs c with
  | zero =>
    cases h
    refine ⟨[], rfl, rfl, ?_, by simp, le_refl _, ⟨hfat, hc⟩, fun i hi hi' => by omega, rfl⟩
    exact ⟨.rfl', by simp, by simp, by simp⟩
  | succ count ih =>
    rw [allocateLoop] at h
    cases hnext : fs.nextfree ((c + 1) % 2 ^ 32) with
    | none =>
      rw [hnext] at h
      cases h
    | some r =>
      simp only [hnext, Option.bind_eq_bind, Option.bind_some, setnext_eq hc] at h
      by_cases hr : r = 0
      · rw [if_pos hr] at h
        cases h
      · rw [if_neg hr] at h
        have hwrap : (c + 1) % 2 ^ 32 ≠ 0 := fun hzero => by
          rw [hzero, nextfree, turns, nextfreeLoop, if_pos rfl] at hnext
          exact hr (Option.some.inj hnext).symm
        rw [Nat.mod_eq_of_lt (by omega : c + 1 < 2 ^ 32)] at hnext
        obtain ⟨hcr, hrN, hr0, hno⟩ := nextfreeLoop_first hsize hnext hr
        have hr0' : ((put fs c r).zero c).fat 0 r = 0 := by
          rw [zero_fat, put_fat_of_ne (by omega)]
          exact hr0
        obtain ⟨l, hlen, hlinked⟩ :=
          @ih ((put fs c r).zero c) r hcopies hsize hrN hr0' h
        refine ⟨c :: l, by rw [List.length_cons, hlen], ?_⟩
        exact hlinked.cons hcopies hc hfat (by omega) fun i hi hir => hno i (by omega) hir

/-- What `fat32fs_allocateclusters` has done when it returns a cluster. -/
theorem allocateclusters_linked (hcopies : 0 < fs.fatcount) (hsize : fs.entries ≤ 2 ^ 32)
    (hcount : 0 < count) (hcount' : count < 2 ^ 64) (hret : ret ≠ 0)
    (h : fs.allocateclusters count memory = some (fs', ret)) :
    ∃ fs₁ last l, l.length + 1 = count ∧ Linked fs fs₁ ret last l ∧ fs' = close fs₁ last count ∧
      fs.startat ≠ 0 ∧ fs.startat ≤ ret ∧ ∀ i, fs.startat ≤ i → i < ret → fs.fat 0 i ≠ 0 := by
  rw [allocateclusters] at h
  by_cases hfree : fs.free < count
  · rw [if_pos hfree] at h
    cases h
    exact absurd rfl hret
  rw [if_neg hfree] at h
  cases hnext : fs.nextfree fs.startat with
  | none =>
    rw [hnext] at h
    cases h
  | some r =>
    simp only [hnext, Option.bind_eq_bind, Option.bind_some] at h
    by_cases hr : r = 0
    · rw [if_pos hr] at h
      cases h
      exact absurd rfl hret
    rw [if_neg hr] at h
    by_cases hmem : memory = false
    · rw [if_pos hmem] at h
      cases h
      exact absurd rfl hret
    rw [if_neg hmem] at h
    have hturns : u64 (count + (2 ^ 64 - 1)) = count - 1 := by
      unfold u64
      omega
    obtain ⟨hstart, hrN, hr0, hno⟩ := nextfreeLoop_first hsize hnext hr
    have hpos : fs.startat ≠ 0 := fun hzero => by
      rw [hzero, nextfree, turns, nextfreeLoop, if_pos rfl] at hnext
      exact hr (Option.some.inj hnext).symm
    cases hloop : allocateLoop (u64 (count + (2 ^ 64 - 1))) fs r with
    | none =>
      rw [hloop] at h
      cases h
    | some res =>
      obtain ⟨fs₁, last, ok⟩ := res
      simp only [hloop, Option.bind_some] at h
      cases ok with
      | false =>
        simp only [Bool.false_eq_true, if_false] at h
        cases hfreed : fs₁.freeclusters r with
        | none =>
          rw [hfreed] at h
          cases h
        | some fs₂ =>
          rw [hfreed] at h
          cases h
          exact absurd rfl hret
      | true =>
        obtain ⟨l, hlen, hlinked⟩ := allocateLoop_linked hcopies hsize hrN hr0 hloop
        have hlast : last < (fs₁.zero last).entries := by
          rw [zero_entries, hlinked.zeroed.written.entries]
          exact hlinked.lastFree.2
        simp only [if_true, setnext_eq hlast, Option.bind_some, Option.some_inj,
          Prod.mk.injEq] at h
        obtain ⟨rfl, rfl⟩ := h
        exact ⟨fs₁, last, l, by omega, hlinked, rfl, hpos, hstart, hno⟩

end

/-! ## Transfers of whole clusters -/

section

variable {fs : Volume} {s s₀ : Transfer} {l : List Nat} {write : Bool}
  {start e n i j offset buffer left : Nat}

/-- The data clusters of the volume. -/
abbrev Volume.IsData (fs : Volume) (c : Nat) : Prop := 2 ≤ c ∧ c < fs.clustercount + 2

/-- The loop over whole clusters does not fail its assertion if the clusters that it comes to are
below `clustercount`. It ends at the end of the chain at the latest. -/
theorem Walk.loop_isSome (h : Walk fs start l e s₀) (ht : fs.Transfers l offset n write s₀ s)
    (hbuffer : n = buffer + fs.clustersize * i) (hpos : offset + n = fs.clustersize * j)
    (hj : j ≤ l.length) :
    (fs.rwclustersLoop buffer write left i s (l.getD j e)).isSome ↔
      ∀ c ∈ (l.drop j).take left, c < fs.clustercount := by
  induction left generalizing n i j s with
  | zero => simp [Volume.rwclustersLoop]
  | succ left ih =>
    rcases Nat.lt_or_eq_of_le hj with hlt | rfl
    · obtain ⟨hbad, hgood⟩ := h.turn left ht hbuffer hpos hlt
      have hget : l.getD j 0 = l[j] := List.getD_eq_getElem l 0 hlt
      rw [List.drop_eq_getElem_cons hlt, List.take_succ_cons, List.forall_mem_cons, ← hget]
      rcases Nat.lt_or_ge (l.getD j 0) fs.clustercount with hok | hno
      · obtain ⟨s', heq, ht'⟩ := hgood hok
        rw [heq, ih ht' (by rw [hbuffer, Nat.mul_succ, Nat.add_assoc])
          (by rw [← Nat.add_assoc, hpos, Nat.mul_succ]) hlt]
        exact (and_iff_right hok).symm
      · rw [hbad hno]
        constructor
        · intro hsome
          cases hsome
        · rintro ⟨hok, -⟩
          exact absurd hok (Nat.not_lt.mpr hno)
    · have hend : l.getD l.length e = e := List.getD_eq_default _ _ (le_refl _)
      have hzero : e ≠ 0 := fun h0 => by
        have := h.final
        rw [h0] at this
        exact absurd this (by decide)
      rw [hend, Volume.rwclustersLoop, if_neg hzero, if_pos h.final, List.drop_length]
      simp

end

/-! ## The limits -/

section

variable {fs : Volume} {device : Mem} {entries ret count : Nat} {fs' : Fat32fs}

/-- The entries in which a search from `fsinfo.startat` on finds a cluster of the volume. -/
def Volume.freefrom (fs : Volume) (device : Mem) : Finset Nat :=
  (Finset.Ico fs.startat (fs.clustercount + 2)).filter fun c => (fs.chains device).fat 0 c = 0

/-- That the search finds `count` of them, and no reserved entry in front of them. -/
def Volume.HasRoom (fs : Volume) (device : Mem) (count : Nat) : Prop :=
  (2 ≤ fs.startat ∨ (fs.chains device).fat 0 1 ≠ 0) ∧ count ≤ (fs.freefrom device).card

/-- What `fat32fs_allocateclusters` returns is a chain of data clusters, and no cluster besides the
data clusters is written. -/
def Volume.StaysInside (fs : Volume) (device : Mem) (entries ret count : Nat) (fs' : Fat32fs) : Prop :=
  (∃ l, l.length = count ∧ Path (fs'.fat 0) ret l finalCluster ∧ ∀ c ∈ l, fs.IsData c) ∧
    ∀ c, ¬ fs.IsData c → fs'.data c = (fs.table device entries).data c

theorem staysInside_iff {memory : Bool} (hcopies : 0 < fs.fatcount) (hmax : entries ≤ 2 ^ 32)
    (hcount : 0 < count) (hcount' : count < 2 ^ 64) (hret : ret ≠ 0)
    (h : (fs.table device entries).allocateclusters count memory = some (fs', ret)) :
    fs.StaysInside device entries ret count fs' ↔ fs.HasRoom device count := by
  obtain ⟨fs₁, last, l, hlen, hlinked, rfl, hpos, hstart, hno⟩ :=
    @allocateclusters_linked (fs.table device entries) _ _ _ _ hcopies hmax hcount hcount' hret h
  have hz : Zeroed (fs.table device entries) (close fs₁ last count) (l ++ [last]) :=
    hlinked.close_zeroed hcopies
  have hpath : Path ((close fs₁ last count).fat 0) ret (l ++ [last]) finalCluster :=
    hlinked.close_path hcopies
  have hlength : (l ++ [last]).length = count := by
    rw [List.length_append, List.length_singleton, hlen]
  have hbetween : ∀ c ∈ l ++ [last], ret ≤ c ∧ c ≤ last := by
    intro c hc
    rcases List.mem_append.mp hc with hc | hc
    · have := hlinked.inside c hc
      omega
    · rw [List.mem_singleton.mp hc]
      exact ⟨hlinked.le_last, le_refl last⟩
  have hmem : ret ∈ l ++ [last] := path_start_mem hlinked.path
  constructor
  · rintro ⟨⟨m, hm, hpathm, hdata⟩, -⟩
    rw [hpathm.eq_of_length hpath (hm.trans hlength.symm)] at hdata
    constructor
    · by_contra hcond
      rw [not_or, Decidable.not_not] at hcond
      have htwo := (hdata ret hmem).1
      exact hno 1 (Nat.le_of_lt_succ (Nat.not_le.mp hcond.1)) htwo hcond.2
    · rw [← hlength, ← List.toFinset_card_of_nodup hlinked.nodup]
      refine Finset.card_le_card fun c hc => ?_
      rw [List.mem_toFinset] at hc
      rw [Volume.freefrom, Finset.mem_filter, Finset.mem_Ico]
      have hle := (hbetween c hc).1
      exact ⟨⟨hstart.trans hle, (hdata c hc).2⟩, (hz.wasFree c hc).1⟩
  · rintro ⟨hres, hroom⟩
    have hlow : 2 ≤ ret := by
      rcases hres with htwo | hone
      · exact htwo.trans hstart
      · have hne : ret ≠ 1 := fun heq => hone (heq ▸ (hz.wasFree ret hmem).1)
        omega
    have hhigh : last < fs.clustercount + 2 := by
      by_contra hlast
      have hsub : fs.freefrom device ⊆ l.toFinset := by
        intro c hc
        rw [Volume.freefrom, Finset.mem_filter, Finset.mem_Ico] at hc
        rw [List.mem_toFinset]
        by_contra hcl
        rcases Nat.lt_or_ge c ret with hlt | hge
        · exact hno c hc.1.1 hlt hc.2
        · refine hlinked.full c hge (by omega) ?_
          rw [hlinked.zeroed.written.fat c hcl]
          exact hc.2
      have hcard := Finset.card_le_card hsub
      have hl := List.toFinset_card_le l
      omega
    have hin : ∀ c ∈ l ++ [last], fs.IsData c := by
      intro c hc
      have := hbetween c hc
      exact ⟨by omega, by omega⟩
    refine ⟨⟨_, hlength, hpath, hin⟩, fun c hc => hz.written.data c fun hmem => hc (hin c hmem)⟩

end

/-! ## Counting -/

section

variable {device : Mem}

end

/-- A volume of two clusters that are in use, and about which nothing is known. The FAT has a
sector. -/
def fullVolume : Volume where
  fatcount := 1
  free := 0xffffffff
  startat := 0xffffffff
  clustersize := 512
  clustercount := 2
  fatoffset := 512
  fatsize := 512
  dataoffset := 1024

/-- The FAT of it: two reserved entries, and two files of a cluster. -/
def fullDevice : Mem :=
  (List.range 4).foldl (fun device c => Bytes.write device (512 + c * 4) 4 finalCluster) fun _ => 0

/-- A cluster behind the last one is given out, and a file with one of the two clusters cannot be
read. -/
theorem fullVolume_leaves :
    (((fullVolume.updatefsinfo fullDevice 1 512).table fullDevice 128).allocateclusters 1 true).map
      Prod.snd = some 4 ∧ ¬ fullVolume.IsData 4 ∧
    fullVolume.IsData 2 ∧ Path ((fullVolume.chains fullDevice).fat 0) 2 [2] finalCluster ∧
    (fullVolume.rwclusters ⟨fullDevice, fullDevice⟩ 0 2 1 false).isNone := by
  refine ⟨by decide +kernel, by decide, by decide, by decide, by decide⟩

/-- **Which clusters of a volume are used.** What is allocated stays inside of the volume if a
search from `startat` on finds enough clusters in it, and the assertion holds of a chain in the
volume if the last two clusters are not in the part that is transferred. -/
theorem clusters_inside_iff (fs : Volume) (hfs : fs.Sound) (hcopies : 0 < fs.fatcount)
    (device : Mem) (entries : Nat) (hmax : entries ≤ 2 ^ 32) :
    (∀ count memory fs' ret, 0 < count → count < 2 ^ 64 → ret ≠ 0 →
      (fs.table device entries).allocateclusters count memory = some (fs', ret) →
      (fs.StaysInside device entries ret count fs' ↔ fs.HasRoom device count)) ∧
    ∀ l start e buffer count write, Path ((fs.chains device).fat 0) start l e → IsFinalCluster e →
      (∀ c ∈ l, fs.IsData c) →
      ((fs.rwclusters ⟨device, buffer⟩ 0 start count write).isSome ↔
        ∀ c ∈ l.take count, c < fs.clustercount) := by
  refine ⟨fun count memory fs' ret hcount hcount' hret h =>
    staysInside_iff hcopies hmax hcount hcount' hret h, fun l start e buffer count write hp he hin => ?_⟩
  have hwalk : Walk fs start l e ⟨device, buffer⟩ := ⟨hfs, he, hp, hin⟩
  have hstart : start = l.getD 0 e := hp.start_getD
  have hnone : fs.Transfers l 0 0 write ⟨device, buffer⟩ ⟨device, buffer⟩ := .zero
  have h : (fs.rwclustersLoop 0 write count 0 ⟨device, buffer⟩ (l.getD 0 e)).isSome ↔
      ∀ c ∈ (l.drop 0).take count, c < fs.clustercount :=
    hwalk.loop_isSome hnone rfl rfl (Nat.zero_le _)
  rw [List.drop_zero, ← hstart] at h
  exact h

theorem clusters_inside_iff_full : ∃ fs',
    ({ fullVolume with free := 1, startat := 2 }.table fullDevice 128).allocateclusters 1 true =
      some (fs', 4) ∧
    ({ fullVolume with free := 1, startat := 2 }.StaysInside fullDevice 128 4 1 fs' ↔
      { fullVolume with free := 1, startat := 2 }.HasRoom fullDevice 1) ∧
    (({ fullVolume with free := 1, startat := 2 }.rwclusters ⟨fullDevice, fullDevice⟩ 0 2 1 false).isSome ↔
      ∀ c ∈ [2].take 1, c < 2) := by
  have hrun : (({ fullVolume with free := 1, startat := 2 }.table fullDevice 128).allocateclusters 1
      true).map Prod.snd = some 4 := by decide
  obtain ⟨⟨fs', ret⟩, halloc, rfl⟩ := Option.map_eq_some_iff.mp hrun
  obtain ⟨hstays, hloop⟩ := clusters_inside_iff { fullVolume with free := 1, startat := 2 }
    ⟨by decide, by decide, by decide⟩ (by decide) fullDevice 128 (by decide)
  exact ⟨fs', halloc, hstays 1 true fs' 4 (by decide) (by decide) (by decide) halloc,
    hloop [2] 2 finalCluster fullDevice 1 false (by decide) (by decide) (by decide)⟩

end Lyre.Fat32
