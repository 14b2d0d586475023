import Lyre.Properties.Fragments

/-!
# A fragment arrives

What `net_fragment` writes to the header of a fragment is what `net_reassemble` reads from it. A
fragment whose header is made from the one of the datagram is added to what has come before it, and
the last one makes the datagram whole; a fragment with another version is dropped.
-/

namespace Lyre.Net

open Infra.Bytes Infra.Ring Slabs

/-! ## Flags and offsets -/

theorem bswap16_and (x y : BitVec 16) : bswap16 x &&& bswap16 y = bswap16 (x &&& y) := by
  unfold bswap16
  rw [BitVec.extractLsb'_and, BitVec.extractLsb'_and]
  exact BitVec.and_append

theorem bswap16_ne_zero {x : BitVec 16} : bswap16 x ≠ 0#16 ↔ x ≠ 0#16 := not_congr bswap16_eq_zero

theorem ipOffMask_and {f : BitVec 16} (hf : f.toNat < 8192) : ipOffMask &&& f = f := by
  apply BitVec.eq_of_toNat_eq
  have hmask : ipOffMask.toNat = 2 ^ 13 - 1 := rfl
  rw [BitVec.toNat_and, hmask, Nat.and_comm, Nat.and_two_pow_sub_one_eq_mod]
  exact Nat.mod_eq_of_lt hf

theorem ipFlagMF_and {f : BitVec 16} (hf : f.toNat < 8192) : ipFlagMF &&& f = 0#16 := by
  have hzero : ipFlagMF &&& ipOffMask = 0#16 := by decide
  rw [← ipOffMask_and hf, ← BitVec.and_assoc, hzero, BitVec.zero_and]

/-- The field `fragoff` of a fragment of a frame that is no fragment itself. -/
theorem fragField_eq (mtu left : Nat) {f : BitVec 16} (hf : f.toNat < 8192) :
    fragField mtu left 0#16 f = if left ≤ room mtu then f else f ||| ipFlagMF := by
  unfold fragField
  dsimp only
  rw [ipOffMask_and hf, BitVec.zero_or]

variable {t : InetHeader} {mtu left n c : Nat} {f : BitVec 16}

theorem offset_fragmentHeader (hf : f.toNat < 8192) :
    (fragmentHeader t (fragField mtu left 0#16 f) c).cleared.offset = f.toNat * 8 := by
  have heq : (fragmentHeader t (fragField mtu left 0#16 f) c).cleared.offset =
      (bswap16 (bswap16 (fragField mtu left 0#16 f)) &&& ipOffMask).toNat * 8 := rfl
  rw [heq, bswap16_bswap16, fragField_eq mtu left hf, BitVec.and_comm]
  split
  · rw [ipOffMask_and hf]
  · have hzero : ipOffMask &&& ipFlagMF = 0#16 := by decide
    rw [BitVec.and_or_distrib_left, ipOffMask_and hf, hzero, BitVec.or_zero]

theorem moreFragments_fragmentHeader (hf : f.toNat < 8192) :
    (fragmentHeader t (fragField mtu left 0#16 f) c).cleared.moreFragments =
      decide (¬ left ≤ room mtu) := by
  have heq : (fragmentHeader t (fragField mtu left 0#16 f) c).cleared.moreFragments =
      decide (bswap16 (fragField mtu left 0#16 f) &&& bswap16 ipFlagMF ≠ 0#16) := rfl
  rw [heq, bswap16_and, decide_eq_decide, bswap16_ne_zero, BitVec.and_comm,
    fragField_eq mtu left hf]
  split
  · next hlast =>
    rw [ipFlagMF_and hf]
    exact iff_of_false (not_not.mpr rfl) (not_not.mpr hlast)
  · next hmore =>
    rw [BitVec.and_or_distrib_left, ipFlagMF_and hf]
    exact iff_of_true (by decide) hmore

theorem dataLen_fragmentHeader (t : InetHeader) (tmp : BitVec 16) (hc : c + inetSize < 2 ^ 16) :
    (fragmentHeader t tmp c).cleared.dataLen.toNat = c := by
  have heq : (fragmentHeader t tmp c).cleared.dataLen =
      bswap16 (bswap16 (BitVec.ofNat 16 (c + inetSize))) - BitVec.ofNat 16 inetSize := rfl
  rw [heq, bswap16_bswap16, BitVec.toNat_sub, BitVec.toNat_ofNat, BitVec.toNat_ofNat,
    Nat.mod_eq_of_lt hc]
  unfold inetSize
  omega

/-- There is more than one fragment, so that every one of them looks like one. -/
theorem isFragment_fragmentHeader (hf : f.toNat < 8192) (h : left ≤ room mtu → f ≠ 0#16) :
    (fragmentHeader t (fragField mtu left 0#16 f) c).isFragment = true := by
  have heq : (fragmentHeader t (fragField mtu left 0#16 f) c).isFragment =
      decide (bswap16 (fragField mtu left 0#16 f) &&& bswap16 (ipFlagMF ||| ipOffMask) ≠ 0#16) := rfl
  rw [heq, bswap16_and, decide_eq_true_eq, bswap16_ne_zero, BitVec.and_comm,
    fragField_eq mtu left hf]
  split
  · next hlast =>
    rw [BitVec.and_or_distrib_right, ipFlagMF_and hf, ipOffMask_and hf, BitVec.zero_or]
    exact h hlast
  · intro hzero
    -- the flag is in both
    have hflag : ipFlagMF &&& ((ipFlagMF ||| ipOffMask) &&& (f ||| ipFlagMF)) = ipFlagMF := by
      have hboth : ipFlagMF &&& (ipFlagMF ||| ipOffMask) = ipFlagMF := by decide
      rw [← BitVec.and_assoc, hboth, BitVec.and_or_distrib_left, ipFlagMF_and hf, BitVec.zero_or,
        BitVec.and_self]
    rw [hzero, BitVec.and_zero] at hflag
    exact absurd hflag (by decide)

/-! ## The receiver -/

/-- What the headers of all fragments have in common. -/
def InetHeader.core (h : InetHeader) : InetHeader := { h with len := 0, fragoff := 0, csum := 0 }

theorem core_fragmentHeader (t : InetHeader) (tmp : BitVec 16) (c : Nat) :
    (fragmentHeader t tmp c).core = t.core := rfl

theorem key_of_core {h h' : InetHeader} (hcore : h.core = h'.core) : h.key = h'.key := by
  have hkey : h.core.key = h'.core.key := by rw [hcore]
  exact hkey

/-- The datagram is the one that was sent. -/
structure Original (h₀ : InetHeader) (payload : List Byte) (r : Datagram) : Prop where
  version : r.header.version = h₀.version
  id : r.header.id = h₀.id
  protocol : r.header.protocol = h₀.protocol
  src : r.header.src = h₀.src
  dest : r.header.dest = h₀.dest
  payload : r.payload = payload

/-- The first `done` bytes of the datagram have come, and nothing else is waiting. -/
def Partial (d : SentDatagram) (done : Nat) (metas : List Reassmetadata) : Prop :=
  (done = 0 ∧ metas = []) ∨
    ∃ m, metas = [m] ∧ Holds d m ∧ m.len.toNat = done ∧ m.header.core = d.header.core

variable {d : SentDatagram} {metas : List Reassmetadata} {header : InetHeader} {done length : Nat}
  {buf : Mem}

theorem netReassemble_partial (data fresh beyond : Mem) (hp : Partial d done metas)
    (hihl : header.ihl.toNat * 4 ≤ inetSize) (hcore : header.core = d.header.core)
    (hoff : header.offset = done) :
    ∃ m, Holds d m ∧ m.len.toNat = done ∧ m.header.core = d.header.core ∧
      (netReassemble metas header data fresh beyond).1 =
        (reassembleAt [m] 0 header data fresh beyond).1 ∧
      (netReassemble metas header data fresh beyond).2.1 =
        (reassembleAt [m] 0 header data fresh beyond).2 := by
  unfold netReassemble
  rw [if_neg (Nat.not_lt.mpr hihl)]
  obtain ⟨rfl, rfl⟩ | ⟨m, rfl, hm, hlen, hmcore⟩ := hp
  · refine ⟨newMetadata header, holds_newMetadata (key_of_core hcore), rfl, hcore, ?_⟩
    rw [findMetadata, if_neg (not_not.mpr hoff)]
    exact ⟨rfl, rfl⟩
  · refine ⟨m, hm, hlen, hmcore, ?_⟩
    have hmatch : m.matches header = true := by
      rw [matches_iff, hm.key]
      exact (key_of_core hcore).symm
    rw [findMetadata, findMetadata, if_pos hmatch]
    exact ⟨rfl, rfl⟩

theorem original_reassembled {m : Reassmetadata} {beyond : Mem}
    (hcore : m.header.core = d.header.core) (hpayload : (reassembled m beyond).payload = d.payload) :
    Original d.header d.payload (reassembled m beyond) := by
  have hversion : m.header.core.version = d.header.core.version := by rw [hcore]
  have hid : m.header.core.id = d.header.core.id := by rw [hcore]
  have hprotocol : m.header.core.protocol = d.header.core.protocol := by rw [hcore]
  have hsrc : m.header.core.src = d.header.core.src := by rw [hcore]
  have hdest : m.header.core.dest = d.header.core.dest := by rw [hcore]
  exact ⟨hversion, hid, hprotocol, hsrc, hdest, hpayload⟩

/-- **The next fragment arrives.** -/
theorem inetAccept_partial (fresh beyond : Mem) (hp : Partial d done metas)
    (hversion : d.header.version = 4) (hihl : d.header.ihl = 5) (hlong : inetSize ≤ length)
    (hcore : (loadInet buf).core = d.header.core)
    (hcsum : (loadInet buf).csum = (loadInet buf).checksum)
    (hfrag : (loadInet buf).isFragment = true) (hoff : (loadInet buf).cleared.offset = done)
    (hf : IsFragment d (loadInet buf).cleared fun k => buf (inetSize + k)) :
    ((loadInet buf).cleared.moreFragments = true →
      (inetAccept metas buf length fresh beyond).1 = none ∧
      Partial d (done + (loadInet buf).cleared.dataLen.toNat)
        (inetAccept metas buf length fresh beyond).2.1) ∧
    ((loadInet buf).cleared.moreFragments = false →
      ∃ r, (inetAccept metas buf length fresh beyond).1 = some r ∧
        Original d.header d.payload r) := by
  have hihl' : (loadInet buf).core.ihl = d.header.core.ihl := by rw [hcore]
  have hihl' : (loadInet buf).cleared.ihl = 5 := hihl'.trans hihl
  have hversion' : (loadInet buf).core.version = d.header.core.version := by rw [hcore]
  have hvalid : Valid buf length := ⟨hlong, hversion'.trans hversion, hcsum⟩
  have hsmall : (loadInet buf).cleared.ihl.toNat * 4 ≤ inetSize := by
    rw [hihl']
    decide
  obtain ⟨m, hm, hlen, hmcore, hfst, hsnd⟩ := netReassemble_partial (fun k => buf (inetSize + k))
    fresh beyond hp hsmall hcore hoff
  have hoff' : (loadInet buf).cleared.offset = m.len.toNat := hoff.trans hlen.symm
  rw [inetAccept_fragment metas fresh beyond hvalid hfrag]
  dsimp only
  rw [hfst, hsnd]
  unfold reassembleAt
  rw [List.getElem?_cons_zero]
  dsimp only
  refine ⟨fun hmore => ?_, fun hlast => ?_⟩
  · rw [if_pos hmore]
    refine ⟨rfl, .inr ⟨_, rfl, hm.add fresh hf hoff', ?_, hmcore⟩⟩
    rw [len_addFragment fresh hf hoff', hlen]
  · rw [if_neg (Bool.eq_false_iff.mp hlast)]
    exact ⟨_, rfl, original_reassembled hmcore (hm.whole fresh beyond hf hoff' hlast)⟩

/-! ## How the payload is cut -/

/-- The MTU and the length of a payload that is cut. -/
structure Cuts (mtu n : Nat) : Prop where
  ge : linkSize + inetSize + 8 ≤ mtu
  lt : mtu < linkSize + inetSize + n
  fits : linkSize + inetSize + n < 2 ^ 16

theorem cop_last (h : left ≤ room mtu) : cop mtu left = left := if_pos h

section

variable (hc : Cuts mtu n)
include hc

theorem Cuts.room_eq : room mtu = mtu - 34 := by
  obtain ⟨hge, hlt, hfits⟩ := hc
  unfold room u64
  unfold linkSize inetSize at *
  omega

theorem Cuts.nfb_eq : nfb mtu = (mtu - 34) / 8 := by
  obtain ⟨hge, hlt, hfits⟩ := id hc
  unfold nfb
  rw [hc.room_eq]
  unfold linkSize inetSize at *
  omega

theorem Cuts.cop_more (h : ¬ left ≤ room mtu) :
    cop mtu left = nfb mtu * 8 ∧ 0 < cop mtu left ∧ cop mtu left < left := by
  obtain ⟨hge, hlt, hfits⟩ := id hc
  rw [hc.room_eq] at h
  unfold cop
  rw [hc.room_eq, if_neg h, hc.nfb_eq]
  unfold linkSize inetSize at *
  omega

theorem Cuts.cop_le (left : Nat) : cop mtu left ≤ left := by
  by_cases h : left ≤ room mtu
  · exact Nat.le_of_eq (cop_last h)
  · exact Nat.le_of_lt (hc.cop_more h).2.2

theorem Cuts.cop_fits (left : Nat) : linkSize + inetSize + cop mtu left ≤ mtu := by
  have hroom := hc.room_eq
  have hge := hc.ge
  by_cases hlast : left ≤ room mtu
  · rw [cop_last hlast]
    unfold linkSize inetSize at *
    omega
  · obtain ⟨hmore, -, -⟩ := hc.cop_more hlast
    rw [hmore, hc.nfb_eq]
    unfold linkSize inetSize at *
    omega

theorem Cuts.cop_pos (h : left ≠ 0) : 0 < cop mtu left := by
  by_cases hlast : left ≤ room mtu
  · rw [cop_last hlast]
    exact Nat.pos_of_ne_zero h
  · exact (hc.cop_more hlast).2.1

end

/-! ## The frames that arrive -/

/-- What is in memory where a packet arrives: behind the packet, in a block that has grown, and
behind the datagram that is put together. -/
structure Surroundings where
  behind : Mem
  fresh : Mem
  beyond : Mem

/-- `net_oninet` up to its `switch`, for the packet in a frame. -/
def arrive (env : Surroundings) (metas : List Reassmetadata) (frame : List Byte) :
    Option Datagram × List Reassmetadata × List Access :=
  inetAccept metas (blit env.behind 0 (frame.drop linkSize)) (frame.length - linkSize) env.fresh
    env.beyond

/-- The datagrams that are handled when one frame after the other arrives. -/
def receiveFrames : (Nat → Surroundings) → List Reassmetadata → List (List Byte) → List Datagram
  | _, _, [] => []
  | env, metas, frame :: frames =>
    let r := arrive (env 0) metas frame
    r.1.toList ++ receiveFrames (fun k => env (k + 1)) r.2.1 frames

theorem receiveFrames_cons (env : Nat → Surroundings) (metas : List Reassmetadata)
    (frame : List Byte) (frames : List (List Byte)) :
    receiveFrames env metas (frame :: frames) = (arrive (env 0) metas frame).1.toList ++
      receiveFrames (fun k => env (k + 1)) (arrive (env 0) metas frame).2.1 frames := rfl

theorem arrive_dropped (env : Surroundings) (metas : List Reassmetadata) {frame data : List Byte}
    {h : InetHeader} (hframe : frame.drop linkSize = h.bytes ++ data) (hversion : h.version ≠ 4) :
    (arrive env metas frame).1 = none ∧ (arrive env metas frame).2.1 = metas := by
  have hnot : ¬ Valid (blit env.behind 0 (h.bytes ++ data)) (frame.length - linkSize) := by
    intro hvalid
    refine hversion ?_
    rw [← hvalid.version, loadInet_blit]
  obtain ⟨accesses, heq, -⟩ := inetAccept_not_valid metas env.fresh env.beyond hnot
  unfold arrive
  rw [hframe, heq]
  exact ⟨rfl, rfl⟩

/-- The datagram that is cut. -/
structure Source (mtu : Nat) (frame : List Byte) (d : SentDatagram) : Prop where
  cuts : Cuts mtu d.payload.length
  payload : frame.drop (linkSize + inetSize) = d.payload
  length : frame.length = linkSize + inetSize + d.payload.length
  version : d.header.version = 4
  ihl : d.header.ihl = 5

theorem Source.isFragment {frame : List Byte} {poff : Nat} (hs : Source mtu frame d)
    (behind : Mem) (hcore : t.core = d.header.core) (hleft : f.toNat * 8 + left = d.payload.length)
    (hpoff : poff = linkSize + inetSize + f.toNat * 8) :
    IsFragment d (fragmentHeader t (fragField mtu left 0#16 f) (cop mtu left)).cleared fun k =>
      blit behind 0 ((fragmentHeader t (fragField mtu left 0#16 f) (cop mtu left)).bytes ++
        (frame.drop poff).take (cop mtu left)) (inetSize + k) := by
  have hfits := hs.cuts.fits
  have hcop := hs.cuts.cop_le left
  have hf : f.toNat < 8192 := by
    unfold linkSize inetSize at hfits
    omega
  have hlen := dataLen_fragmentHeader t (fragField mtu left 0#16 f)
    (c := cop mtu left) (by unfold linkSize at hfits; omega)
  have hdata : (frame.drop poff).take (cop mtu left) =
      (d.payload.drop (f.toNat * 8)).take (cop mtu left) := by
    rw [hpoff, ← List.drop_drop, hs.payload]
  refine ⟨key_of_core hcore, ?_, ?_, ?_⟩
  · rw [offset_fragmentHeader hf, hlen]
    omega
  · rw [offset_fragmentHeader hf, hlen, hdata]
    have hlen' : ((d.payload.drop (f.toNat * 8)).take (cop mtu left)).length = cop mtu left := by
      rw [List.length_take, List.length_drop]
      omega
    have hslice := slice_of_getD (blit_data (fragmentHeader t (fragField mtu left 0#16 f)
      (cop mtu left)) ((d.payload.drop (f.toNat * 8)).take (cop mtu left)) behind)
    rwa [hlen'] at hslice
  · rw [offset_fragmentHeader hf, hlen, moreFragments_fragmentHeader hf, decide_eq_false_iff_not,
      not_not]
    by_cases hlast : left ≤ room mtu
    · rw [cop_last hlast]
      exact iff_of_true hlast hleft
    · obtain ⟨-, -, hlt⟩ := hs.cuts.cop_more hlast
      exact iff_of_false hlast (by omega)

/-- **A fragment arrives.** -/
theorem Source.arrive {frame sent : List Byte} {poff : Nat} (hs : Source mtu frame d)
    (env : Surroundings) (hp : Partial d (f.toNat * 8) metas) (hcore : t.core = d.header.core)
    (hleft : f.toNat * 8 + left = d.payload.length)
    (hpoff : poff = linkSize + inetSize + f.toNat * 8)
    (hlen : sent.length = linkSize + inetSize + cop mtu left)
    (hsent : sent.drop linkSize =
      (fragmentHeader t (fragField mtu left 0#16 f) (cop mtu left)).bytes ++
        (frame.drop poff).take (cop mtu left)) :
    (¬ left ≤ room mtu → (arrive env metas sent).1 = none ∧
      Partial d (f.toNat * 8 + cop mtu left) (arrive env metas sent).2.1) ∧
    (left ≤ room mtu → ∃ r, (arrive env metas sent).1 = some r ∧
      Original d.header d.payload r) := by
  obtain ⟨hge, hlt, hfits⟩ := id hs.cuts
  have hroom := hs.cuts.room_eq
  have hcop := hs.cuts.cop_le left
  unfold linkSize inetSize at hge hlt hfits
  have hf : f.toNat < 8192 := by omega
  -- the first fragment is not the last one
  have hfirst : left ≤ room mtu → f ≠ 0#16 := by
    rintro hlast rfl
    rw [BitVec.toNat_ofNat] at hleft
    omega
  have hload := loadInet_blit (fragmentHeader t (fragField mtu left 0#16 f) (cop mtu left))
    ((frame.drop poff).take (cop mtu left)) env.behind
  have hfrag := hs.isFragment env.behind hcore hleft hpoff
  have hdata := dataLen_fragmentHeader t (fragField mtu left 0#16 f)
    (c := cop mtu left) (by unfold inetSize; omega)
  have hlong : inetSize ≤ sent.length - linkSize := by
    rw [hlen]
    omega
  obtain ⟨hmore, hlast⟩ := inetAccept_partial env.fresh env.beyond hp hs.version hs.ihl hlong
    (by rw [hload, core_fragmentHeader]; exact hcore) (by rw [hload]; rfl)
    (by rw [hload]; exact isFragment_fragmentHeader hf hfirst)
    (by rw [hload]; exact offset_fragmentHeader hf) (by rw [hload]; exact hfrag)
  rw [hload, moreFragments_fragmentHeader hf] at hmore hlast
  rw [hdata, decide_eq_true_eq] at hmore
  rw [decide_eq_false_iff_not, not_not] at hlast
  unfold Net.arrive
  rw [hsent]
  exact ⟨hmore, hlast⟩

end Lyre.Net
