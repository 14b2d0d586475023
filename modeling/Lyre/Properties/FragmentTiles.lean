import Lyre.Properties.FragmentRuns
import Lyre.Properties.HeaderChecksum

/-!
# The fragments of a datagram tile its payload

`net_fragment` keeps three counters: `left` and `poff` in bytes, and `fragoff` in units of 8 bytes.
They agree before every pass, and the last pass is the one that takes the rest. So what the frames
carry are slices of the payload, one behind the other.
-/

namespace Lyre.Net

open Infra.Bytes Infra.Ring Slabs

/-! ## Frames -/

/-- What a frame carries behind its headers. -/
def frameData (frame : List Byte) : List Byte := frame.drop (linkSize + inetSize)

/-- A frame that carries the payload from `off` on; `last` says that no other one comes behind. -/
structure Tile (mtu : Nat) (payload : List Byte) (off : Nat) (frame : List Byte) (last : Bool) :
    Prop where
  fits : frame.length ≤ mtu
  offset : (frameHeader frame).offset = off
  data : frameData frame = (payload.drop off).take (frameData frame).length
  len : (frameHeader frame).length = inetSize + (frameData frame).length
  more : (frameHeader frame).moreFragments = !last
  units : last = false → 0 < (frameData frame).length ∧ 8 ∣ (frameData frame).length

/-- The frames carry the payload from `off` on. -/
def TilesFrom (mtu : Nat) (payload : List Byte) : Nat → List (List Byte) → Prop
  | off, [] => off = payload.length
  | off, frame :: frames =>
    Tile mtu payload off frame frames.isEmpty ∧
      TilesFrom mtu payload (off + (frameData frame).length) frames

/-- The frames tile the payload. -/
structure Tiles (mtu : Nat) (payload : List Byte) (frames : List (List Byte)) : Prop where
  fits : ∀ frame ∈ frames, frame.length ≤ mtu
  /-- Each one carries the slice that begins at its offset. -/
  slices : ∀ frame ∈ frames, frameData frame =
    (payload.drop (frameHeader frame).offset).take (frameData frame).length
  len : ∀ frame ∈ frames, (frameHeader frame).length = inetSize + (frameData frame).length
  /-- All but the last. -/
  more : ∀ frame ∈ frames.dropLast, (frameHeader frame).moreFragments = true ∧
    0 < (frameData frame).length ∧ 8 ∣ (frameData frame).length
  last : ∀ frame ∈ frames.getLast?, (frameHeader frame).moreFragments = false
  concat : (frames.map frameData).flatten = payload

variable {mtu n off : Nat} {payload frame : List Byte} {frames : List (List Byte)}

theorem TilesFrom.concat : ∀ {frames : List (List Byte)} {off : Nat},
    TilesFrom mtu payload off frames → (frames.map frameData).flatten = payload.drop off
  | [], off, h => by
    have hoff : off = payload.length := h
    rw [hoff, List.drop_length]
    rfl
  | frame :: frames, off, ⟨htile, hrest⟩ => by
    rw [List.map_cons, List.flatten_cons, hrest.concat, ← List.drop_drop]
    nth_rewrite 1 [htile.data]
    exact List.take_append_drop _ _

theorem TilesFrom.exists_tile : ∀ {frames : List (List Byte)} {off : Nat},
    TilesFrom mtu payload off frames → ∀ frame ∈ frames, ∃ off' last,
      Tile mtu payload off' frame last
  | frame :: frames, off, ⟨htile, hrest⟩, frame', hmem => by
    rcases List.mem_cons.mp hmem with rfl | hmem
    · exact ⟨off, _, htile⟩
    · exact hrest.exists_tile frame' hmem

theorem TilesFrom.more : ∀ {frames : List (List Byte)} {off : Nat},
    TilesFrom mtu payload off frames → ∀ frame ∈ frames.dropLast, ∃ off',
      Tile mtu payload off' frame false
  | [_], _, _, frame', hmem => nomatch hmem
  | frame :: next :: frames, off, ⟨htile, hrest⟩, frame', hmem => by
    rw [List.dropLast_cons_cons] at hmem
    rcases List.mem_cons.mp hmem with rfl | hmem
    · exact ⟨off, htile⟩
    · exact hrest.more frame' hmem

theorem TilesFrom.last : ∀ {frames : List (List Byte)} {off : Nat},
    TilesFrom mtu payload off frames → ∀ frame ∈ frames.getLast?, ∃ off',
      Tile mtu payload off' frame true
  | [frame], off, ⟨htile, _⟩, frame', hmem => by
    obtain rfl : frame = frame' := Option.some.inj hmem
    exact ⟨off, htile⟩
  | frame :: next :: frames, off, ⟨_, hrest⟩, frame', hmem => by
    rw [List.getLast?_cons_cons] at hmem
    exact hrest.last frame' hmem

theorem TilesFrom.tiles (h : TilesFrom mtu payload 0 frames) : Tiles mtu payload frames where
  fits frame hmem := by
    obtain ⟨off, last, htile⟩ := h.exists_tile frame hmem
    exact htile.fits
  slices frame hmem := by
    obtain ⟨off, last, htile⟩ := h.exists_tile frame hmem
    rw [htile.offset]
    exact htile.data
  len frame hmem := by
    obtain ⟨off, last, htile⟩ := h.exists_tile frame hmem
    exact htile.len
  more frame hmem := by
    obtain ⟨off, htile⟩ := h.more frame hmem
    exact ⟨htile.more, htile.units rfl⟩
  last frame hmem := by
    obtain ⟨off, htile⟩ := h.last frame hmem
    exact htile.more
  concat := h.concat

/-! ## The loop -/

variable {orig : Block} {pages : List (Nat × Nat)} {live : List Block} {v : Fragmenting}
  {prev : Option Block} {page : Nat → Nat} {fuel : Nat} {t : InetHeader} {b : Block}

/-- The header of a frame is what its bytes behind the link layer begin with. -/
theorem frameHeader_of_drop {h : InetHeader} {data : List Byte}
    (hdrop : frame.drop linkSize = h.bytes ++ data) :
    frameHeader frame = h ∧ frameData frame = data := by
  constructor
  · unfold frameHeader
    rw [hdrop]
    refine loadInet_of_bytes h fun k hk => ?_
    have hlen : k < h.bytes.length := hk
    rw [memOf, List.getD_eq_getElem?_getD, List.getD_eq_getElem?_getD,
      List.getElem?_append_left hlen]
  · unfold frameData
    rw [← List.drop_drop, hdrop]
    exact List.drop_left' (length_bytes h)

theorem length_fragmentHeader (t : InetHeader) (tmp : BitVec 16) {c : Nat}
    (hc : c + inetSize < 2 ^ 16) : (fragmentHeader t tmp c).length = inetSize + c := by
  have heq : (fragmentHeader t tmp c).length =
      (bswap16 (bswap16 (BitVec.ofNat 16 (c + inetSize)))).toNat := rfl
  rw [heq, bswap16_bswap16, BitVec.toNat_ofNat, Nat.mod_eq_of_lt hc, Nat.add_comm]

/-- **A pass transmits a tile**, and the loop goes on behind it. -/
theorem Stepped.tile (hc : Cuts mtu n) (hframe : frame.length = linkSize + inetSize + n)
    (h : Stepped mtu frame orig live fuel page pages v t b) (hpoff : v.poff + v.left = frame.length)
    (hoff : v.fragoff.toNat * 8 + v.left = n) :
    Tile mtu (frameData frame) (n - v.left) (fragmentPass mtu orig.addr 0#16 (page 0) v).1
        (decide (v.left ≤ room mtu)) ∧
      (frameData (fragmentPass mtu orig.addr 0#16 (page 0) v).1).length = cop mtu v.left := by
  have hfits := hc.fits
  have hcop := hc.cop_le v.left
  obtain ⟨hheader, hdata⟩ := frameHeader_of_drop h.packet
  have hlen : (frameData (fragmentPass mtu orig.addr 0#16 (page 0) v).1).length =
      cop mtu v.left := by
    unfold frameData
    rw [List.length_drop, h.length]
    omega
  unfold linkSize inetSize at hframe hfits
  have hf : v.fragoff.toNat < 8192 := by omega
  refine ⟨⟨?_, ?_, ?_, ?_, ?_, ?_⟩, hlen⟩
  · rw [h.length]
    exact hc.cop_fits v.left
  · rw [hheader]
    have hoffset : (fragmentHeader t (fragField mtu v.left 0#16 v.fragoff)
        (cop mtu v.left)).cleared.offset = v.fragoff.toNat * 8 := offset_fragmentHeader hf
    exact hoffset.trans (by omega)
  · rw [hlen, hdata]
    unfold frameData
    rw [List.drop_drop]
    congr 2
    unfold linkSize inetSize
    omega
  · rw [hheader, hlen]
    exact length_fragmentHeader t _ (by unfold inetSize; omega)
  · rw [hheader]
    have hmore : (fragmentHeader t (fragField mtu v.left 0#16 v.fragoff)
        (cop mtu v.left)).cleared.moreFragments = decide (¬ v.left ≤ room mtu) :=
      moreFragments_fragmentHeader hf
    rw [← decide_not]
    exact hmore
  · intro hlast
    obtain ⟨hmore, hpos, -⟩ := hc.cop_more (of_decide_eq_false hlast)
    rw [hlen]
    exact ⟨hpos, hmore ▸ Nat.dvd_mul_left 8 _⟩

theorem fragmentLoop_succ_state (mtu buffer : Nat) (mf : BitVec 16) (fuel : Nat)
    (page : Nat → Nat) (h : v.left ≠ 0) :
    (fragmentLoop mtu buffer mf (fuel + 1) page v).2 =
      (fragmentLoop mtu buffer mf fuel (fun k => page (k + 1))
        (fragmentPass mtu buffer mf (page 0) v).2).2 := by
  rw [fragmentLoop, if_neg h]

theorem fragmentLoop_zero_state (mtu buffer : Nat) (mf : BitVec 16) (fuel : Nat)
    (page : Nat → Nat) (h : v.left = 0) : (fragmentLoop mtu buffer mf fuel page v).2 = v := by
  cases fuel with
  | zero => rfl
  | succ fuel => rw [fragmentLoop, if_pos h]

theorem fragmentLoop_isEmpty (mtu buffer : Nat) (mf : BitVec 16) (page : Nat → Nat)
    (hfuel : v.left ≤ fuel) :
    (fragmentLoop mtu buffer mf fuel page v).1.isEmpty = decide (v.left = 0) := by
  by_cases hzero : v.left = 0
  · rw [fragmentLoop_zero _ _ _ _ _ hzero, decide_eq_true hzero]
    rfl
  · cases fuel with
    | zero => omega
    | succ fuel =>
      rw [fragmentLoop_succ _ _ _ _ _ hzero, decide_eq_false hzero]
      rfl

/-- **The run of the loop**: it ends, and its frames carry what was left. -/
theorem Looping.tilesFrom (hc : Cuts mtu n) (hframe : frame.length = linkSize + inetSize + n) :
    ∀ {fuel : Nat} {page : Nat → Nat} {pages : List (Nat × Nat)} {v : Fragmenting}
      {prev : Option Block}, Looping mtu frame orig live fuel page pages v prev → v.left ≤ fuel →
      (v.left ≠ 0 → v.fragoff.toNat * 8 + v.left = n) →
      (fragmentLoop mtu orig.addr 0#16 fuel page v).2.left = 0 ∧
        TilesFrom mtu (frameData frame) (n - v.left) (fragmentLoop mtu orig.addr 0#16 fuel page v).1
  | fuel, page, pages, v, prev, h, hfuel, hoff => by
    have hdata : (frameData frame).length = n := by
      unfold frameData
      rw [List.length_drop, hframe]
      omega
    by_cases hne : v.left = 0
    · rw [fragmentLoop_zero _ _ _ _ _ hne, fragmentLoop_zero_state _ _ _ _ _ hne, hne]
      exact ⟨rfl, hdata.symm⟩
    · cases fuel with
      | zero => omega
      | succ fuel =>
        have hfits := hc.fits
        have hcop := hc.cop_le v.left
        have hpos := hc.cop_pos hne
        have hpoff := h.running.poff
        have hleft : (fragmentPass mtu orig.addr 0#16 (page 0) v).2.left =
            v.left - cop mtu v.left := rfl
        obtain ⟨t, b, hstep, -⟩ := h.step hcop (hframe ▸ hfits) hne
        obtain ⟨htile, hlen⟩ := hstep.tile hc hframe hpoff (hoff hne)
        obtain ⟨hend, htiles⟩ := Looping.tilesFrom hc hframe hstep.looping (by omega) (by
          intro hmore
          -- something is left, so this was not the last pass
          have hroom : ¬ v.left ≤ room mtu := by
            intro hlast
            rw [hleft, cop_last hlast] at hmore
            omega
          rw [hc.fragoff_next orig.addr (page 0) hroom (hoff hne), hleft]
          have := hoff hne
          omega)
        have hlast : (fragmentLoop mtu orig.addr 0#16 fuel (fun k => page (k + 1))
            (fragmentPass mtu orig.addr 0#16 (page 0) v).2).1.isEmpty =
              decide (v.left ≤ room mtu) := by
          rw [fragmentLoop_isEmpty _ _ _ _ (by omega), hleft, decide_eq_decide]
          by_cases hroom : v.left ≤ room mtu
          · rw [cop_last hroom]
            exact iff_of_true (Nat.sub_self _) hroom
          · obtain ⟨-, -, hlt⟩ := hc.cop_more hroom
            exact iff_of_false (by omega) hroom
        have hbehind : n - v.left + cop mtu v.left =
            n - (fragmentPass mtu orig.addr 0#16 (page 0) v).2.left := by
          have := hoff hne
          omega
        rw [fragmentLoop_succ _ _ _ _ _ hne, fragmentLoop_succ_state _ _ _ _ _ hne]
        refine ⟨hend, ?_, ?_⟩
        · rw [hlast]
          exact htile
        · rw [hlen, hbehind]
          exact htiles

/-! ## `net_fragment` -/

/-- At most `fuel` passes of the loop of `net_fragment`, with the variables that they leave. -/
def fragmentRun (fuel mtu : Nat) (heap : Slabs.State) (page : Nat → Nat) (buffer length : Nat) :
    List (List Byte) × Fragmenting :=
  let tmp := bswap16 (load16 heap.mem (buffer + linkSize + 6))
  let left := (length - inetSize - linkSize) % 2 ^ 16
  fragmentLoop mtu buffer (tmp &&& ipFlagMF) fuel page
    { heap, inetheader := buffer + linkSize, left, poff := linkSize + inetSize,
      fragoff := tmp &&& ipOffMask }

/-- The loop of `net_fragment` ends. -/
def FragmentEnds (mtu : Nat) (heap : Slabs.State) (page : Nat → Nat) (buffer length : Nat) : Prop :=
  ∃ fuel, (fragmentRun fuel mtu heap page buffer length).2.left = 0

theorem netFragment_eq_run (mtu : Nat) (heap : Slabs.State) (page : Nat → Nat)
    (buffer length : Nat) :
    (netFragment mtu heap page buffer length).1 =
      (fragmentRun ((length - inetSize - linkSize) % 2 ^ 16) mtu heap page buffer length).1 := by
  unfold netFragment fragmentRun
  dsimp only

/-- The variables before the first pass. -/
def begun (heap : Slabs.State) (buffer n : Nat) : Fragmenting where
  heap
  inetheader := buffer + linkSize
  left := n
  poff := linkSize + inetSize
  fragoff := 0

variable {h : InetHeader} {heap : Slabs.State}

theorem fields_of_whole (hwhole : h.isFragment = false) :
    bswap16 h.fragoff &&& ipFlagMF = 0#16 ∧ bswap16 h.fragoff &&& ipOffMask = 0#16 := by
  have hzero : h.fragoff &&& bswap16 (ipFlagMF ||| ipOffMask) = 0#16 := by
    unfold InetHeader.isFragment at hwhole
    exact not_not.mp (of_decide_eq_false hwhole)
  have hboth : bswap16 h.fragoff &&& (ipFlagMF ||| ipOffMask) = 0#16 := by
    have hswap := congrArg bswap16 hzero
    rwa [← bswap16_and, bswap16_bswap16] at hswap
  have hflag : (ipFlagMF ||| ipOffMask) &&& ipFlagMF = ipFlagMF := by decide
  have hmask : (ipFlagMF ||| ipOffMask) &&& ipOffMask = ipOffMask := by decide
  constructor
  · rw [← hflag, ← BitVec.and_assoc, hboth, BitVec.zero_and]
  · rw [← hmask, ← BitVec.and_assoc, hboth, BitVec.zero_and]

theorem begun_template (hr : Running frame orig pages live (begun heap orig.addr n)) :
    (begun heap orig.addr n).template = frameHeader frame := by
  have hle := hr.header
  have hlen := hr.poff
  refine loadInet_congr fun k hk => ?_
  have hmem : (begun heap orig.addr n).heap.mem (orig.addr + (linkSize + k)) =
      frame.getD (linkSize + k) 0 := hr.bytes (linkSize + k) (by omega)
  have haddr : (begun heap orig.addr n).inetheader + k = orig.addr + (linkSize + k) :=
    Nat.add_assoc _ _ _
  rw [haddr, hmem, memOf, List.getD_eq_getElem?_getD, List.getD_eq_getElem?_getD,
    List.getElem?_drop]

theorem fragmentRun_eq (hr : Running frame orig pages live (begun heap orig.addr n))
    (hwhole : (frameHeader frame).isFragment = false) (hframe : frame.length < 2 ^ 16)
    (fuel mtu : Nat) (page : Nat → Nat) :
    fragmentRun fuel mtu heap page orig.addr frame.length =
      fragmentLoop mtu orig.addr 0#16 fuel page (begun heap orig.addr n) := by
  have hlen : linkSize + inetSize + n = frame.length := hr.poff
  have hfragoff : load16 heap.mem (orig.addr + linkSize + 6) = (frameHeader frame).fragoff := by
    rw [← begun_template hr]
    rfl
  have hleft : (frame.length - inetSize - linkSize) % 2 ^ 16 = n := by omega
  obtain ⟨hflag, hoff⟩ := fields_of_whole hwhole
  unfold fragmentRun begun
  dsimp only
  rw [hfragoff, hleft, hflag, hoff]
  rfl

/-- **The frames of `net_fragment` tile the payload**, and its loop ends. -/
theorem netFragment_tiles (hmtu : 42 ≤ mtu) (hlong : mtu < 34 + n) (hfits : 34 + n ≤ 65535)
    (hwhole : (frameHeader frame).isFragment = false)
    (h : Looping mtu frame orig live n page pages (begun heap orig.addr n) none) :
    FragmentEnds mtu heap page orig.addr frame.length ∧
      Tiles mtu (frameData frame) (netFragment mtu heap page orig.addr frame.length).1 := by
  have hframe : frame.length = linkSize + inetSize + n := h.running.poff.symm
  have hc : Cuts mtu n := by
    refine ⟨hmtu, hlong, ?_⟩
    unfold linkSize inetSize
    omega
  have hleft : (frame.length - inetSize - linkSize) % 2 ^ 16 = n := by
    have hlt := hc.fits
    omega
  have hrun := fragmentRun_eq h.running hwhole (hframe ▸ hc.fits) n mtu page
  obtain ⟨hend, htiles⟩ := h.tilesFrom hc hframe (Nat.le_refl n) fun _ => Nat.zero_add n
  have hzero : n - (begun heap orig.addr n).left = 0 := Nat.sub_self n
  rw [hzero] at htiles
  rw [netFragment_eq_run, hleft, hrun]
  refine ⟨⟨n, ?_⟩, htiles.tiles⟩
  rw [hrun]
  exact hend

/-- The loop begins in the block that `net_sendinet` has allocated. -/
theorem SendOk.looping (hinv : Inv heap pages live) (hok : SendOk mtu heap pages live page n frame)
    (hlen : frame.length = linkSize + inetSize + n) (hframe : frame.length < 2 ^ 16) :
    Looping mtu frame (frameBlock heap (page 0) frame) live n (fun k => page (k + 1))
      (pagesAfter heap pages frame.length (page 0))
      (begun (frameHeap heap (page 0) frame) (frameBlock heap (page 0) frame).addr n) none :=
  ⟨running_first hinv hok.fresh hok.alloc hlen hframe, rfl, hok.passes⟩

/-- Eighty bytes in two frames. -/
theorem netFragment_tiles_sample :
    Tiles smallAdapter.mtu (frameData (cutFrame 80))
      (netFragment smallAdapter.mtu (frameHeap sampleBoot.st (supply 0x100000 0) (cutFrame 80))
        (fun k => supply 0x100000 (k + 1))
        (frameBlock sampleBoot.st (supply 0x100000 0) (cutFrame 80)).addr
        (cutFrame 80).length).1 := by
  have hwhole : (frameHeader (cutFrame 80)).isFragment = false := by
    unfold cutFrame
    rw [frameHeader_etherFrame]
    exact isFragment_sendHeader ..
  have hlen : (cutFrame 80).length = linkSize + inetSize + 80 := by
    unfold cutFrame
    rw [length_etherFrame, List.length_append, length_bytes, List.length_replicate, Nat.add_assoc]
  exact (netFragment_tiles (by decide) (by decide) (by decide) hwhole
    ((cutFrame_ok (n := 80) (by decide) (by decide)).looping sampleBoot_inv hlen
      (by rw [hlen]; decide))).2

end Lyre.Net
