import Lyre.Properties.FragmentArrival
import Lyre.Properties.SlabRuns

/-!
# All fragments of a datagram

The fragments of a frame arrive in the order in which they are sent. Induction on the passes of the
loop in `net_fragment` says what the receiver has of the datagram after each of them: it gets the
datagram just if the header is never copied from a block that has been handed out again.
-/

namespace Lyre.Net

open Infra.Bytes Infra.Ring Slabs

variable {mtu left n : Nat} {t : InetHeader} {d : SentDatagram} {metas : List Reassmetadata}

/-! ## Buffers -/

/-- What the allocator is asked for, and the page that `pmm.c` returns if it is needed. -/
structure Buffer where
  size : Nat
  page : Nat
  deriving DecidableEq, Repr

/-- The buffers of the fragments. -/
def buffers (mtu : Nat) : Nat → (Nat → Nat) → Nat → List Buffer
  | 0, _, _ => []
  | fuel + 1, page, left =>
    if left = 0 then []
    else ⟨linkSize + inetSize + cop mtu left, page 0⟩ ::
      buffers mtu fuel (fun k => page (k + 1)) (left - cop mtu left)

/-- The next buffer `b` does not take the place of `a`, which has been freed: it is of another slab,
or its pages are not those where `a` began. -/
def Leaves (a b : Buffer) : Prop :=
  match serve a.size, serve b.size with
  | .slab i, .slab j => i ≠ j
  | .pages _, .pages n =>
    ¬ (b.page ≤ a.page + pageSize ∧ a.page + pageSize < b.page + (n + 1) * pageSize)
  | _, _ => True

/-- The block of a buffer. -/
structure Buffer.At (a : Buffer) (b : Block) : Prop where
  owner : b.owner = serve a.size
  addr : ∀ n, b.owner = .pages n → b.addr = a.page + pageSize

theorem Buffer.At.spares {a : Buffer} {b : Block} (h : a.At b) (size page : Nat) :
    Spares b size page ↔ Leaves a ⟨size, page⟩ := by
  unfold Spares Leaves
  dsimp only
  rw [h.owner]
  cases ho : serve a.size with
  | slab i =>
    cases serve size with
    | slab j => rfl
    | pages n => rfl
  | pages n =>
    have haddr := h.addr n (h.owner.trans ho)
    cases serve size with
    | slab j => rfl
    | pages k =>
      show ¬ (page ≤ b.addr ∧ b.addr < page + (k + 1) * pageSize) ↔
        ¬ (page ≤ a.page + pageSize ∧ a.page + pageSize < page + (k + 1) * pageSize)
      rw [haddr]

/-! ## The loop -/

variable {frame : List Byte} {orig : Block} {pages : List (Nat × Nat)} {live : List Block}
  {v : Fragmenting} {prev : Option Block} {page : Nat → Nat} {fuel : Nat} {env : Nat → Surroundings}

/-- No allocation of the loop fails, and the pages that `pmm.c` returns are not in use. -/
def PassesOk (mtu buffer : Nat) (live : List Block) :
    Nat → (Nat → Nat) → List (Nat × Nat) → Fragmenting → Prop
  | 0, _, _, _ => True
  | fuel + 1, page, pages, v =>
    v.left ≠ 0 →
      PageOk v.heap pages live (linkSize + inetSize + cop mtu v.left) (page 0) ∧
      (slabAlloc v.heap (linkSize + inetSize + cop mtu v.left) (page 0)).1 ≠ 0 ∧
      PassesOk mtu buffer live fuel (fun k => page (k + 1))
        (pagesAfter v.heap pages (linkSize + inetSize + cop mtu v.left) (page 0))
        (fragmentPass mtu buffer 0#16 (page 0) v).2

/-- The header that the next fragment copies. -/
def Fragmenting.template (v : Fragmenting) : InetHeader :=
  loadInet fun k => v.heap.mem (v.inetheader + k)

/-- The state before a pass. -/
structure Looping (mtu : Nat) (frame : List Byte) (orig : Block) (live : List Block) (fuel : Nat)
    (page : Nat → Nat) (pages : List (Nat × Nat)) (v : Fragmenting) (prev : Option Block) :
    Prop where
  running : Running frame orig pages live v
  header : HeaderAt orig pages live v prev
  ok : PassesOk mtu orig.addr (orig :: live) fuel page pages v

/-- What a pass transmits with a header that is made from `t`, and the state behind it. -/
structure Stepped (mtu : Nat) (frame : List Byte) (orig : Block) (live : List Block) (fuel : Nat)
    (page : Nat → Nat) (pages : List (Nat × Nat)) (v : Fragmenting) (t : InetHeader) (b : Block) :
    Prop where
  length : (fragmentPass mtu orig.addr 0#16 (page 0) v).1.length =
    linkSize + inetSize + cop mtu v.left
  packet : (fragmentPass mtu orig.addr 0#16 (page 0) v).1.drop linkSize =
    (fragmentHeader t (fragField mtu v.left 0#16 v.fragoff) (cop mtu v.left)).bytes ++
      (frame.drop v.poff).take (cop mtu v.left)
  template : (fragmentPass mtu orig.addr 0#16 (page 0) v).2.template =
    fragmentHeader t (fragField mtu v.left 0#16 v.fragoff) (cop mtu v.left)
  looping : Looping mtu frame orig live fuel (fun k => page (k + 1))
    (pagesAfter v.heap pages (linkSize + inetSize + cop mtu v.left) (page 0))
    (fragmentPass mtu orig.addr 0#16 (page 0) v).2 (some b)
  block : Buffer.At ⟨linkSize + inetSize + cop mtu v.left, page 0⟩ b

/-- **A pass.** The header is copied from the one before, or from a block that has been cleared. -/
theorem Looping.step (h : Looping mtu frame orig live (fuel + 1) page pages v prev)
    (hcop : cop mtu v.left ≤ v.left) (hframe : frame.length < 2 ^ 16) (hne : v.left ≠ 0) :
    ∃ t b, Stepped mtu frame orig live fuel page pages v t b ∧
      (Kept (linkSize + inetSize + cop mtu v.left) (page 0) prev → t = v.template) ∧
      (¬ Kept (linkSize + inetSize + cop mtu v.left) (page 0) prev → t = clearedHeader) := by
  obtain ⟨hpage, halloc, hok⟩ := h.ok hne
  have hpoff := h.running.poff
  have hheader := h.running.header
  obtain ⟨-, hkept, hlost⟩ := header_after_alloc h.running h.header (Nat.le_add_right _ _)
    (by omega) hpage halloc
  have hpass := fragmentPass_passed mtu 0#16 h.running h.header hcop hframe hpage halloc
  obtain ⟨b, hat, howner, haddr⟩ := hpass.block
  refine ⟨_, b, ⟨hpass.length, hpass.packet, hpass.header, ⟨hpass.running, hat, hok⟩,
    ⟨howner, haddr⟩⟩, hkept, hlost⟩

theorem fragmentLoop_succ (mtu buffer : Nat) (mf : BitVec 16) (fuel : Nat) (page : Nat → Nat)
    (h : v.left ≠ 0) :
    (fragmentLoop mtu buffer mf (fuel + 1) page v).1 = (fragmentPass mtu buffer mf (page 0) v).1 ::
      (fragmentLoop mtu buffer mf fuel (fun k => page (k + 1))
        (fragmentPass mtu buffer mf (page 0) v).2).1 := by
  rw [fragmentLoop, if_neg h]

theorem fragmentLoop_zero (mtu buffer : Nat) (mf : BitVec 16) (fuel : Nat) (page : Nat → Nat)
    (h : v.left = 0) : (fragmentLoop mtu buffer mf fuel page v).1 = [] := by
  cases fuel with
  | zero => rfl
  | succ fuel => rw [fragmentLoop, if_pos h]

theorem Cuts.fragoff_next (hc : Cuts mtu n) (buffer p : Nat) (hroom : ¬ v.left ≤ room mtu)
    (hleft : v.fragoff.toNat * 8 + v.left = n) :
    (fragmentPass mtu buffer 0#16 p v).2.fragoff.toNat * 8 =
      v.fragoff.toNat * 8 + cop mtu v.left := by
  obtain ⟨hcop, -, hlt⟩ := hc.cop_more hroom
  have hfits := hc.fits
  have heq : (fragmentPass mtu buffer 0#16 p v).2.fragoff =
      v.fragoff + BitVec.ofNat 16 (nfb mtu) := rfl
  rw [heq, BitVec.toNat_add, BitVec.toNat_ofNat]
  omega

theorem Stepped.dropped {b : Block} (h : Stepped mtu frame orig live fuel page pages v t b)
    (ht : t.version = 0) (env : Nat → Surroundings) (metas : List Reassmetadata)
    (frames : List (List Byte)) :
    receiveFrames env metas ((fragmentPass mtu orig.addr 0#16 (page 0) v).1 :: frames) =
        receiveFrames (fun k => env (k + 1)) metas frames ∧
      (fragmentPass mtu orig.addr 0#16 (page 0) v).2.template.version = 0 := by
  have hzero : (fragmentHeader t (fragField mtu v.left 0#16 v.fragoff) (cop mtu v.left)).version =
      0 := ht
  obtain ⟨hnone, hmetas⟩ := arrive_dropped (env 0) metas h.packet (by rw [hzero]; decide)
  rw [receiveFrames_cons, hnone, hmetas, Option.toList_none, List.nil_append, h.template]
  exact ⟨rfl, hzero⟩

theorem Looping.lost (hc : Cuts mtu n) (hframe : frame.length < 2 ^ 16) :
    ∀ {fuel : Nat} {page : Nat → Nat} {pages : List (Nat × Nat)} {v : Fragmenting}
      {prev : Option Block} {env : Nat → Surroundings} {metas : List Reassmetadata},
      Looping mtu frame orig live fuel page pages v prev → v.template.version = 0 →
      receiveFrames env metas (fragmentLoop mtu orig.addr 0#16 fuel page v).1 = []
  | 0, _, _, _, _, _, _, _, _ => rfl
  | fuel + 1, page, pages, v, prev, env, metas, h, hversion => by
    by_cases hne : v.left = 0
    · rw [fragmentLoop_zero _ _ _ _ _ hne]
      rfl
    obtain ⟨t, b, hstep, hkept, hlost⟩ := h.step (hc.cop_le _) hframe hne
    have ht : t.version = 0 := by
      by_cases hk : Kept (linkSize + inetSize + cop mtu v.left) (page 0) prev
      · rw [hkept hk, hversion]
      · rw [hlost hk]
        rfl
    obtain ⟨hframes, hversion'⟩ := hstep.dropped ht env metas
      (fragmentLoop mtu orig.addr 0#16 fuel (fun k => page (k + 1)) _).1
    rw [fragmentLoop_succ _ _ _ _ _ hne, hframes]
    exact Looping.lost hc hframe hstep.looping hversion'

theorem buffers_zero (mtu fuel : Nat) (page : Nat → Nat) : buffers mtu fuel page 0 = [] := by
  cases fuel with
  | zero => rfl
  | succ fuel => rw [buffers, if_pos rfl]

theorem isChain_buffers (mtu : Nat) (page : Nat → Nat) {a : Buffer} (hne : left ≠ 0)
    (hfuel : left ≤ fuel) :
    (a :: buffers mtu fuel page left).IsChain Leaves ↔
      Leaves a ⟨linkSize + inetSize + cop mtu left, page 0⟩ ∧
        (buffers mtu fuel page left).IsChain Leaves := by
  cases fuel with
  | zero => exact absurd (Nat.le_zero.mp hfuel) hne
  | succ fuel => rw [buffers, if_neg hne, List.isChain_cons_cons]

/-- **The datagram comes through if the header does.** -/
theorem Looping.delivers (hs : Source mtu frame d) :
    ∀ {fuel : Nat} {page : Nat → Nat} {pages : List (Nat × Nat)} {v : Fragmenting}
      {prev : Option Block} {metas : List Reassmetadata} (env : Nat → Surroundings),
      Looping mtu frame orig live fuel page pages v prev → v.left ≠ 0 → v.left ≤ fuel →
      v.template.core = d.header.core → v.fragoff.toNat * 8 + v.left = d.payload.length →
      Partial d (v.fragoff.toNat * 8) metas →
      ((∃ r, receiveFrames env metas (fragmentLoop mtu orig.addr 0#16 fuel page v).1 = [r] ∧
          Original d.header d.payload r) ↔
        Kept (linkSize + inetSize + cop mtu v.left) (page 0) prev ∧
          (buffers mtu fuel page v.left).IsChain Leaves)
  | 0, _, _, _, _, _, _, _, hne, hfuel, _, _, _ => absurd (Nat.le_zero.mp hfuel) hne
  | fuel + 1, page, pages, v, prev, metas, env, h, hne, hfuel, hcore, hleft, hp => by
    have hpoff := h.running.poff
    have hlength := hs.length
    have hfits := hs.cuts.fits
    have hpos := hs.cuts.cop_pos hne
    have hleft' : (fragmentPass mtu orig.addr 0#16 (page 0) v).2.left = v.left - cop mtu v.left := rfl
    obtain ⟨t, b, hstep, hkept, hlost⟩ := h.step (hs.cuts.cop_le _) (by omega) hne
    rw [fragmentLoop_succ _ _ _ _ _ hne, buffers, if_neg hne]
    by_cases hk : Kept (linkSize + inetSize + cop mtu v.left) (page 0) prev
    · obtain rfl := hkept hk
      obtain ⟨hmore, hlast⟩ := hs.arrive (env 0) hp hcore hleft (by omega) hstep.length hstep.packet
      rw [receiveFrames_cons]
      by_cases hroom : v.left ≤ room mtu
      · -- the last fragment
        obtain ⟨r, hr, horig⟩ := hlast hroom
        have hcop := cop_last hroom
        rw [hr, fragmentLoop_zero _ _ _ _ _ (by omega), hcop, Nat.sub_self, buffers_zero]
        exact iff_of_true ⟨r, rfl, horig⟩ ⟨hcop ▸ hk, .singleton _⟩
      · -- what is behind it decides
        obtain ⟨hnone, hp'⟩ := hmore hroom
        obtain ⟨hcop, -, hlt⟩ := hs.cuts.cop_more hroom
        have hfragoff := hs.cuts.fragoff_next orig.addr (page 0) hroom hleft
        have hcore' : (fragmentPass mtu orig.addr 0#16 (page 0) v).2.template.core =
            d.header.core := by
          rw [hstep.template, core_fragmentHeader]
          exact hcore
        have ih := Looping.delivers hs (fun k => env (k + 1)) hstep.looping (by omega)
          (by omega) hcore' (by omega) (hfragoff ▸ hp')
        rw [hnone, Option.toList_none, List.nil_append, ih,
          isChain_buffers _ _ (by omega) (by omega), ← hleft']
        exact (and_congr_left' (hstep.block.spares _ _)).trans (and_iff_right hk).symm
    · have ht : t.version = 0 := by
        rw [hlost hk]
        rfl
      obtain ⟨hframes, hversion⟩ := hstep.dropped ht env metas
        (fragmentLoop mtu orig.addr 0#16 fuel (fun k => page (k + 1)) _).1
      rw [hframes, Looping.lost hs.cuts (by omega) hstep.looping hversion]
      refine iff_of_false ?_ fun hboth => hk hboth.1
      rintro ⟨r, hnil, -⟩
      cases hnil

/-! ## From the sender to the receiver -/

variable {heap : Slabs.State} {adapters : List Adapter} {adapter a : Adapter}
  {reply : Option MacAddr} {src dest : BitVec 32} {protocol : BitVec 8} {data : List Byte}
  {mac mac' : MacAddr} {type : BitVec 16}

/-- The heap of `net_sendinet` when the frame is in its buffer. -/
def frameHeap (heap : Slabs.State) (page : Nat) (frame : List Byte) : Slabs.State :=
  { (slabAlloc heap frame.length page).2 with
    mem := blit (slabAlloc heap frame.length page).2.mem (slabAlloc heap frame.length page).1 frame }

/-- The variables before the first pass. -/
def firstPass (heap : Slabs.State) (page n : Nat) (frame : List Byte) : Fragmenting where
  heap := frameHeap heap page frame
  inetheader := (slabAlloc heap frame.length page).1 + linkSize
  left := n
  poff := linkSize + inetSize
  fragoff := 0#16

/-- The block of the frame. -/
def frameBlock (heap : Slabs.State) (page : Nat) (frame : List Byte) : Block :=
  ⟨(slabAlloc heap frame.length page).1, frame.length, serve frame.length⟩

/-- No allocation fails where a frame with a payload of `n` bytes is sent, and the pages that
`pmm.c` returns are not in use. -/
structure SendOk (mtu : Nat) (heap : Slabs.State) (pages : List (Nat × Nat)) (live : List Block)
    (page : Nat → Nat) (n : Nat) (frame : List Byte) : Prop where
  fresh : PageOk heap pages live frame.length (page 0)
  alloc : (slabAlloc heap frame.length (page 0)).1 ≠ 0
  passes : PassesOk mtu (slabAlloc heap frame.length (page 0)).1
    (frameBlock heap (page 0) frame :: live) n (fun k => page (k + 1))
    (pagesAfter heap pages frame.length (page 0)) (firstPass heap (page 0) n frame)

theorem frame_bytes (mem : Mem) (buffer : Nat) {k : Nat} (hk : k < frame.length) :
    blit mem buffer frame (buffer + k) = frame.getD k 0 := by
  rw [blit, if_pos (Nat.le_add_right _ _), Nat.add_sub_cancel_left, List.getD_eq_getElem?_getD,
    List.getElem?_eq_getElem hk, Option.getD_some, Option.getD_some]

theorem running_first {p : Nat} (hinv : Inv heap pages live)
    (hpage : PageOk heap pages live frame.length p)
    (hne : (slabAlloc heap frame.length p).1 ≠ 0) (hlen : frame.length = linkSize + inetSize + n)
    (hframe : frame.length < 2 ^ 16) :
    Running frame (frameBlock heap p frame) (pagesAfter heap pages frame.length p) live
      (firstPass heap p n frame) := by
  have hinv' := ((slabAlloc_inv hinv (by unfold pageSize; omega) hpage).2 hne).1
  rw [ownerFor_eq hinv] at hinv'
  have hle := hinv'.size_le List.mem_cons_self
  refine ⟨?_, rfl, fun k hk => frame_bytes _ _ hk, hlen.symm, Nat.le_refl _⟩
  refine hinv'.of_sameOff List.mem_cons_self ?_ (Nat.le_refl _) (Nat.add_le_add_left hle _)
  exact fun x hx => blit_apply_of_not hx

theorem template_first {h : InetHeader}
    (hframe : frame = etherFrame mac mac' type (h.bytes ++ data)) (heap : Slabs.State) (page n : Nat) :
    (firstPass heap page n frame).template = h := by
  refine loadInet_of_bytes h fun k hk => ?_
  have hlen : frame.length = linkSize + (inetSize + data.length) := by
    rw [hframe, length_etherFrame, List.length_append, length_bytes]
  have hk' : k < h.bytes.length := hk
  have hdrop : frame.drop linkSize = h.bytes ++ data := by
    rw [hframe, drop_etherFrame]
  have hmem : (firstPass heap page n frame).heap.mem
      ((firstPass heap page n frame).inetheader + k) = frame.getD (linkSize + k) 0 := by
    unfold firstPass frameHeap
    dsimp only
    rw [Nat.add_assoc]
    exact frame_bytes _ _ (by omega)
  rw [hmem, List.getD_eq_getElem?_getD, List.getD_eq_getElem?_getD, ← List.getElem?_drop, hdrop,
    List.getElem?_append_left hk']

/-- `net_fragment` begins with the first pass. -/
theorem sendFragments_eq {h : InetHeader}
    (hframe : frame = etherFrame mac mac' type (h.bytes ++ data)) (hzero : h.fragoff = 0)
    (hfits : linkSize + inetSize + data.length < 2 ^ 16) (mtu : Nat) (heap : Slabs.State)
    (page : Nat → Nat) :
    (sendFragments mtu heap page frame).1 =
      (fragmentLoop mtu (slabAlloc heap frame.length (page 0)).1 0#16 data.length
        (fun k => page (k + 1)) (firstPass heap (page 0) data.length frame)).1 := by
  have hlen : frame.length = linkSize + (inetSize + data.length) := by
    rw [hframe, length_etherFrame, List.length_append, length_bytes]
  have hfragoff : load16 (frameHeap heap (page 0) frame).mem
      ((slabAlloc heap frame.length (page 0)).1 + linkSize + 6) = 0 := by
    rw [← hzero, ← template_first hframe heap (page 0) data.length]
    rfl
  have hleft : (frame.length - inetSize - linkSize) % 2 ^ 16 = data.length := by
    rw [hlen]
    omega
  unfold sendFragments netFragment
  dsimp only
  rw [show load16 (blit (slabAlloc heap frame.length (page 0)).2.mem
    (slabAlloc heap frame.length (page 0)).1 frame)
      ((slabAlloc heap frame.length (page 0)).1 + linkSize + 6) = 0 from hfragoff, hleft]
  rfl

/-- **A datagram is delivered as long as its header is copied from a block that is not handed out
again.** -/
theorem delivered_iff_chain {h : InetHeader}
    (hframe : frame = etherFrame mac mac' type (h.bytes ++ data))
    (hversion : h.version = 4) (hihl : h.ihl = 5) (hzero : h.fragoff = 0)
    (hc : Cuts mtu data.length) (hinv : Inv heap pages live)
    (hok : SendOk mtu heap pages live page data.length frame) (env : Nat → Surroundings) :
    (∃ r, receiveFrames env [] (sendFragments mtu heap page frame).1 = [r] ∧ Original h data r) ↔
      (buffers mtu data.length (fun k => page (k + 1)) data.length).IsChain Leaves := by
  obtain ⟨hge, hlt, hfits⟩ := id hc
  have hlen : frame.length = linkSize + inetSize + data.length := by
    rw [hframe, length_etherFrame, List.length_append, length_bytes, Nat.add_assoc]
  have hpayload : frame.drop (linkSize + inetSize) = data := by
    rw [← List.drop_drop, hframe, drop_etherFrame]
    exact List.drop_left' (length_bytes h)
  have hs : Source mtu frame ⟨h, data, by unfold linkSize inetSize at hfits; omega⟩ :=
    ⟨hc, hpayload, hlen, hversion, hihl⟩
  have hcore : (firstPass heap (page 0) data.length frame).template.core = h.core := by
    rw [template_first hframe]
  have hloop : Looping mtu frame (frameBlock heap (page 0) frame) live data.length
      (fun k => page (k + 1)) (pagesAfter heap pages frame.length (page 0))
      (firstPass heap (page 0) data.length frame) none :=
    ⟨running_first hinv hok.fresh hok.alloc hlen (by omega), rfl, hok.passes⟩
  rw [sendFragments_eq hframe hzero hfits]
  refine (hloop.delivers hs env ?_ (Nat.le_refl _) hcore ?_ (.inl ⟨rfl, rfl⟩)).trans
    (and_iff_right trivial)
  · unfold firstPass linkSize inetSize at *
    dsimp only
    omega
  · exact Nat.zero_add _

/-! ## A supply of pages -/

/-- The pages from `p` on, with room for every frame. -/
def supply (p k : Nat) : Nat := p + k * (32 * pageSize)

theorem supply_zero (p : Nat) : supply p 0 = p := by
  unfold supply
  omega

theorem supply_succ (p k : Nat) : supply p (k + 1) = supply (p + 32 * pageSize) k := by
  unfold supply
  rw [Nat.add_mul, Nat.one_mul]
  omega

theorem divRoundup_lt {size : Nat} (h : size < 2 ^ 16) : divRoundup size pageSize + 1 ≤ 32 := by
  unfold divRoundup u64 pageSize
  omega

theorem pageRun_next {p k : Nat} (h : PageRun p (32 * (k + 1))) :
    PageRun p 32 ∧ PageRun (p + 32 * pageSize) (32 * k) := by
  obtain ⟨hne, hdvd, hfits⟩ := h
  rw [Nat.mul_add, Nat.add_mul] at hfits
  exact ⟨⟨hne, hdvd, by omega⟩, by omega, Nat.dvd_add hdvd (Nat.dvd_mul_left _ _), by omega⟩

theorem passesOk_supply (hc : Cuts mtu n) (hframe : frame.length < 2 ^ 16) :
    ∀ {fuel p : Nat} {pages : List (Nat × Nat)} {v : Fragmenting} {prev : Option Block},
      Running frame orig pages live v → HeaderAt orig pages live v prev →
      Below pages (orig :: live) p → PageRun p (32 * fuel) →
      PassesOk mtu orig.addr (orig :: live) fuel (supply p) pages v
  | 0, _, _, _, _, _, _, _, _ => trivial
  | fuel + 1, p, pages, v, prev, h, hat, hbelow, hrun => by
    intro _
    have hpoff := h.poff
    have hheader := h.header
    have hcop := hc.cop_le v.left
    obtain ⟨hrun₀, hrun₁⟩ := pageRun_next hrun
    have hzero : supply p 0 = p := by
      unfold supply
      omega
    have hsize : linkSize + inetSize + cop mtu v.left < 2 ^ 16 := by omega
    obtain ⟨hpage, hne, hbelow'⟩ := hbelow.alloc h.inv hrun₀ (by decide) (divRoundup_lt hsize)
    have hpass := fragmentPass_passed mtu 0#16 h hat hcop hframe hpage hne
    obtain ⟨b, hat', -⟩ := hpass.block
    simp only [supply_succ]
    rw [supply_zero]
    exact ⟨hpage, hne, passesOk_supply hc hframe hpass.running hat' hbelow' hrun₁⟩

/-- **With enough memory every frame is sent.** -/
theorem sendOk_supply {p : Nat} (hc : Cuts mtu n) (hlen : frame.length = linkSize + inetSize + n)
    (hinv : Inv heap pages live) (hbelow : Below pages live p) (hrun : PageRun p (32 * (n + 1))) :
    SendOk mtu heap pages live (supply p) n frame := by
  have hframe : frame.length < 2 ^ 16 := hlen ▸ hc.fits
  obtain ⟨hrun₀, hrun₁⟩ := pageRun_next hrun
  have hsize := divRoundup_lt hframe
  obtain ⟨hpage, hne, hbelow'⟩ := hbelow.alloc hinv hrun₀ (by decide) hsize
  have hblock : Below (pagesAfter heap pages frame.length p)
      (frameBlock heap p frame :: live) (p + 32 * pageSize) := by
    refine ⟨hbelow'.pages, fun b hb k hk => ?_⟩
    rcases List.mem_cons.mp hb with rfl | hb
    · have haddr : (frameBlock heap p frame).addr = p + pageSize := slabAlloc_addr hinv hne hk
      obtain rfl := serve_pages hk
      rw [haddr, Nat.add_sub_cancel]
      exact Nat.add_le_add_left (Nat.mul_le_mul_right _ hsize) _
    · exact hbelow'.runs b hb k hk
  have hat : HeaderAt (frameBlock heap p frame) (pagesAfter heap pages frame.length p) live
      (firstPass heap p n frame) none := rfl
  have hpasses := passesOk_supply hc hframe (running_first hinv hpage hne hlen hframe) hat hblock
    hrun₁
  refine ⟨?_, ?_, ?_⟩
  · rw [supply_zero]
    exact hpage
  · rw [supply_zero]
    exact hne
  · simp only [supply_succ]
    rw [supply_zero]
    exact hpasses

/-- **`net_sendinet`, `net_fragment` and `net_oninet`**: the fragments of a datagram are put together
to this datagram just if no buffer takes the place of the one before. -/
theorem netSendinet_fragments_delivered (hmtu : 42 ≤ adapter.mtu) (hfits : 34 + data.length ≤ 65535)
    (hsend : netSendinet adapters adapter reply src dest protocol data = .ok (a, .fragmented frame))
    (hinv : Inv heap pages live)
    (hok : SendOk adapter.mtu heap pages live page data.length frame) (env : Nat → Surroundings) :
    (∃ r, receiveFrames env [] (sendFragments adapter.mtu heap page frame).1 = [r] ∧
        Original (sendHeader adapter dest protocol data.length) data r) ↔
      (buffers adapter.mtu data.length (fun k => page (k + 1)) data.length).IsChain Leaves := by
  obtain ⟨⟨mac, hframe⟩, hlt⟩ := netSendinet_ok hsend
  refine delivered_iff_chain hframe rfl rfl rfl ⟨hmtu, hlt frame rfl, ?_⟩ hinv hok env
  unfold linkSize inetSize
  omega

/-- An adapter with a small MTU. -/
def smallAdapter : Adapter where
  mac := macBroadcast
  ip := 0x0100000a
  gateway := 0
  subnetmask := 0xff
  ipframe := 0
  mtu := 100
  addrcache := [(0x0200000a, macBroadcast)]

/-- The frame that carries `n` bytes. -/
def cutFrame (n : Nat) : List Byte :=
  etherFrame macBroadcast macBroadcast ethProtoIPv4
    ((sendHeader smallAdapter 0x0200000a protoUDP (List.replicate n (1 : Byte)).length).bytes ++
      List.replicate n 1)

theorem cutFrame_sent (h : 66 < n) :
    netSendinet [smallAdapter] smallAdapter none inaddrAny 0x0200000a protoUDP (List.replicate n 1) =
      .ok ({ smallAdapter with ipframe := 1 }, .fragmented (cutFrame n)) := by
  have hroute : (netRoute [smallAdapter] (some smallAdapter) inaddrAny 0x0200000a none).1 =
      .ok (smallAdapter, macBroadcast) := rfl
  have hother : netFindadapterbyip [smallAdapter] 0x0200000a = none := rfl
  have hlong : smallAdapter.mtu ≠ 0 ∧
      smallAdapter.mtu < linkSize + inetSize + (List.replicate n (1 : Byte)).length := by
    rw [List.length_replicate]
    unfold smallAdapter linkSize inetSize
    dsimp only
    omega
  unfold netSendinet
  rw [if_neg (by decide), hroute]
  dsimp only
  rw [hother]
  dsimp only
  rw [if_pos hlong]
  rfl

theorem sampleBoot_inv : Inv sampleBoot.st sampleBoot.pages sampleBoot.live := by
  refine boot_inv _ ⟨by decide, ?_⟩
  intro i _ j _ he
  omega

theorem cutFrame_ok (h : 66 < n) (hn : n < 1000) :
    SendOk smallAdapter.mtu sampleBoot.st sampleBoot.pages sampleBoot.live (supply 0x100000)
      (List.replicate n (1 : Byte)).length (cutFrame n) := by
  rw [List.length_replicate]
  refine sendOk_supply ⟨by decide, ?_, ?_⟩ ?_ sampleBoot_inv ⟨by decide, ?_⟩ ⟨by decide, by decide, ?_⟩
  · unfold smallAdapter linkSize inetSize
    dsimp only
    omega
  · unfold linkSize inetSize
    omega
  · unfold cutFrame
    rw [length_etherFrame, List.length_append, length_bytes, List.length_replicate, Nat.add_assoc]
  · intro b hb
    cases hb
  · unfold pageSize
    omega

/-- Buffers of 98 and 50 bytes. -/
theorem netSendinet_fragments_delivered_sample :
    ∃ r, receiveFrames (fun _ => ⟨fun _ => 0, fun _ => 0, fun _ => 0⟩) []
        (sendFragments smallAdapter.mtu sampleBoot.st (supply 0x100000) (cutFrame 80)).1 = [r] ∧
      Original (sendHeader smallAdapter 0x0200000a protoUDP (List.replicate 80 (1 : Byte)).length)
        (List.replicate 80 1) r := by
  have heq : buffers smallAdapter.mtu (List.replicate 80 (1 : Byte)).length
      (fun k => supply 0x100000 (k + 1)) (List.replicate 80 (1 : Byte)).length =
        [⟨98, 0x120000⟩, ⟨50, 0x140000⟩] := by decide
  have hleaves : Leaves ⟨98, 0x120000⟩ ⟨50, 0x140000⟩ := show 6 ≠ 5 by decide
  refine (netSendinet_fragments_delivered (by decide) (by decide) (cutFrame_sent (by decide))
    sampleBoot_inv (cutFrame_ok (by decide) (by decide)) _).mpr ?_
  rw [heq]
  exact .cons_cons hleaves (.singleton _)

/-- Two buffers of 98 bytes: the second one takes the place of the first. -/
theorem netSendinet_fragments_dropped :
    ¬ ∀ (adapters : List Adapter) (adapter a : Adapter) (reply : Option MacAddr)
      (src dest : BitVec 32) (protocol : BitVec 8) (data frame : List Byte) (heap : Slabs.State)
      (pages : List (Nat × Nat)) (live : List Block) (page : Nat → Nat) (env : Nat → Surroundings),
      42 ≤ adapter.mtu → 34 + data.length ≤ 65535 →
      netSendinet adapters adapter reply src dest protocol data = .ok (a, .fragmented frame) →
      Inv heap pages live → SendOk adapter.mtu heap pages live page data.length frame →
      ∃ r, receiveFrames env [] (sendFragments adapter.mtu heap page frame).1 = [r] ∧
        Original (sendHeader adapter dest protocol data.length) data r := by
  intro hall
  have hok := cutFrame_ok (n := 128) (by decide) (by decide)
  have hr := hall _ _ _ _ _ _ _ _ _ _ _ _ _ (fun _ => ⟨fun _ => 0, fun _ => 0, fun _ => 0⟩)
    (by decide) (by decide +kernel) (cutFrame_sent (n := 128) (by decide)) sampleBoot_inv hok
  have hchain := (delivered_iff_chain rfl rfl rfl rfl ⟨by decide, by decide +kernel, by decide +kernel⟩
    sampleBoot_inv hok _).mp hr
  have heq : buffers smallAdapter.mtu (List.replicate 128 (1 : Byte)).length
      (fun k => supply 0x100000 (k + 1)) (List.replicate 128 (1 : Byte)).length =
        [⟨98, 0x120000⟩, ⟨98, 0x140000⟩] := by decide +kernel
  rw [heq, List.isChain_cons_cons] at hchain
  have hleaves : (6 : Nat) ≠ 6 := hchain.1
  exact hleaves rfl

end Lyre.Net
