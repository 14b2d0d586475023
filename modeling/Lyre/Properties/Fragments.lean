import Lyre.Properties.NetSend
import Lyre.Properties.SlabReuse

/-!
# Fragments from the sender to the receiver

`net_fragment` copies the header of each fragment from the one before, whose block has been freed
by then. What is left of it is said by `Spares`. As long as the header is there, the fragments that
arrive one after the other are put together to the datagram that was sent; where it is not, the
version of all further fragments is 0 and they are dropped.
-/

namespace Lyre.Net

open Infra.Bytes Infra.Ring Slabs

/-! ## A fragment in memory -/

/-- The header of a fragment that is made from another header. -/
def fragmentHeader (h : InetHeader) (tmp : BitVec 16) (cop : Nat) : InetHeader :=
  InetHeader.sealed
    { h with fragoff := bswap16 tmp, len := bswap16 (BitVec.ofNat 16 (cop + inetSize)) }

section

variable {mem : Mem} {buf buffer inetheader poff cop n : Nat} (tmp : BitVec 16)

theorem fillFragment_apply_of_not {x : Nat}
    (hx : ¬ (buf + linkSize ≤ x ∧ x < buf + linkSize + inetSize)) :
    fillFragment mem buf buffer inetheader poff cop tmp x =
      copy (copy (copy mem buf buffer linkSize) (buf + linkSize) inetheader inetSize)
        (buf + linkSize + inetSize) (buffer + poff) cop x := by
  have hstore : ∀ (mem : Mem) (o : Nat) (y : BitVec 16), o + 2 ≤ inetSize →
      blit mem (buf + linkSize + o) (bytes16 y) x = mem x := by
    intro mem o y ho
    have hlen : (bytes16 y).length = 2 := rfl
    exact blit_apply_of_not (by omega)
  unfold fillFragment
  rw [hstore _ 10 _ (by decide), hstore _ 10 _ (by decide), hstore _ 2 _ (by decide),
    hstore _ 6 _ (by decide)]

theorem fillFragment_sameOff (mem : Mem) (buf buffer inetheader poff cop : Nat) :
    SameOff mem (fillFragment mem buf buffer inetheader poff cop tmp) buf
      (linkSize + inetSize + cop) := by
  intro x hx
  rw [fillFragment_apply_of_not tmp (by omega), copy_sameOff _ _ _ _ x (by omega),
    copy_sameOff _ _ _ _ x (by omega), copy_sameOff _ _ _ _ x (by omega)]

theorem loadInet_seal (mem : Mem) (a : Nat) :
    loadInet (fun k => blit (blit mem (a + 10) (bytes16 0)) (a + 10)
      (bytes16 (netChecksum (fun k => blit mem (a + 10) (bytes16 0) (a + k)) inetSize)) (a + k)) =
      (loadInet fun k => mem (a + k)).sealed := by
  have hcleared := loadInet_store_csum mem a 0
  rw [loadInet_store_csum, netChecksum_loadInet (by rw [hcleared]), hcleared]
  rfl

/-- The header is the one that was copied, but for the fields that are set. -/
theorem fillFragment_header (hap : Apart buf linkSize inetheader inetSize) :
    loadInet (fun k => fillFragment mem buf buffer inetheader poff cop tmp (buf + linkSize + k)) =
      fragmentHeader (loadInet fun k => mem (inetheader + k)) tmp cop := by
  have hcopy : loadInet (fun k => copy (copy (copy mem buf buffer linkSize) (buf + linkSize)
      inetheader inetSize) (buf + linkSize + inetSize) (buffer + poff) cop (buf + linkSize + k)) =
      loadInet fun k => mem (inetheader + k) := by
    refine loadInet_congr fun k hk => ?_
    unfold Apart at hap
    rw [copy_sameOff _ _ _ _ _ (by omega), copy, if_pos ⟨by omega, by omega⟩,
      Nat.add_sub_cancel_left]
    exact copy_sameOff _ _ _ _ _ (by omega)
  unfold fillFragment fragmentHeader
  rw [loadInet_seal, loadInet_store_len, loadInet_store_fragoff, hcopy]

theorem fillFragment_data (hap : Apart buf (linkSize + inetSize + cop) buffer n)
    (hpoff : poff + cop ≤ n) {k : Nat} (hk : k < cop) :
    fillFragment mem buf buffer inetheader poff cop tmp (buf + linkSize + inetSize + k) =
      mem (buffer + poff + k) := by
  unfold Apart at hap
  rw [fillFragment_apply_of_not tmp (by omega), copy, if_pos ⟨by omega, by omega⟩,
    Nat.add_sub_cancel_left, copy_sameOff _ _ _ _ _ (by omega), copy_sameOff _ _ _ _ _ (by omega)]

end

/-! ## A pass of the loop -/

variable {mtu n page size : Nat} {frame : List Byte} {orig : Block} {pages : List (Nat × Nat)}
  {live : List Block} {v : Fragmenting} {mf : BitVec 16} {prev : Option Block}

/-- The frame is in a live block, and the loop has come as far as `poff`. -/
structure Running (frame : List Byte) (orig : Block) (pages : List (Nat × Nat))
    (live : List Block) (v : Fragmenting) : Prop where
  inv : Inv v.heap pages (orig :: live)
  size : orig.size = frame.length
  bytes : ∀ k < frame.length, v.heap.mem (orig.addr + k) = frame.getD k 0
  poff : v.poff + v.left = frame.length
  header : linkSize + inetSize ≤ v.poff

/-- The header that is copied next is the one of the frame, or the one of the fragment before, in a
block that has just been freed. -/
def HeaderAt (orig : Block) (pages : List (Nat × Nat)) (live : List Block) (v : Fragmenting) :
    Option Block → Prop
  | none => v.inetheader = orig.addr + linkSize
  | some b => JustFreed v.heap pages (orig :: live) b ∧ linkSize + inetSize ≤ b.owner.length ∧
      v.inetheader = b.addr + linkSize

/-- The next block leaves the header as it is. -/
def Kept (size page : Nat) : Option Block → Prop
  | none => True
  | some b => Spares b size page

/-- The header in a block that is cleared. -/
def clearedHeader : InetHeader := loadInet fun _ => 0

theorem alloc_block (h : Running frame orig pages live v) (hsize : size < 2 ^ 16)
    (hpage : PageOk v.heap pages (orig :: live) size page)
    (hne : (slabAlloc v.heap size page).1 ≠ 0) :
    Inv (slabAlloc v.heap size page).2 (pagesAfter v.heap pages size page)
        (⟨(slabAlloc v.heap size page).1, size, serve size⟩ :: orig :: live) ∧
      size ≤ (serve size).length ∧
      Apart (slabAlloc v.heap size page).1 size orig.addr frame.length := by
  have hinv := ((slabAlloc_inv h.inv (by unfold pageSize; omega) hpage).2 hne).1
  rw [ownerFor_eq h.inv] at hinv
  have hle := hinv.size_le List.mem_cons_self
  have hlen : frame.length ≤ orig.owner.length := h.size ▸ h.inv.size_le List.mem_cons_self
  refine ⟨hinv, hle, ?_⟩
  obtain ⟨free, hl, -⟩ := hinv
  have hap := (List.pairwise_cons.mp hl.live_apart).1 orig List.mem_cons_self
  unfold Block.Apart Apart at hap
  unfold Apart
  dsimp only at hap hle
  omega

theorem header_after_alloc (h : Running frame orig pages live v)
    (hat : HeaderAt orig pages live v prev) (hsize : linkSize + inetSize ≤ size)
    (hsize' : size < 2 ^ 16) (hpage : PageOk v.heap pages (orig :: live) size page)
    (hne : (slabAlloc v.heap size page).1 ≠ 0) :
    Apart (slabAlloc v.heap size page).1 linkSize v.inetheader inetSize ∧
      (Kept size page prev →
        loadInet (fun k => (slabAlloc v.heap size page).2.mem (v.inetheader + k)) =
          loadInet fun k => v.heap.mem (v.inetheader + k)) ∧
      (¬ Kept size page prev →
        loadInet (fun k => (slabAlloc v.heap size page).2.mem (v.inetheader + k)) =
          clearedHeader) := by
  have hlen : frame.length ≤ orig.owner.length := h.size ▸ h.inv.size_le List.mem_cons_self
  have hpoff := h.poff
  have hheader := h.header
  unfold linkSize inetSize at *
  cases prev with
  | none =>
    have hat : v.inetheader = orig.addr + 14 := hat
    obtain ⟨-, -, hap⟩ := alloc_block h hsize' hpage hne
    refine ⟨?_, fun _ => loadInet_congr fun k hk => ?_, fun hnot => absurd trivial hnot⟩
    · unfold Apart at hap ⊢
      omega
    · rw [hat, Nat.add_assoc]
      unfold inetSize at hk
      exact slabAlloc_live h.inv hpage hne List.mem_cons_self (by omega)
  | some b =>
    obtain ⟨hfreed, hblen, hat⟩ := hat
    have hblen : 34 ≤ b.owner.length := hblen
    have hat : v.inetheader = b.addr + 14 := hat
    refine ⟨?_, fun hkept => loadInet_congr fun k hk => ?_, fun hnot => loadInet_congr fun k hk => ?_⟩
    · rw [hat]
      exact hfreed.apart_header h.inv hpage hne (by omega) (by omega) hblen
    · unfold inetSize at hk
      rw [hat, Nat.add_assoc]
      exact slabAlloc_mem h.inv hpage
        (hfreed.not_touched h.inv hpage hne (by omega) hkept (by omega) (by omega) (by omega))
    · unfold inetSize at hk
      rw [hat, Nat.add_assoc]
      exact hfreed.cleared h.inv hpage hne (by omega) hnot (by omega) (by omega) (by omega)

/-- What a pass leaves behind, and what it transmits. -/
structure Passed (mtu : Nat) (frame : List Byte) (orig : Block) (pages : List (Nat × Nat))
    (live : List Block) (mf : BitVec 16) (page : Nat) (v : Fragmenting) (h : InetHeader) : Prop where
  running : Running frame orig (pagesAfter v.heap pages (linkSize + inetSize + cop mtu v.left) page)
    live (fragmentPass mtu orig.addr mf page v).2
  header : loadInet (fun k => (fragmentPass mtu orig.addr mf page v).2.heap.mem
      ((fragmentPass mtu orig.addr mf page v).2.inetheader + k)) = h
  length : (fragmentPass mtu orig.addr mf page v).1.length = linkSize + inetSize + cop mtu v.left
  packet : (fragmentPass mtu orig.addr mf page v).1.drop linkSize =
    h.bytes ++ (frame.drop v.poff).take (cop mtu v.left)
  block : ∃ b : Block,
    HeaderAt orig (pagesAfter v.heap pages (linkSize + inetSize + cop mtu v.left) page) live
      (fragmentPass mtu orig.addr mf page v).2 (some b) ∧
    b.owner = serve (linkSize + inetSize + cop mtu v.left) ∧
    ∀ n, b.owner = .pages n → b.addr = page + pageSize

theorem slabAlloc_addr {st : State} (h : Inv st pages live) (hne : (slabAlloc st size page).1 ≠ 0)
    (hn : serve size = .pages n) : (slabAlloc st size page).1 = page + pageSize := by
  cases hi : slabFor st size with
  | some i =>
    rw [serve_some h hi] at hn
    cases hn
  | none => exact slabAlloc_run hi (run_ne_zero hi hne)

theorem slice_eq_drop_take {mem : Mem} {a k : Nat} {l : List Byte}
    (hl : ∀ j < l.length, mem (a + j) = l.getD j 0) {start : Nat} (hk : start + k ≤ l.length) :
    slice mem (a + start) k = (l.drop start).take k := by
  refine List.ext_getElem ?_ fun j hj hj' => ?_
  · rw [length_slice, List.length_take, List.length_drop]
    omega
  · rw [length_slice] at hj
    simp only [slice, List.getElem_map, List.getElem_range, List.getElem_take, List.getElem_drop]
    rw [Nat.add_assoc, hl _ (by omega), List.getD_eq_getElem?_getD,
      List.getElem?_eq_getElem (by omega), Option.getD_some]

section

variable {heap : State} {new : Block} {inetheader poff cop : Nat} (tmp : BitVec 16)

theorem fill_inv (hinv : Inv heap pages (new :: live))
    (hlen : linkSize + inetSize + cop ≤ new.owner.length) (buffer inetheader poff : Nat) :
    Inv { heap with mem := fillFragment heap.mem new.addr buffer inetheader poff cop tmp } pages
      (new :: live) :=
  hinv.of_sameOff List.mem_cons_self (fillFragment_sameOff tmp _ _ _ _ _ _) (Nat.le_refl _)
    (Nat.add_le_add_left hlen _)

theorem freed_header (hinv : Inv heap pages (new :: live))
    (hlen : linkSize + inetSize + cop ≤ new.owner.length)
    (hap : Apart new.addr linkSize inetheader inetSize) (buffer poff : Nat) :
    loadInet (fun k => (slabFree { heap with
        mem := fillFragment heap.mem new.addr buffer inetheader poff cop tmp } new.addr).2.mem
      (new.addr + linkSize + k)) =
      fragmentHeader (loadInet fun k => heap.mem (inetheader + k)) tmp cop := by
  rw [← fillFragment_header tmp hap]
  refine loadInet_congr fun k _ => slabFree_mem (fill_inv tmp hinv hlen _ _ _) ?_
  unfold linkSize
  omega

theorem freed_frame (hinv : Inv heap pages (new :: live))
    (hlen : linkSize + inetSize + cop ≤ new.owner.length)
    (hap : Apart new.addr (linkSize + inetSize + cop) orig.addr frame.length)
    (hbytes : ∀ k < frame.length, heap.mem (orig.addr + k) = frame.getD k 0)
    (inetheader poff : Nat) {k : Nat} (hk : k < frame.length) :
    (slabFree { heap with
        mem := fillFragment heap.mem new.addr orig.addr inetheader poff cop tmp } new.addr).2.mem
      (orig.addr + k) = frame.getD k 0 := by
  unfold Apart at hap
  rw [slabFree_mem (fill_inv tmp hinv hlen _ _ _) (by unfold linkSize at hap; omega),
    ← hbytes k hk]
  exact fillFragment_sameOff tmp _ _ _ _ _ _ _ (by omega)

theorem filled_packet {buf : Nat}
    (hap : Apart buf (linkSize + inetSize + cop) orig.addr frame.length)
    (hap' : Apart buf linkSize inetheader inetSize)
    (hbytes : ∀ k < frame.length, heap.mem (orig.addr + k) = frame.getD k 0)
    (hpoff : poff + cop ≤ frame.length) :
    (slice (fillFragment heap.mem buf orig.addr inetheader poff cop tmp) buf
        (linkSize + inetSize + cop)).drop linkSize =
      (fragmentHeader (loadInet fun k => heap.mem (inetheader + k)) tmp cop).bytes ++
        (frame.drop poff).take cop := by
  have hheader : slice (fillFragment heap.mem buf orig.addr inetheader poff cop tmp)
      (buf + linkSize) inetSize =
      (fragmentHeader (loadInet fun k => heap.mem (inetheader + k)) tmp cop).bytes := by
    rw [← fillFragment_header tmp hap', bytes_loadInet]
    refine List.map_congr_left fun k _ => ?_
    rw [Nat.zero_add]
  have hdata : slice (fillFragment heap.mem buf orig.addr inetheader poff cop tmp)
      (buf + (linkSize + inetSize)) cop = (frame.drop poff).take cop := by
    rw [← slice_eq_drop_take hbytes hpoff]
    refine List.map_congr_left fun k hk => ?_
    exact fillFragment_data tmp hap hpoff (List.mem_range.mp hk)
  rw [slice_add, slice_add, hheader, hdata, List.append_assoc]
  exact List.drop_left' (length_slice _ _ _)

end

theorem fragmentPass_passed (mtu : Nat) (mf : BitVec 16) (h : Running frame orig pages live v)
    (hat : HeaderAt orig pages live v prev) (hcop : cop mtu v.left ≤ v.left)
    (hframe : frame.length < 2 ^ 16)
    (hpage : PageOk v.heap pages (orig :: live) (linkSize + inetSize + cop mtu v.left) page)
    (hne : (slabAlloc v.heap (linkSize + inetSize + cop mtu v.left) page).1 ≠ 0) :
    Passed mtu frame orig pages live mf page v
      (fragmentHeader (loadInet fun k =>
          (slabAlloc v.heap (linkSize + inetSize + cop mtu v.left) page).2.mem (v.inetheader + k))
        (fragField mtu v.left mf v.fragoff) (cop mtu v.left)) := by
  have hpoff := h.poff
  have hheader := h.header
  have hsize : linkSize + inetSize + cop mtu v.left < 2 ^ 16 := by omega
  obtain ⟨hinv, hle, hap⟩ := alloc_block h hsize hpage hne
  obtain ⟨hap', -⟩ := header_after_alloc h hat (Nat.le_add_right _ _) hsize hpage hne
  have hlen : frame.length ≤ orig.owner.length := h.size ▸ h.inv.size_le List.mem_cons_self
  have hbytes : ∀ k < frame.length,
      (slabAlloc v.heap (linkSize + inetSize + cop mtu v.left) page).2.mem (orig.addr + k) =
        frame.getD k 0 := by
    intro k hk
    rw [slabAlloc_live h.inv hpage hne List.mem_cons_self (by omega), h.bytes k hk]
  have hfilled := fill_inv (fragField mtu v.left mf v.fragoff) hinv hle orig.addr v.inetheader v.poff
  have hmod : (v.poff + cop mtu v.left) % 2 ^ 16 = v.poff + cop mtu v.left :=
    Nat.mod_eq_of_lt (by omega)
  refine ⟨⟨slabFree_inv hfilled, h.size, ?_, ?_, ?_⟩, ?_, ?_, ?_, ?_⟩
  · intro k hk
    exact freed_frame _ hinv hle hap hbytes _ _ hk
  · unfold fragmentPass
    dsimp only
    omega
  · unfold fragmentPass
    dsimp only
    omega
  · exact freed_header _ hinv hle hap' _ _
  · exact length_slice _ _ _
  · have hle' : v.poff + cop mtu v.left ≤ frame.length := by omega
    exact filled_packet _ hap hap' hbytes hle'
  · refine ⟨⟨(slabAlloc v.heap (linkSize + inetSize + cop mtu v.left) page).1, _, _⟩,
      ⟨slabFree_justFreed hfilled, ?_, rfl⟩, rfl, fun n hn => slabAlloc_addr h.inv hne hn⟩
    exact Nat.le_trans (Nat.le_add_right _ _) hle

end Lyre.Net
