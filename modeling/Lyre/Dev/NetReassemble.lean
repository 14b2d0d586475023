import Lyre.Dev.Net

/-!
# `dev/net/net.c`: datagrams that arrive, and their fragments

A datagram is the header and what is in memory behind it. `size` is how many bytes behind the
header have been received; no function of the source knows it, and none here looks at it.

What the functions read of the packet is recorded (`Access`), and so are the lengths that they are
told by their callers.

The block with the data of a partial datagram is the memory from its address on. What `realloc`
does not keep is arbitrary (`fresh`), and so is memory behind a block (`beyond`). No allocation
fails.
-/

namespace Lyre.Net

open Infra.Bytes Infra.Ring

/-! ## Accesses -/

/-- Who is told a length. -/
inductive Handler where
  | oninet | onarp | onicmp | ontcp | onudp
  /-- `tcp_netpacket`, which computes the length of its payload. -/
  | netpacket
  deriving DecidableEq, Repr

/-- What is done with a packet, with offsets from its first byte. -/
inductive Access where
  | read (off len : Nat)
  /-- A handler takes the length of what begins at `off` to be `len`. -/
  | told (handler : Handler) (off len : Nat)
  deriving DecidableEq, Repr

def Access.off : Access → Nat
  | .read off _ | .told _ off _ => off

def Access.len : Access → Nat
  | .read _ len | .told _ _ len => len

/-- The access to a packet of which this one is the part from `n` on. -/
def Access.shift (n : Nat) : Access → Access
  | .read off len => .read (n + off) len
  | .told handler off len => .told handler (n + off) len

/-- A difference of type `size_t`. -/
def sub64 (a b : Nat) : Nat := u64 (2 ^ 64 + a - b)

theorem sub64_of_le {a b : Nat} (h : b ≤ a) (ha : a < 2 ^ 64) : sub64 a b = a - b := by
  unfold sub64 u64
  omega

structure Datagram where
  header : InetHeader
  /-- Memory at `header->data`. -/
  data : Mem
  size : Nat

/-- `header->len`. -/
def InetHeader.length (h : InetHeader) : Nat := (bswap16 h.len).toNat

/-! ## Reassembly -/

/-- `struct net_reassmetadata`. -/
structure Reassmetadata where
  timer : BitVec 8
  data : Mem
  /-- The size that was asked for with `alloc` or `realloc`. -/
  size : Nat
  len : BitVec 16
  header : InetHeader

/-- The header belongs to the datagram. -/
def Reassmetadata.matches (m : Reassmetadata) (header : InetHeader) : Bool :=
  m.header.id = header.id && m.header.src = header.src && m.header.dest = header.dest

/-- The loop of `net_reassemble`: the last one that matches, from index `i` on. -/
def findMetadata (header : InetHeader) : List Reassmetadata → Nat → Option Nat → Option Nat
  | [], _, found => found
  | m :: metas, i, found =>
    findMetadata header metas (i + 1) (if m.matches header then some i else found)

/-- The offset of a fragment in bytes. -/
def InetHeader.offset (h : InetHeader) : Nat := (bswap16 h.fragoff &&& ipOffMask).toNat * 8

/-- How many bytes a fragment carries, as a `uint16_t`. -/
def InetHeader.dataLen (h : InetHeader) : BitVec 16 := bswap16 h.len - BitVec.ofNat 16 inetSize

/-- This is not the last fragment. -/
def InetHeader.moreFragments (h : InetHeader) : Bool := h.fragoff &&& bswap16 ipFlagMF ≠ 0

def newMetadata (header : InetHeader) : Reassmetadata where
  timer := 3
  data := fun _ => 0
  size := header.length
  len := 0
  header

/-- The data of a fragment is put into the block of its datagram. -/
def addFragment (m : Reassmetadata) (header : InetHeader) (data fresh : Mem) : Reassmetadata :=
  let len := m.len + header.dataLen
  let block : Mem := fun k => if k < m.size ∧ k < len.toNat then m.data k else fresh k
  { m with
    len
    size := len.toNat
    data := blit block header.offset (slice data 0 header.dataLen.toNat) }

/-- The datagram that is made when the last fragment has come. -/
def reassembled (m : Reassmetadata) (beyond : Mem) : Datagram where
  header := InetHeader.sealed { m.header with
    fragoff := 0
    len := bswap16 (BitVec.ofNat 16 inetSize + m.len) }
  data := fun k => if k < m.len.toNat then m.data k else beyond k
  size := m.len.toNat

/-- The fragment is added to the datagram with index `i`. -/
def reassembleAt (metas : List Reassmetadata) (i : Nat) (header : InetHeader)
    (data fresh beyond : Mem) : Option Datagram × List Reassmetadata :=
  match metas[i]? with
  | none => (none, metas)
  | some m =>
    let m := addFragment m header data fresh
    if header.moreFragments then (none, metas.set i m)
    else (some (reassembled m beyond), metas.eraseIdx i)

/-- `data` is the memory behind the header. -/
def netReassemble (metas : List Reassmetadata) (header : InetHeader) (data fresh beyond : Mem) :
    Option Datagram × List Reassmetadata × List Access :=
  if inetSize < header.ihl.toNat * 4 then (none, metas, [])
  else
    let start : Option (List Reassmetadata × Nat) :=
      match findMetadata header metas 0 none with
      | some i => some (metas, i)
      | none =>
        -- a datagram begins with its first fragment
        if header.offset ≠ 0 then none else some (metas ++ [newMetadata header], metas.length)
    match start with
    | none => (none, metas, [])
    | some (metas, i) =>
      match reassembleAt metas i header data fresh beyond with
      | (datagram, metas) => (datagram, metas, [.read inetSize header.dataLen.toNat])

/-- The loop of `net_fraghandler` from index `i` on. The index moves on when an element is taken
out, too. -/
def fraghandlerLoop : Nat → Nat → List Reassmetadata → List Reassmetadata
  | 0, _, metas => metas
  | fuel + 1, i, metas =>
    match metas[i]? with
    | none => metas
    | some m =>
      let m := { m with timer := m.timer - 1 }
      fraghandlerLoop fuel (i + 1) (if m.timer = 0 then metas.eraseIdx i else metas.set i m)

/-- What `net_fraghandler` does once in a second. -/
def netFraghandler (metas : List Reassmetadata) : List Reassmetadata :=
  fraghandlerLoop metas.length 0 metas

/-! ## The first half of `net_oninet` -/

/-- There are more fragments, or this one does not begin at 0. -/
def InetHeader.isFragment (h : InetHeader) : Bool :=
  h.fragoff &&& bswap16 (ipFlagMF ||| ipOffMask) ≠ 0

/-- `net_oninet` up to its `switch`: the datagram to be handled, if there is one, and what has been
read of the packet at `buf`. -/
def inetAccept (metas : List Reassmetadata) (buf : Mem) (length : Nat) (fresh beyond : Mem) :
    Option Datagram × List Reassmetadata × List Access :=
  if length < inetSize then (none, metas, [])
  else
    let header := loadInet buf
    let data : Mem := fun k => buf (inetSize + k)
    if header.version ≠ 4 then (none, metas, [.read 0 1])
    else if header.csum ≠ header.cleared.checksum then (none, metas, [.read 0 inetSize])
    else if header.isFragment then
      match netReassemble metas header.cleared data fresh beyond with
      | (datagram, metas, accesses) => (datagram, metas, .read 0 inetSize :: accesses)
    else (some ⟨header.cleared, data, length - inetSize⟩, metas, [.read 0 inetSize])

end Lyre.Net
