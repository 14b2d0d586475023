import Lyre.Infra.Ring
import Lyre.Lib.Endian
import Lyre.Lib.Errno
import Lyre.Mm.Slab

/-!
# `dev/net/net.c`: adapters, routes, and sending

All adapters are Ethernet adapters, so that `NET_LINKLAYERFRAMESIZE` is 14. Headers are structures
with their fields as they are in memory, and lists of bytes when they are sent.

What the kernel waits for in `net_lookup` is an argument: the answer to an ARP request, if there is
one in time. Locks and debug prints have no counterpart.
-/

namespace Lyre.Net

open Infra.Bytes Infra.Ring

abbrev Byte := BitVec 8

/-! ## Headers -/

/-- `struct net_macaddr`. -/
abbrev MacAddr := Fin 6 → Byte

def MacAddr.bytes (mac : MacAddr) : List Byte := List.ofFn mac

/-- `struct net_inetheader`, with the fields as they are in memory. -/
@[ext]
structure InetHeader where
  ihl : BitVec 4
  version : BitVec 4
  ecn : BitVec 2
  dscp : BitVec 6
  len : BitVec 16
  id : BitVec 16
  fragoff : BitVec 16
  ttl : BitVec 8
  protocol : BitVec 8
  csum : BitVec 16
  src : BitVec 32
  dest : BitVec 32
  deriving DecidableEq, Repr

/-- `sizeof(struct net_inetheader)`. -/
def inetSize : Nat := 20

/-- `sizeof(struct net_etherframe)`. -/
def linkSize : Nat := 14

def ipFlagMF : BitVec 16 := 0x2000
def ipOffMask : BitVec 16 := 0x1fff

def ethProtoIPv4 : BitVec 16 := 0x800
def ethProtoARP : BitVec 16 := 0x806

def protoICMP : BitVec 8 := 1
def protoTCP : BitVec 8 := 6
def protoUDP : BitVec 8 := 17

def InetHeader.bytes (h : InetHeader) : List Byte :=
  [h.version ++ h.ihl, h.dscp ++ h.ecn] ++ bytes16 h.len ++ bytes16 h.id ++ bytes16 h.fragoff ++
    [h.ttl, h.protocol] ++ bytes16 h.csum ++ bytes32 h.src ++ bytes32 h.dest

def loadInet (buf : Mem) : InetHeader where
  ihl := (buf 0).extractLsb' 0 4
  version := (buf 0).extractLsb' 4 4
  ecn := (buf 1).extractLsb' 0 2
  dscp := (buf 1).extractLsb' 2 6
  len := load16 buf 2
  id := load16 buf 4
  fragoff := load16 buf 6
  ttl := buf 8
  protocol := buf 9
  csum := load16 buf 10
  src := load32 buf 12
  dest := load32 buf 16

/-- `struct net_arpheader`. -/
structure ArpHeader where
  hwtype : BitVec 16
  prtype : BitVec 16
  hwlen : BitVec 8
  plen : BitVec 8
  opcode : BitVec 16
  srchw : MacAddr
  srcpr : BitVec 32
  desthw : MacAddr
  destpr : BitVec 32

/-- `sizeof(struct net_arpheader)`. -/
def arpSize : Nat := 28

def ArpHeader.bytes (h : ArpHeader) : List Byte :=
  bytes16 h.hwtype ++ bytes16 h.prtype ++ [h.hwlen, h.plen] ++ bytes16 h.opcode ++
    h.srchw.bytes ++ bytes32 h.srcpr ++ h.desthw.bytes ++ bytes32 h.destpr

def loadArp (buf : Mem) : ArpHeader where
  hwtype := load16 buf 0
  prtype := load16 buf 2
  hwlen := buf 4
  plen := buf 5
  opcode := load16 buf 6
  srchw := fun k => buf (8 + k)
  srcpr := load32 buf 14
  desthw := fun k => buf (18 + k)
  destpr := load32 buf 24

/-- An Ethernet frame. -/
def etherFrame (dest src : MacAddr) (type : BitVec 16) (data : List Byte) : List Byte :=
  dest.bytes ++ src.bytes ++ bytes16 (bswap16 type) ++ data

/-! ## Checksums -/

/-- The bytes of a buffer, with zeros behind them. -/
def memOf (bytes : List Byte) : Mem := fun k => bytes.getD k 0

/-- An odd byte at the end does not count. -/
def netChecksum (data : Mem) (length : Nat) : BitVec 16 :=
  let csum : BitVec 32 := (List.range (length / 2)).foldl
    (fun csum i => csum + (load16 data (2 * i)).setWidth 32) 0
  let csum := (csum &&& 0xffff) + (csum >>> 16)
  let csum := if 0xffff < csum then csum + 1 else csum
  (~~~ csum).setWidth 16

/-- The header with the checksum taken out. -/
def InetHeader.cleared (h : InetHeader) : InetHeader := { h with csum := 0 }

/-- The checksum of a header does not count the field where it is. -/
def InetHeader.checksum (h : InetHeader) : BitVec 16 := netChecksum (memOf h.cleared.bytes) inetSize

/-- The header with its checksum. -/
def InetHeader.sealed (h : InetHeader) : InetHeader := { h with csum := h.checksum }

/-! ## Adapters -/

structure Adapter where
  mac : MacAddr
  ip : BitVec 32
  gateway : BitVec 32
  subnetmask : BitVec 32
  ipframe : BitVec 16
  mtu : Nat
  addrcache : List (BitVec 32 × MacAddr)

/-- `NET_ADAPTERETH`, the type of all adapters. -/
def adapterEth : BitVec 16 := 1

def macBroadcast : MacAddr := fun _ => 0xff

def inaddrAny : BitVec 32 := 0

def inaddrBroadcast : BitVec 32 := 0xffffffff

def netFindadapterbyip (adapters : List Adapter) (addr : BitVec 32) : Option Adapter :=
  adapters.find? fun adapter => adapter.ip = addr

def netGrabcache (adapter : Adapter) (ip : BitVec 32) : Option MacAddr :=
  (adapter.addrcache.find? fun pair => pair.1 = ip).map Prod.snd

/-- The ARP request of `net_lookup`. -/
def arpRequest (adapter : Adapter) (ip : BitVec 32) : List Byte :=
  etherFrame macBroadcast adapter.mac ethProtoARP (ArpHeader.bytes {
    hwtype := bswap16 adapterEth
    prtype := bswap16 ethProtoIPv4
    hwlen := 6
    plen := 4
    opcode := bswap16 1
    srchw := adapter.mac
    srcpr := adapter.ip
    desthw := macBroadcast
    destpr := ip })

/-- The address, and the request that was transmitted. `reply` is the entry of the cache that
answers the request. -/
def netLookup (adapters : List Adapter) (adapter : Adapter) (ip : BitVec 32)
    (reply : Option MacAddr) : Except Errno MacAddr × List (List Byte) :=
  match netFindadapterbyip adapters ip with
  | some a => (.ok a.mac, [])
  | none =>
    match netGrabcache adapter ip with
    | some mac => (.ok mac, [])
    | none =>
      match reply with
      | some mac => (.ok mac, [arpRequest adapter ip])
      | none => (.error .enetunreach, [arpRequest adapter ip])

/-- `remote` is in the network of the adapter. -/
def Adapter.reaches (adapter : Adapter) (remote : BitVec 32) : Bool :=
  remote &&& adapter.subnetmask = adapter.ip &&& adapter.subnetmask

/-- The loop of `net_route` over the adapters: the last one in the network of `remote`, or else the
last one with a gateway. -/
def routeLoop (localAddr remote : BitVec 32) : List Adapter → Option Adapter × Bool →
    Option Adapter × Bool
  | [], r => r
  | it :: rest, (adapter, islocal) =>
    if localAddr ≠ inaddrAny ∧ it.ip ≠ localAddr then
      routeLoop localAddr remote rest (adapter, islocal)
    else if it.reaches remote then routeLoop localAddr remote rest (some it, true)
    else if !islocal ∧ it.gateway ≠ 0 then routeLoop localAddr remote rest (some it, islocal)
    else routeLoop localAddr remote rest (adapter, islocal)

/-- The adapter to use, and the hardware address of the next hop. -/
def netRoute (adapters : List Adapter) (adapter : Option Adapter) (localAddr remote : BitVec 32)
    (reply : Option MacAddr) : Except Errno (Adapter × MacAddr) × List (List Byte) :=
  let found : Except Errno (Option Adapter × Bool) :=
    match adapter with
    | some a =>
      if localAddr ≠ inaddrAny ∧ localAddr ≠ a.ip then .error .enetunreach
      else .ok (some a, a.reaches remote)
    | none => .ok (routeLoop localAddr remote adapters (none, false))
  match found with
  | .error errno => (.error errno, [])
  | .ok (none, _) => (.error .enetunreach, [])
  | .ok (some a, islocal) =>
    match netLookup adapters a (if islocal then remote else a.gateway) reply with
    | (.ok mac, sent) => (.ok (a, mac), sent)
    | (.error errno, sent) => (.error errno, sent)

/-! ## Sending -/

/-- The way a frame takes from `net_sendinet`. -/
inductive Output where
  /-- Into the queue of one of our adapters. -/
  | fed (adapter : Adapter) (frame : List Byte)
  /-- To `txpacket`. -/
  | whole (frame : List Byte)
  /-- To `net_fragment`. -/
  | fragmented (frame : List Byte)

def Output.frame : Output → List Byte
  | .fed _ frame | .whole frame | .fragmented frame => frame

/-- The header that `net_sendinet` writes. `alloc` has cleared the fields that it does not set. -/
def sendHeader (adapter : Adapter) (dest : BitVec 32) (protocol : BitVec 8) (length : Nat) :
    InetHeader :=
  InetHeader.sealed {
    ihl := 5
    version := 4
    ecn := 0
    dscp := 0
    len := bswap16 (BitVec.ofNat 16 (inetSize + length))
    id := bswap16 adapter.ipframe
    fragoff := 0
    ttl := 64
    protocol
    csum := 0
    src := adapter.ip
    dest }

/-- The adapter counts the datagrams that it sends. -/
def netSendinet (adapters : List Adapter) (adapter : Adapter) (reply : Option MacAddr)
    (src dest : BitVec 32) (protocol : BitVec 8) (data : List Byte) :
    Except Errno (Adapter × Output) :=
  let hop : Except Errno (Adapter × MacAddr) :=
    if dest = inaddrBroadcast then .ok (adapter, macBroadcast)
    else (netRoute adapters (some adapter) src dest reply).1
  match hop with
  | .error errno => .error errno
  | .ok (adapter, mac) =>
    let header := sendHeader adapter dest protocol data.length
    let frame := etherFrame mac adapter.mac ethProtoIPv4 (header.bytes ++ data)
    let counted := { adapter with ipframe := adapter.ipframe + 1 }
    match netFindadapterbyip adapters dest with
    | some a => .ok (counted, .fed a frame)
    | none =>
      if adapter.mtu ≠ 0 ∧ adapter.mtu < linkSize + inetSize + data.length then
        .ok (counted, .fragmented frame)
      else .ok (counted, .whole frame)

/-! ## Fragments -/

/-- The variables of the loop in `net_fragment`. -/
structure Fragmenting where
  heap : Slabs.State
  /-- The header that the next fragment copies. -/
  inetheader : Nat
  left : Nat
  poff : Nat
  fragoff : BitVec 16

/-- What the MTU leaves behind the headers, as a `size_t`. -/
def room (mtu : Nat) : Nat := u64 (2 ^ 64 + mtu - inetSize - linkSize)

/-- How many bytes the fragments but the last one carry, in units of 8. -/
def nfb (mtu : Nat) : Nat := room mtu / 8 % 2 ^ 16

/-- How many bytes the next fragment carries: the last one takes the rest. -/
def cop (mtu left : Nat) : Nat := if left ≤ room mtu then left else nfb mtu * 8 % 2 ^ 16

/-- The field `fragoff` of the next fragment. -/
def fragField (mtu left : Nat) (mf fragoff : BitVec 16) : BitVec 16 :=
  let tmp := mf ||| (ipOffMask &&& fragoff)
  if left ≤ room mtu then tmp else tmp ||| ipFlagMF

/-- A fragment is made at `buf`: the link layer and the data come from `buffer`, the header from
`inetheader`. -/
def fillFragment (mem : Mem) (buf buffer inetheader poff cop : Nat) (tmp : BitVec 16) : Mem :=
  let mem := copy mem buf buffer linkSize
  let mem := copy mem (buf + linkSize) inetheader inetSize
  let inetheader := buf + linkSize
  let mem := copy mem (inetheader + inetSize) (buffer + poff) cop
  let mem := blit mem (inetheader + 6) (bytes16 (bswap16 tmp))
  let mem := blit mem (inetheader + 2) (bytes16 (bswap16 (BitVec.ofNat 16 (cop + inetSize))))
  let mem := blit mem (inetheader + 10) (bytes16 0)
  blit mem (inetheader + 10) (bytes16 (netChecksum (fun k => mem (inetheader + k)) inetSize))

/-- A pass of the loop: the frame that is transmitted, and the variables behind it. `buffer` is the
address of the frame to be fragmented, `mf` the flag in its header. `page` is what `pmm.c` returns
if the allocator asks for pages. -/
def fragmentPass (mtu buffer : Nat) (mf : BitVec 16) (page : Nat) (v : Fragmenting) :
    List Byte × Fragmenting :=
  let cop := cop mtu v.left
  match Slabs.slabAlloc v.heap (linkSize + inetSize + cop) page with
  | (buf, heap) =>
    let mem := fillFragment heap.mem buf buffer v.inetheader v.poff cop
      (fragField mtu v.left mf v.fragoff)
    -- the header stays in a block that is freed
    (slice mem buf (linkSize + inetSize + cop),
      { heap := (Slabs.slabFree { heap with mem } buf).2
        inetheader := buf + linkSize
        left := v.left - cop
        poff := (v.poff + cop) % 2 ^ 16
        fragoff := v.fragoff + BitVec.ofNat 16 (nfb mtu) })

/-- The loop. `page k` is for the pass `k`. With an MTU of at least 42 every pass takes something
off `left`, and `left` passes are enough. -/
def fragmentLoop (mtu buffer : Nat) (mf : BitVec 16) :
    Nat → (Nat → Nat) → Fragmenting → List (List Byte) × Fragmenting
  | 0, _, v => ([], v)
  | fuel + 1, page, v =>
    if v.left = 0 then ([], v)
    else
      match fragmentPass mtu buffer mf (page 0) v with
      | (frame, v) =>
        match fragmentLoop mtu buffer mf fuel (fun k => page (k + 1)) v with
        | (frames, v) => (frame :: frames, v)

/-- `buffer` is the address of a frame with `length` bytes. -/
def netFragment (mtu : Nat) (heap : Slabs.State) (page : Nat → Nat) (buffer length : Nat) :
    List (List Byte) × Slabs.State :=
  let tmp := bswap16 (load16 heap.mem (buffer + linkSize + 6))
  let left := (length - inetSize - linkSize) % 2 ^ 16
  match fragmentLoop mtu buffer (tmp &&& ipFlagMF) left page
    { heap, inetheader := buffer + linkSize, left, poff := linkSize + inetSize,
      fragoff := tmp &&& ipOffMask } with
  | (frames, v) => (frames, v.heap)

/-- What `net_sendinet` does with the heap where a frame is fragmented: the frame has a block of its
own, and the fragments are transmitted from others. -/
def sendFragments (mtu : Nat) (heap : Slabs.State) (page : Nat → Nat) (frame : List Byte) :
    List (List Byte) × Slabs.State :=
  match Slabs.slabAlloc heap frame.length (page 0) with
  | (buffer, heap) =>
    let heap := { heap with mem := blit heap.mem buffer frame }
    match netFragment mtu heap (fun k => page (k + 1)) buffer frame.length with
    | (frames, heap) => (frames, (Slabs.slabFree heap buffer).2)

end Lyre.Net

/-!
## `dev/net/net.c`: the MTU of an adapter

A driver sets `type` and `hwmtu` and calls `net_register`. `SIOCSIFMTU` is a request of
`net_ifioctl`; its argument is an `int` and `mtu` is a `size_t`. What `net_sendinet` gives to
`txpacket` is a list of frames.
-/

namespace Lyre.Net

/-- `NET_ADAPTERETH` and `NET_ADAPTERLO`. -/
def netAdapterEth : BitVec 8 := 1
def netAdapterLo : BitVec 8 := 2

/-- `struct net_adapter` with what its driver has set. The loopback device has an Ethernet frame
as well. -/
structure Device where
  adapter : Adapter
  type : BitVec 8
  hwmtu : Nat
  ether : type &&& netAdapterEth ≠ 0

def Device.setMtu (this : Device) (mtu : Nat) : Device :=
  { this with adapter := { this.adapter with mtu } }

def netRegister (this : Device) : Device :=
  let this :=
    if this.type &&& netAdapterLo ≠ 0 then this.setMtu 0
    else if this.type &&& netAdapterEth ≠ 0 then this.setMtu 1500
    else this
  { this with adapter := { this.adapter with addrcache := [] } }

/-- An `int` as a `size_t`. -/
def mtuOf (ifruMtu : BitVec 32) : Nat := (ifruMtu.signExtend 64).toNat

/-- `SIOCSIFMTU`. The MTU that is compared is the one that the adapter has. -/
def siocsifmtu (this : Device) (ifruMtu : BitVec 32) : Except Errno Unit × Device :=
  if this.hwmtu ≠ 0 then
    if this.hwmtu < this.adapter.mtu then (.error .einval, this)
    else if ifruMtu ≠ 0 then (.ok (), this.setMtu (mtuOf ifruMtu))
    else (.error .einval, this)
  else (.ok (), this.setMtu (mtuOf ifruMtu))

/-! ## What is transmitted -/

/-- The ARP request, if `net_sendinet` has to make one. -/
def arpTransmitted (adapters : List Adapter) (adapter : Adapter) (reply : Option MacAddr)
    (src dest : BitVec 32) : List (List Byte) :=
  if dest = inaddrBroadcast then [] else (netRoute adapters (some adapter) src dest reply).2

/-- The frames of the datagram. -/
def Output.transmitted (mtu : Nat) (heap : Slabs.State) (page : Nat → Nat) :
    Output → List (List Byte)
  | .fed .. => []
  | .whole frame => [frame]
  | .fragmented frame => (sendFragments mtu heap page frame).1

end Lyre.Net
