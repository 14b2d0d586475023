import Lyre.Ipc.TcpInput
import Lyre.Ipc.Udp

/-!
# `dev/net/net.c`: what is done with a packet

Replies are calls of `net_sendinet`, which are recorded (`Request`), or ARP frames.
-/

namespace Lyre.Net

open Infra.Bytes Infra.Ring Udp

/-- `sizeof(struct net_icmpheader)`. -/
def icmpSize : Nat := 4

/-- What the handlers look up in. -/
structure Host where
  adapters : List Adapter
  metas : List Reassmetadata
  udpSockets : List Udp.Socket
  tcpSockets : List Tcp.Socket

/-- What the handlers get from elsewhere. -/
structure Env where
  udp : Udp.Env
  tcp : Nat → Tcp.Env
  fresh : Mem
  beyond : Mem

/-- `ip` is the address of the adapter. -/
def netOnicmp (ip : BitVec 32) (inetheader : InetHeader) (data : Mem) (length : Nat) :
    List Request × List Access :=
  let told := .told .onicmp inetSize length
  if length < icmpSize then ([], [told])
  else if data 0 = 8 then
    let reply := icmpBytes 0 0 (slice data icmpSize (length - icmpSize)) length
    ([⟨ip, inetheader.src, protoICMP, reply⟩],
      [told, .read inetSize 1, .read (inetSize + icmpSize) (length - icmpSize)])
  else ([], [told, .read inetSize 1])

/-- What has been done with a packet. -/
structure Outcome where
  host : Host
  requests : List Request := []
  /-- A segment has been handled. -/
  tcp : Tcp.Handled := .dropped
  /-- Frames that are transmitted at once. -/
  frames : List (List Byte) := []
  /-- Accesses to the packet. -/
  packet : List Access := []
  /-- How long a reassembled datagram is, and the accesses to it. -/
  datagram : Nat × List Access := (0, [])

/-- The `switch` of `net_oninet`. -/
def dispatch (env : Env) (host : Host) (datagram : Datagram) : Outcome × List Access :=
  let header := datagram.header
  let data := datagram.data
  let length := header.length
  if header.protocol = protoICMP then
    match netOnicmp env.udp.ip header data (sub64 length inetSize) with
    | (requests, accesses) => ({ host, requests }, accesses)
  else if header.protocol = protoTCP then
    match Tcp.tcpOntcp env.tcp host.tcpSockets header data (sub64 length inetSize) with
    | (tcp, accesses) => ({ host, tcp }, accesses)
  else if header.protocol = protoUDP then
    match udpOnudp env.udp host.udpSockets header data (sub64 length inetSize) with
    | (udpSockets, requests, accesses) => ({ host := { host with udpSockets }, requests }, accesses)
  else
    let reply := icmpBytes 3 2 (header.bytes ++ slice data 0 length) (icmpSize + inetSize + length)
    ({ host, requests := [⟨env.udp.ip, header.src, protoICMP, reply.take length⟩] },
      [.read 0 inetSize, .read inetSize length])

/-- `length` is the length of the packet at `buf`. -/
def netOninet (env : Env) (host : Host) (buf : Mem) (length : Nat) : Outcome :=
  match inetAccept host.metas buf length env.fresh env.beyond with
  | (none, metas, accesses) => { host := { host with metas }, packet := accesses }
  | (some datagram, metas, accesses) =>
    match dispatch env { host with metas } datagram with
    | (outcome, more) =>
      if (loadInet buf).isFragment then
        { outcome with packet := accesses, datagram := (inetSize + datagram.size, more) }
      else { outcome with packet := accesses ++ more }

/-- The reply to an ARP request. -/
def arpReply (arpadapter : Adapter) (header : ArpHeader) : List Byte :=
  etherFrame header.srchw arpadapter.mac ethProtoARP (ArpHeader.bytes {
    hwtype := bswap16 adapterEth
    prtype := bswap16 ethProtoIPv4
    hwlen := 6
    plen := 4
    opcode := bswap16 2
    srchw := arpadapter.mac
    srcpr := arpadapter.ip
    desthw := header.srchw
    destpr := header.srcpr })

/-- `self` is the index of the adapter. -/
def netOnarp (host : Host) (self : Nat) (buf : Mem) (length : Nat) : Outcome :=
  if length < arpSize then { host }
  else
    let header := loadArp buf
    let frames :=
      if bswap16 header.opcode = 1 then
        match netFindadapterbyip host.adapters header.destpr with
        | some arpadapter => [arpReply arpadapter header]
        | none => []
      else []
    let learn (adapter : Adapter) : Adapter :=
      { adapter with addrcache := adapter.addrcache ++ [(header.srcpr, header.srchw)] }
    { host := { host with adapters := host.adapters.modify self learn }
      frames
      packet := [.read 0 arpSize] }

/-- `struct net_packet`. The bytes from `len` on are memory that has not been received. -/
structure Packet where
  data : Mem
  len : Nat
  lt : len < 2 ^ 64

/-- A pass of the loop in `net_ifhandler`. -/
def netIfhandler (env : Env) (host : Host) (self : Nat) (packet : Packet) : Outcome :=
  let type := bswap16 (load16 packet.data 12)
  let buf : Mem := fun k => packet.data (linkSize + k)
  let length := sub64 packet.len linkSize
  let pass (handler : Handler) (outcome : Outcome) : Outcome :=
    { outcome with
      packet := .read 12 2 :: .told handler linkSize length ::
        outcome.packet.map (Access.shift linkSize) }
  if type = ethProtoIPv4 then pass .oninet (netOninet env host buf length)
  else if type = ethProtoARP then pass .onarp (netOnarp host self buf length)
  else { host, packet := [.read 12 2] }

end Lyre.Net
