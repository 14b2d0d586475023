import Lyre.Dev.NetReassemble
import Lyre.Ipc.TcpReceive

/-!
# `ipc/socket/udp.c`: datagrams

A port is stored as it is in a header. The blocking calls are modelled up to the point where they
would wait.
-/

namespace Lyre.Udp

open Infra.Bytes Infra.Ring Net

/-- `sizeof(struct udp_header)`. -/
def headerSize : Nat := 8

/-- `struct udp_header`, with the fields as they are in memory. -/
structure Header where
  srcport : BitVec 16
  destport : BitVec 16
  length : BitVec 16
  csum : BitVec 16
  deriving DecidableEq, Repr

def Header.bytes (h : Header) : List Byte :=
  bytes16 h.srcport ++ bytes16 h.destport ++ bytes16 h.length ++ bytes16 h.csum

def loadHeader (buf : Mem) : Header where
  srcport := load16 buf 0
  destport := load16 buf 2
  length := load16 buf 4
  csum := load16 buf 6

/-- `struct udp_packet`. -/
structure Packet where
  srcip : BitVec 32
  srcport : BitVec 16
  data : List Byte
  deriving DecidableEq, Repr

/-- `struct udp_socket`. -/
structure Socket where
  port : BitVec 16
  packets : List Packet
  pollin : Bool
  recenttimestamp : BitVec 32
  deriving DecidableEq, Repr

/-- The index of the first socket with the port. -/
def udpGrabsocket (sockets : List Socket) (port : BitVec 16) : Option Nat :=
  sockets.findIdx? fun socket => socket.port = port

/-! ## Sending -/

/-- What is passed to `net_sendinet`: the header and the data, as far as the length in the header
reaches. -/
def sendData (srcport destport : BitVec 16) (buf : List Byte) : List Byte :=
  let length := BitVec.ofNat 16 (headerSize + buf.length)
  (Header.bytes ⟨srcport, destport, bswap16 length, 0⟩ ++ buf).take length.toNat

def udpSendpacket (adapters : List Adapter) (adapter : Adapter) (reply : Option MacAddr)
    (src dest : BitVec 32) (srcport destport : BitVec 16) (buf : List Byte) :
    Except Errno (Adapter × Output) :=
  netSendinet adapters adapter reply src dest protoUDP (sendData srcport destport buf)

/-! ## Receiving -/

/-- `now` is the time in seconds. -/
def udpNetpacket (this : Socket) (now : BitVec 32) (src : BitVec 32) (srcport : BitVec 16)
    (buf : Mem) (length : Nat) : Socket :=
  { this with
    packets := this.packets ++ [⟨src, srcport, slice buf 0 length⟩]
    pollin := true
    recenttimestamp := now }

/-- A call of `net_sendinet`. -/
structure Request where
  src : BitVec 32
  dest : BitVec 32
  protocol : BitVec 8
  data : List Byte
  deriving DecidableEq, Repr

/-- An ICMP packet: `data` follows the header, and the checksum counts `length` bytes. -/
def icmpBytes (type code : Byte) (data : List Byte) (length : Nat) : List Byte :=
  [type, code] ++ bytes16 (netChecksum (memOf ([type, code, 0, 0] ++ data)) length) ++ data

/-- What `udp_onudp` gets from elsewhere. -/
structure Env where
  now : BitVec 32
  /-- The address of the adapter. -/
  ip : BitVec 32
  /-- The 20 bytes at the address of the variable `inetheader`. -/
  stack : List Byte

/-- Offsets of accesses begin at the IPv4 header. -/
def udpOnudp (env : Env) (sockets : List Socket) (inetheader : InetHeader) (data : Mem)
    (length : Nat) : List Socket × List Request × List Access :=
  let told := .told .onudp inetSize length
  if length < headerSize then (sockets, [], [told])
  else
    let header := loadHeader data
    let read := .read inetSize headerSize
    let payload := (bswap16 header.length).toNat
    if length < payload then (sockets, [], [told, read])
    else
      match udpGrabsocket sockets header.destport with
      | some i =>
        let buf : Mem := fun k => data (headerSize + k)
        (sockets.modify i fun socket =>
            udpNetpacket socket env.now inetheader.src header.srcport buf payload, [],
          [told, read, .read (inetSize + headerSize) payload])
      | none =>
        -- the pointer is copied, not the header
        let reply := icmpBytes 3 3 (env.stack ++ slice data 0 inetheader.length)
          (4 + inetSize + inetheader.length)
        (sockets, [⟨env.ip, inetheader.src, protoICMP, reply.take length⟩],
          [told, read, .read inetSize inetheader.length])

inductive Result where
  /-- What is in the buffers of the message, and the address of the sender. -/
  | bytes (data : List Byte) (srcip : BitVec 32) (srcport : BitVec 16)
  | error (errno : Errno)
  /-- The thread waits for an event, and tries again. -/
  | wait
  deriving DecidableEq, Repr

/-- `lens` are the lengths of the buffers of the message. -/
def udpRecvmsg (this : Socket) (nonblock dontwait : Bool) (lens : List Nat) : Result × Socket :=
  match this.packets with
  | [] =>
    (if dontwait then .error .eagain else if nonblock then .error .ewouldblock else .wait, this)
  | packet :: packets =>
    let count := min (lens.sum % 2 ^ 64) packet.data.length
    (.bytes (Tcp.scatter lens (packet.data.take count)).flatten packet.srcip packet.srcport,
      { this with packets, pollin := !packets.isEmpty && this.pollin })

end Lyre.Udp
