import Lyre.Dev.NetReassemble
import Lyre.Ipc.TcpReceive

/-!
# `ipc/socket/tcp.c`: finding the socket for a segment

A segment for which there is no socket is answered by a reset, and others are handed to
`tcp_netpacket`.
-/

namespace Lyre.Tcp

open Net

/-- The index of the first socket with the connection. -/
def tcpGrabsocket (sockets : List Socket) (conn : Connection) : Option Nat :=
  sockets.findIdx? fun socket => socket.conn = conn

/-- An established connection, a listening socket at the address, or one at any address. -/
def tcpTryfindsocket (sockets : List Socket) (conn : Connection) : Option Nat :=
  match tcpGrabsocket sockets conn with
  | some i => some i
  | none =>
    let conn := { conn with remote := 0, remoteport := 0 }
    match tcpGrabsocket sockets conn with
    | some i => some i
    | none => tcpGrabsocket sockets { conn with localAddr := 0 }

/-- What becomes of a segment. -/
inductive Handled where
  | dropped
  | reset (segment : Segment)
  /-- What `tcp_netpacket` makes of the socket with the index. -/
  | socket (i : Nat) (c : Ctx)

/-- The socket that a segment is handed to: a socket that is closed does not count. -/
def receiver (sockets : List Socket) (conn : Connection) : Option (Nat × Socket) :=
  match tcpTryfindsocket sockets conn with
  | none => none
  | some i =>
    match sockets[i]? with
    | none => none
    | some sock => if sock.tcpstate = .closed then none else some (i, sock)

/-- The connection that a segment belongs to. -/
def segmentConn (inetheader : InetHeader) (data : Nat → Byte) : Connection :=
  ⟨inetheader.dest, inetheader.src, load16 data 2, load16 data 0⟩

/-- Offsets of accesses begin at the IPv4 header. `env i` is for the socket with the index `i`. -/
def tcpOntcp (env : Nat → Env) (sockets : List Socket) (inetheader : InetHeader)
    (data : Nat → Byte) (length : Nat) : Handled × List Access :=
  let header := loadHeader data
  -- the ports, and the byte with `doff`
  let start := [.told .ontcp inetSize length, .read inetSize 4, .read (inetSize + 12) 1]
  if header.doff * 4 < headerSize then (.dropped, start)
  else
    match receiver sockets (segmentConn inetheader data) with
    | none =>
      let flags := .read (inetSize + 13) 1
      if header.flags.rst then (.dropped, start ++ [flags])
      else if header.flags.ack = false then
        (.reset ⟨0, bswap32 header.sequence + 1, { rst := true, ack := true }, 0, []⟩,
          start ++ [flags, .read (inetSize + 4) 4])
      else
        (.reset ⟨bswap32 header.acknumber, 0, { rst := true }, 0, []⟩,
          start ++ [flags, .read (inetSize + 8) 4])
    | some (i, sock) =>
      let left := sub64 length headerSize
      let payload := inetSize + header.doff * 4
      let len := (loadPacket data left).len
      (.socket i (tcpNetpacket (env i) sock inetheader.src inetheader.dest data left),
        start ++ [.read inetSize headerSize, .told .netpacket payload len, .read payload len])

end Lyre.Tcp

/-!
## `ipc/socket/tcp.c`: segments as bytes

`tcp_sendsegment` writes a header, options and data into one buffer, and hands it to
`net_sendinet`. `tcp_netpacket` copies the header of a segment into a `struct tcp_packet`, where
the length of the data and a pointer to a copy of it come next.
-/

namespace Lyre.Tcp

open Net

/-! ## Headers -/

/-- The byte with the flags. -/
def Flags.byte (flags : Flags) : Byte :=
  0#3 ++ BitVec.ofBool flags.ack ++ BitVec.ofBool flags.psh ++ BitVec.ofBool flags.rst ++
    BitVec.ofBool flags.syn ++ BitVec.ofBool flags.fin

/-- `struct tcp_header` in memory; `urgent` is 0. -/
def Header.bytes (h : Header) (csum : BitVec 16) : List Byte :=
  bytes16 h.srcport ++ bytes16 h.destport ++ bytes32 h.sequence ++ bytes32 h.acknumber ++
    [BitVec.ofNat 8 (h.doff * 16), h.flags.byte] ++ bytes16 h.winsize ++ bytes16 csum ++ bytes16 0

def segmentHeader (segment : Segment) (conn : Connection) (optlen : Nat) : Header where
  srcport := conn.localport
  destport := conn.remoteport
  sequence := bswap32 segment.seq
  acknumber := bswap32 segment.ack
  doff := (headerSize + optlen) / 4 % 16
  flags := segment.flags
  winsize := bswap16 segment.window

/-! ## Options -/

/-- `time_monotonic.tv_sec`, as far as the option has room for it. -/
def timestamp (now : Nat) : BitVec 32 := BitVec.ofNat 32 (now / 1000000000)

/-- What the MTU leaves for data, with 40 bytes for options. -/
def mssOf (mtu : Nat) : BitVec 16 :=
  BitVec.ofNat 16 (sub64 mtu (linkSize + (inetSize + headerSize + 40)))

/-- Two `NOP`s, and timestamps in 10 bytes. -/
def timestampOption (now : Nat) (sock : Socket) : List Byte :=
  bytes32 (bswap32 0x0101080a) ++ bytes32 (bswap32 (timestamp now)) ++
    bytes32 (bswap32 sock.recenttimestamp)

/-- `TCP_OPTMSS` in 4 bytes. -/
def mssOption (mtu : Nat) : List Byte := [2, 4] ++ bytes16 (bswap16 (mssOf mtu))

/-- The socket that a segment is sent for, if it has timestamps. There is none for some resets. -/
def timestamped (sock : Option Socket) : Option Socket := sock.filter (·.flagTs)

def segmentOptions (mtu now : Nat) (syn : Bool) (sock : Option Socket) : List Byte :=
  (timestamped sock).elim [] (timestampOption now) ++ if syn then mssOption mtu else []

/-! ## Checksums -/

/-- What `tcp_checksum` does for the header of its own, and for the segment. -/
def checksumPass (csum : BitVec 32) (data : Nat → Byte) (length : Nat) : BitVec 32 :=
  let csum := (List.range (length / 2)).foldl
    (fun csum i => csum + (load16 data (2 * i)).setWidth 32) csum
  let csum := if length % 2 = 1 then csum + (data (length - 1)).setWidth 32 else csum
  (csum &&& 0xffff) + (csum >>> 16)

def tcpChecksum (src dest : BitVec 32) (data : Nat → Byte) (length : BitVec 16) : BitVec 16 :=
  let header := bytes32 src ++ bytes32 dest ++ [0, protoTCP] ++ bytes16 (bswap16 length)
  let csum := checksumPass 0 (memOf header) header.length
  (~~~ checksumPass csum data length.toNat).setWidth 16

/-! ## Segments -/

/-- The buffer that `tcp_sendsegment` hands to `net_sendinet`. -/
def segmentBytes (adapter : Adapter) (now : Nat) (segment : Segment) (conn : Connection)
    (sock : Option Socket) : List Byte :=
  let opts := segmentOptions adapter.mtu now segment.flags.syn sock
  let header := segmentHeader segment conn opts.length
  let behind := opts ++ segment.data
  let buf := header.bytes 0 ++ behind
  let csum := tcpChecksum adapter.ip conn.remote (memOf buf) (BitVec.ofNat 16 buf.length)
  header.bytes csum ++ behind

/-- What comes behind the header in `struct tcp_packet`: `len`, and `data`, which is `NULL` if there
is nothing to be copied. `beyond` is memory behind the structure. -/
def behindHeader (len : Nat) (data : BitVec 64) (beyond : Nat → Byte) : Nat → Byte := fun k =>
  if k < 4 then (BitVec.ofNat 32 len).extractLsb' (8 * k) 8
  else if k < 12 then (if len = 0 then 0#64 else data).extractLsb' (8 * (k - 4)) 8
  else beyond k

end Lyre.Tcp
