import Lyre.Lib.Errno
import Lyre.Lib.Vector

/-!
# `ipc/socket/tcp.c`: sockets and what they send

Sequence numbers are `uint32_t`, and so they are 32-bit vectors here. Time is counted in
nanoseconds. `Ctx` is a socket together with what a function does besides changing it: the segments
it hands to `net_sendinet`, the socket it creates for a connection, and whether the socket is put
in the backlog of its parent.

Locks and `event_trigger` have no counterpart.
-/

namespace Lyre.Tcp

abbrev Byte := BitVec 8

inductive TcpState where
  | closed
  | listen
  | synsent
  | synrecv
  | established
  | closewait
  | finwait1
  | closing
  | lastack
  | finwait2
  | timewait
  deriving DecidableEq, Repr

inductive EventState where
  | data
  | reset
  | closed
  deriving DecidableEq, Repr

inductive SocketState where
  | created
  | bound
  | listening
  | connected
  | closed
  deriving DecidableEq, Repr

/-- The flags of `struct tcp_flags` that the code sets or looks at. -/
structure Flags where
  fin : Bool := false
  syn : Bool := false
  rst : Bool := false
  psh : Bool := false
  ack : Bool := false
  deriving DecidableEq, Repr

/-! ## Streams -/

/-- `struct tcp_stream`: the bytes before `pos`. -/
structure Stream where
  size : Nat
  buf : List Byte
  deriving DecidableEq, Repr

def Stream.pos (stream : Stream) : Nat := stream.buf.length

/-- The bytes that are read, and what is left. -/
def tcpStreamread (stream : Stream) (len : Nat) : List Byte × Stream :=
  let len := if stream.pos < len then stream.pos else len
  (stream.buf.take len, { stream with buf := stream.buf.drop len })

/-- `none` for -1. -/
def tcpStreamwrite (stream : Stream) (data : List Byte) : Option Stream :=
  if stream.size < stream.pos + data.length then none
  else some { stream with buf := stream.buf ++ data }

/-! ## Sockets -/

structure Connection where
  localAddr : BitVec 32
  remote : BitVec 32
  localport : BitVec 16
  remoteport : BitVec 16
  deriving DecidableEq, Repr

structure RetransmitEntry where
  first : Nat
  last : Nat
  rto : Nat
  seq : BitVec 32
  flags : Flags
  data : List Byte
  deriving DecidableEq, Repr

/-- `POLLIN`, `POLLOUT` and `POLLHUP` of `status`. -/
structure Status where
  pollin : Bool := false
  pollout : Bool := false
  pollhup : Bool := false
  deriving DecidableEq, Repr

structure Socket where
  state : SocketState
  status : Status
  adapter : Option Nat
  conn : Connection
  /-- The listening socket that created this one. -/
  parent : Option Nat
  tcpstate : TcpState
  timewaittimer : Nat
  retransmitqueue : List RetransmitEntry
  /-- `tcp_queuecleanup` has freed the storage of the queue. -/
  queueFreed : Bool
  eventstate : EventState
  maxseg : BitVec 16
  /-- `TCP_FLAGTS`. -/
  flagTs : Bool
  snduna : BitVec 32
  sndnxt : BitVec 32
  sndwl1 : BitVec 32
  sndwl2 : BitVec 32
  sndis : BitVec 32
  sndwnd : BitVec 32
  rcvwnd : BitVec 32
  rcvnxt : BitVec 32
  rcvis : BitVec 32
  recenttimestamp : BitVec 32
  lastack : BitVec 32
  rcvbuf : Stream
  /-- The socket is no longer in `tcp_sockets`, and `resource_free` has been called. -/
  freed : Bool
  deriving DecidableEq, Repr

/-- `TCP_BUFFERSIZE`. -/
def tcpBufferSize : Nat := 0xffff

/-- `socket_create_tcp`: the memory is zeroed, and the buffer is allocated. -/
def socketCreateTcp : Socket where
  state := .created
  status := {}
  adapter := none
  conn := ⟨0, 0, 0, 0⟩
  parent := none
  tcpstate := .closed
  timewaittimer := 0
  retransmitqueue := []
  queueFreed := false
  eventstate := .data
  maxseg := 0
  flagTs := false
  snduna := 0
  sndnxt := 0
  sndwl1 := 0
  sndwl2 := 0
  sndis := 0
  sndwnd := 0
  rcvwnd := 0
  rcvnxt := 0
  rcvis := 0
  recenttimestamp := 0
  lastack := 0
  rcvbuf := ⟨tcpBufferSize, []⟩
  freed := false

/-! ## Sending -/

/-- What `tcp_sendsegment` hands to `net_sendinet`, without options. -/
structure Segment where
  seq : BitVec 32
  ack : BitVec 32
  flags : Flags
  window : BitVec 16
  data : List Byte
  deriving DecidableEq, Repr

structure Ctx where
  this : Socket
  /-- The oldest one first. -/
  sent : List Segment := []
  spawned : Option Socket := none
  backlogged : Bool := false
  deriving DecidableEq, Repr

def tcpSendsegment (c : Ctx) (seq ack : BitVec 32) (flags : Flags) (window : BitVec 16)
    (data : List Byte) : Ctx :=
  { c with sent := c.sent ++ [⟨seq, ack, flags, window, data⟩] }

/-- A segment that resets a connection, sent for no socket. -/
def sendReset (c : Ctx) (seq : BitVec 32) : Ctx := tcpSendsegment c seq 0 { rst := true } 0 []

def tcpQueueforretransmit (this : Socket) (now : Nat) (seq : BitVec 32) (flags : Flags)
    (data : List Byte) : Socket :=
  { this with
    retransmitqueue := this.retransmitqueue ++
      [{ first := now, last := now, rto := 200000, seq, flags, data }] }

/-- The window of a segment is a `uint16_t`. -/
def tcpSend (c : Ctx) (now : Nat) (flags : Flags) (data : List Byte) : Ctx :=
  let seq := if flags.syn then c.this.sndis else c.this.sndnxt
  let this :=
    if flags.syn || flags.fin || data.length != 0 then
      tcpQueueforretransmit c.this now seq flags data
    else c.this
  tcpSendsegment { c with this } seq this.rcvnxt flags (this.rcvwnd.setWidth 16) data

/-- An acknowledgement of what has been received. -/
def sendAck (c : Ctx) (now : Nat) : Ctx := tcpSend c now { ack := true } []

/-- A round of the loop in `tcp_write` and `tcp_sendmsg`, with `rest` still to be sent; `none` if
there is no space in the window. `mtuSeg` is what the adapter allows. -/
def sendRound (c : Ctx) (now mtuSeg : Nat) (rest : List Byte) : Option Ctx :=
  let mss := if c.this.maxseg = 0 then mtuSeg else c.this.maxseg.toNat
  let cap := (c.this.sndwnd - (c.this.sndnxt - c.this.snduna)).toNat
  if cap = 0 then none
  else
    let seglen := min (min mss rest.length) cap
    let c := tcpSend c now { psh := true, ack := true } (rest.take seglen)
    some { c with this := { c.this with sndnxt := c.this.sndnxt + BitVec.ofNat 32 seglen } }

/-- The loop of `tcp_queuecleanup`: the index goes up although an entry is removed. -/
def queuecleanupLoop (snduna : BitVec 32) : Nat → Nat → List RetransmitEntry →
    List RetransmitEntry
  | 0, _, queue => queue
  | fuel + 1, i, queue =>
    match queue[i]? with
    | none => queue
    | some entry =>
      if snduna ≤ entry.seq then queue
      else queuecleanupLoop snduna fuel (i + 1) (vectorRemove queue i)

def tcpQueuecleanup (this : Socket) : Socket :=
  { this with
    retransmitqueue :=
      queuecleanupLoop this.snduna this.retransmitqueue.length 0 this.retransmitqueue
    queueFreed := true }

def tcpSettimewait (this : Socket) (now : Nat) : Socket :=
  { this with timewaittimer := now + 12 * 1000000000 }

def tcpSetstate (this : Socket) (state : TcpState) : Socket := { this with tcpstate := state }

/-- The end of `tcp_close`, if the state is `CLOSED`. -/
def closeResources (this : Socket) : Socket :=
  { tcpQueuecleanup { this with adapter := none } with freed := true }

/-- `FIN`, which takes a sequence number. -/
def sendFin (c : Ctx) (now : Nat) (state : TcpState) : Ctx :=
  let c := tcpSend c now { fin := true, ack := true } []
  { c with this := tcpSetstate { c.this with sndnxt := c.this.sndnxt + 1 } state }

def tcpClose (c : Ctx) (now : Nat) : Bool × Ctx :=
  match c.this.tcpstate with
  | .closed => (true, { c with this := closeResources c.this })
  | .listen | .synsent => (true, { c with this := closeResources (tcpSetstate c.this .closed) })
  | .established | .synrecv => (true, sendFin c now .finwait1)
  | .finwait1 | .finwait2 | .closing | .lastack | .timewait => (false, c)
  | .closewait => (true, sendFin c now .lastack)

end Lyre.Tcp
