import Lyre.Ipc.Tcp
import Lyre.Lib.Endian
import Mathlib.Algebra.GroupWithZero.Nat

/-!
# `ipc/socket/tcp.c`: segments that arrive, and reading

`tcp_netpacket` is cut where the source has its `switch` statements. Each part leads on, or to
`dropsegment` (`Except.error`).

A segment is in memory, and so are the bytes behind the header in `struct tcp_packet`, where
`tcp_parseoptions` looks for options.
-/

namespace Lyre.Tcp

/-! ## Packets -/

/-- `struct tcp_header`, with the fields as they are in memory. -/
structure Header where
  srcport : BitVec 16
  destport : BitVec 16
  sequence : BitVec 32
  acknumber : BitVec 32
  doff : Nat
  flags : Flags
  winsize : BitVec 16
  deriving DecidableEq, Repr

/-- `sizeof(struct tcp_header)`. -/
def headerSize : Nat := 20

def loadHeader (buf : Nat → Byte) : Header where
  srcport := load16 buf 0
  destport := load16 buf 2
  sequence := load32 buf 4
  acknumber := load32 buf 8
  doff := (buf 12).toNat / 16
  flags := {
    fin := (buf 13).getLsbD 0
    syn := (buf 13).getLsbD 1
    rst := (buf 13).getLsbD 2
    psh := (buf 13).getLsbD 3
    ack := (buf 13).getLsbD 4 }
  winsize := load16 buf 14

/-- `struct tcp_packet`. -/
structure Packet where
  header : Header
  data : List Byte
  deriving DecidableEq, Repr

namespace Packet

variable (packet : Packet)

def len : Nat := packet.data.length

def seq : BitVec 32 := bswap32 packet.header.sequence

def ack : BitVec 32 := bswap32 packet.header.acknumber

/-- The length of a segment counts `SYN` and `FIN`. -/
def seglen : Nat :=
  packet.len + packet.header.flags.syn.toNat + packet.header.flags.fin.toNat

end Packet

/-- The packet that `tcp_netpacket` makes of its buffer. `length` does not count the header, and
what options leave of it is a `uint32_t`. -/
def loadPacket (buf : Nat → Byte) (length : Nat) : Packet :=
  let header := loadHeader buf
  let optlen := (2 ^ 64 + header.doff * 4 - headerSize) % 2 ^ 64
  let len := (2 ^ 64 + length - optlen) % 2 ^ 64 % 2 ^ 32
  { header, data := (List.range len).map fun k => buf (header.doff * 4 + k) }

/-! ## Options -/

/-- The loop of `tcp_parseoptions` from index `i` on. -/
def parseoptionsLoop (packet : Packet) (opts : Nat → Byte) (max : Nat) :
    Nat → Nat → Socket → Socket
  | 0, _, this => this
  | fuel + 1, i, this =>
    if max ≤ i then this
    else
      match (opts i).toNat with
      | 0 => this
      | 1 => parseoptionsLoop packet opts max fuel (i + 1) this
      | 2 =>
        if opts (i + 1) ≠ 4 ∨ max < i + 4 then this
        else
          parseoptionsLoop packet opts max fuel (i + 4)
            { this with maxseg := opts (i + 2) ++ opts (i + 3) }
      | 8 =>
        if opts (i + 1) ≠ 10 ∨ max < i + 10 then this
        else
          let ts := load32 opts (i + 2)
          let behind := this.lastack - packet.seq
          let this :=
            if packet.header.flags.syn then
              { this with recenttimestamp := bswap32 ts, flagTs := true }
            else if 0 ≤ behind.toInt ∧ (behind + BitVec.ofNat 32 packet.len).toInt ≤ 0 then
              { this with recenttimestamp := bswap32 ts }
            else this
          parseoptionsLoop packet opts max fuel (i + 10) this
      | _ =>
        if opts (i + 1) = 0 then this
        else parseoptionsLoop packet opts max fuel (i + (opts (i + 1)).toNat) this

/-- `opts` is the memory behind the header of the packet. -/
def tcpParseoptions (this : Socket) (packet : Packet) (opts : Nat → Byte) : Socket :=
  let max := packet.header.doff * 4 - headerSize
  parseoptionsLoop packet opts max max 0 this

/-! ## `tcp_netpacket` -/

/-- What `tcp_netpacket` gets from elsewhere. -/
structure Env where
  now : Nat
  /-- The index of the socket. -/
  self : Nat
  /-- The adapter that `net_route` finds. -/
  route : Option Nat
  /-- Memory behind the header in `struct tcp_packet`. -/
  opts : Nat → Byte
  /-- What `random_generate` returns. -/
  random : BitVec 32

/-- A segment for a listening socket: `SYN` creates a socket. -/
def onListen (env : Env) (c : Ctx) (conn : Connection) (adapter : Nat) (packet : Packet) : Ctx :=
  if packet.header.flags.rst then c
  else if packet.header.flags.ack then sendReset c packet.ack
  else if packet.header.flags.syn then
    let socket :=
      { socketCreateTcp with
        parent := some env.self
        adapter := some adapter
        conn
        rcvwnd := BitVec.ofNat 32 tcpBufferSize
        rcvnxt := packet.seq + 1
        rcvis := packet.seq
        sndis := env.random }
    let socket := tcpParseoptions socket packet env.opts
    let r := tcpSend { this := socket } env.now { syn := true, ack := true } []
    let socket := { r.this with sndnxt := r.this.sndis + 1, snduna := r.this.sndis }
    { c with sent := c.sent ++ r.sent, spawned := some (tcpSetstate socket .synrecv) }
  else c

/-- The sequence numbers of `SYN` and `ACK`. -/
def receiveSyn (this : Socket) (packet : Packet) (acceptable : Bool) : Socket :=
  let this := { this with rcvnxt := packet.seq + 1, rcvis := packet.seq }
  if acceptable then tcpQueuecleanup { this with snduna := packet.ack } else this

/-- `SYN` and `ACK` for a socket that is connecting. -/
def onSynack (env : Env) (c : Ctx) (packet : Packet) (acceptable : Bool) : Ctx :=
  let this := receiveSyn c.this packet acceptable
  if this.sndis < this.snduna then
    let this := tcpSetstate (tcpParseoptions this packet env.opts) .established
    let this := { this with state := .connected, status := { this.status with pollin := true } }
    let c := sendAck { c with this } env.now
    { c with this := { c.this with
      sndwnd := bswap32 (packet.header.winsize.setWidth 32)
      sndwl1 := packet.seq
      sndwl2 := packet.ack } }
  else
    tcpSend { c with this := tcpSetstate this .synrecv } env.now { syn := true, ack := true } []

/-- A segment for a socket that is connecting. -/
def onSynsent (env : Env) (c : Ctx) (packet : Packet) : Ctx :=
  let flags := packet.header.flags
  let ack := packet.ack
  let this := c.this
  if flags.ack ∧ (ack ≤ this.sndis ∨ this.sndnxt < ack) then sendReset c ack
  else
    let acceptable := flags.ack ∧ this.snduna ≤ ack ∧ ack ≤ this.sndnxt
    if flags.rst then
      if acceptable then
        -- `TCP_STATECLOSED` is written to `eventstate`, where it stands for data
        let this := { tcpSetstate this .closed with
          eventstate := .data
          status := { this.status with pollhup := true } }
        (tcpClose { c with this } env.now).2
      else c
    else if flags.syn ∧ flags.ack then onSynack env c packet acceptable
    else if flags.ack then sendReset c ack
    else c

/-- States in which the window and flags of a segment are checked. -/
def synchronized : TcpState → Bool
  | .closed | .listen | .synsent => false
  | _ => true

/-- The test of the sequence number. `seglen` has 64 bits, the end of the window has 32. -/
def acceptable (this : Socket) (packet : Packet) : Bool :=
  let seq := packet.seq
  let inWindow := this.rcvnxt ≤ seq ∧ seq < this.rcvnxt + this.rcvwnd
  if packet.seglen = 0 then
    if this.rcvwnd = 0 then seq = this.rcvnxt else inWindow
  else if this.rcvwnd = 0 then false
  else
    let last := seq.toNat + packet.seglen - 1
    inWindow ∨ (this.rcvnxt.toNat ≤ last ∧ last < (this.rcvnxt + this.rcvwnd).toNat)

def checkWindow (env : Env) (c : Ctx) (packet : Packet) : Except Ctx Ctx :=
  if synchronized c.this.tcpstate ∧ acceptable c.this packet = false then
    .error (if packet.header.flags.rst then c else sendAck c env.now)
  else .ok c

/-- A socket is closed because of a segment. -/
def abort (env : Env) (c : Ctx) (eventstate : EventState) : Ctx :=
  let this := { tcpSetstate c.this .closed with
    eventstate
    status := { c.this.status with pollhup := true } }
  (tcpClose { c with this } env.now).2

def checkRst (env : Env) (c : Ctx) (packet : Packet) : Except Ctx Ctx :=
  if synchronized c.this.tcpstate ∧ packet.header.flags.rst then
    .error (abort env c (if c.this.tcpstate = .synrecv then c.this.eventstate else .reset))
  else .ok c

def checkSyn (env : Env) (c : Ctx) (packet : Packet) : Except Ctx Ctx :=
  if synchronized c.this.tcpstate ∧ packet.header.flags.syn then
    .error (abort env (tcpSend c env.now { rst := true } []) .reset)
  else .ok c

/-- The acknowledgement of a segment moves `snduna` and the window for sending. -/
def updateSend (this : Socket) (packet : Packet) : Socket :=
  let this := tcpQueuecleanup { this with snduna := packet.ack }
  if this.sndwl1 < packet.seq ∨ (this.sndwl1 = packet.seq ∧ this.sndwl2 ≤ packet.ack) then
    { this with
      sndwnd := bswap32 (packet.header.winsize.setWidth 32)
      sndwl1 := packet.seq
      sndwl2 := packet.ack }
  else this

/-- The acknowledgement of our `FIN`. -/
def ackFin (env : Env) (this : Socket) (packet : Packet) : Socket :=
  match this.tcpstate with
  | .finwait1 => if packet.ack = this.sndnxt then tcpSetstate this .finwait2 else this
  | .closing =>
    if packet.ack = this.sndnxt then tcpSettimewait (tcpSetstate this .timewait) env.now else this
  | _ => this

/-- The case from `ESTABLISHED` on, which `SYNRECV` falls through to. -/
def ackEstablished (env : Env) (c : Ctx) (packet : Packet) : Except Ctx Ctx :=
  if c.this.snduna < packet.ack ∧ packet.ack ≤ c.this.sndnxt then
    .ok { c with this := ackFin env (updateSend c.this packet) packet }
  else if c.this.sndnxt < packet.ack then .error (sendAck c env.now)
  else .ok { c with this := ackFin env c.this packet }

def checkAck (env : Env) (c : Ctx) (packet : Packet) : Except Ctx Ctx :=
  if ¬ packet.header.flags.ack then .error c
  else
    match c.this.tcpstate with
    | .synrecv =>
      if c.this.snduna ≤ packet.ack ∧ packet.ack ≤ c.this.sndnxt then
        let this := { tcpSetstate c.this .established with
          state := .connected
          status := { c.this.status with pollin := true } }
        ackEstablished env { c with this, backlogged := true } packet
      else
        -- the flag, not the acknowledgement number
        .error (sendReset c (bswap32 (BitVec.ofBool packet.header.flags.ack |>.setWidth 32)))
    | .established | .finwait1 | .finwait2 | .closewait | .closing => ackEstablished env c packet
    | .lastack =>
      if packet.ack = c.this.sndnxt then
        .error (tcpClose { c with this := tcpSetstate c.this .closed } env.now).2
      else .error c
    | .timewait =>
      if packet.header.flags.fin then .ok { c with this := tcpSettimewait c.this env.now }
      else .ok c
    | .closed | .listen | .synsent => .ok c

/-- States in which data is received. -/
def receiving : TcpState → Bool
  | .established | .finwait1 | .finwait2 => true
  | _ => false

def receiveData (env : Env) (c : Ctx) (packet : Packet) : Except Ctx Ctx :=
  if receiving c.this.tcpstate ∧ packet.len ≠ 0 then
    match tcpStreamwrite c.this.rcvbuf packet.data with
    | none => .error c
    | some rcvbuf =>
      let this := { c.this with
        rcvbuf
        rcvnxt := packet.seq + BitVec.ofNat 32 packet.seglen
        rcvwnd := c.this.rcvwnd - BitVec.ofNat 32 packet.len }
      let c := sendAck { c with this } env.now
      .ok { c with this := { c.this with
        eventstate := .data
        status := { c.this.status with pollin := true } } }
  else .ok c

/-- The state after a `FIN`. -/
def finState (env : Env) (this : Socket) (packet : Packet) : Socket :=
  match this.tcpstate with
  | .synrecv | .established =>
    let this := tcpSetstate this .closewait
    if this.rcvbuf.pos = 0 then
      { this with status := { this.status with pollin := false, pollout := false } }
    else { this with status := { this.status with pollin := true } }
  | .finwait1 =>
    if packet.ack = this.sndnxt then tcpSettimewait (tcpSetstate this .timewait) env.now
    else tcpSetstate this .closing
  | .finwait2 => tcpSettimewait (tcpSetstate this .timewait) env.now
  | .timewait => tcpSettimewait this env.now
  | _ => this

def receiveFin (env : Env) (c : Ctx) (packet : Packet) : Except Ctx Ctx :=
  if packet.header.flags.fin then
    if synchronized c.this.tcpstate then
      let this := { finState env c.this packet with rcvnxt := packet.seq + 1 }
      .ok (sendAck { c with this } env.now)
    else .error c
  else .ok c

/-- A segment for a socket that neither listens nor connects. -/
def onSegment (env : Env) (c : Ctx) (packet : Packet) : Except Ctx Ctx := do
  let c ← checkWindow env c packet
  let c ← checkRst env c packet
  let c ← checkSyn env c packet
  let c ← checkAck env c packet
  let c ← receiveData env c packet
  receiveFin env c packet

/-- `conn` and `adapter` are for a new connection. -/
def onPacket (env : Env) (c : Ctx) (conn : Connection) (adapter : Nat) (packet : Packet) : Ctx :=
  match c.this.tcpstate with
  | .listen => onListen env c conn adapter packet
  | .synsent => onSynsent env c packet
  | _ =>
    match onSegment env c packet with
    | .ok c => c
    | .error c => c

def tcpNetpacket (env : Env) (this : Socket) (src dest : BitVec 32) (buf : Nat → Byte)
    (length : Nat) : Ctx :=
  let packet := loadPacket buf length
  let conn := ⟨dest, src, packet.header.destport, packet.header.srcport⟩
  match this.adapter.or env.route with
  | none => { this }
  | some adapter =>
    onPacket env { this := tcpParseoptions this packet env.opts } conn adapter packet

/-! ## Reading -/

inductive Result where
  | bytes (data : List Byte)
  | error (errno : Errno)
  /-- The thread waits for an event, and tries again. -/
  | wait
  deriving DecidableEq, Repr

/-- The checks that `tcp_read` and `tcp_recvmsg` begin with; `empty` says what they do if there is
no data yet. -/
def checkRead (this : Socket) (empty : Result) : Option Result :=
  let event :=
    match this.eventstate with
    | .data => none
    | .reset | .closed => some (.error .econnreset)
  match this.tcpstate with
  | .closed => some (.error .enotconn)
  | .listen | .synsent | .synrecv => some (.error .enobufs)
  | .established | .finwait1 | .finwait2 => if this.rcvbuf.pos = 0 then some empty else event
  | .closewait => if this.rcvbuf.pos = 0 then some (.bytes []) else event
  | .closing | .lastack | .timewait => some (.bytes [])

/-- Bytes are taken out of the buffer, and the window grows. -/
def takeBytes (this : Socket) (count : Nat) : List Byte × Socket :=
  let count := if this.rcvbuf.pos < count then this.rcvbuf.pos else count
  let r := tcpStreamread this.rcvbuf count
  let this := { this with rcvwnd := this.rcvwnd + BitVec.ofNat 32 count, rcvbuf := r.2 }
  (r.1, if this.rcvbuf.pos = 0 then { this with status := { this.status with pollin := false } }
    else this)

def tcpRead (this : Socket) (nonblock : Bool) (count : Nat) : Result × Socket :=
  if this.state ≠ .connected then (.error .enotconn, this)
  else
    match checkRead this (if nonblock then .error .ewouldblock else .wait) with
    | some r => (r, this)
    | none =>
      let r := takeBytes this count
      (.bytes r.1, r.2)

/-- The loop that fills the buffers of a message, one after the other. -/
def scatter : List Nat → List Byte → List (List Byte)
  | [], _ => []
  | len :: lens, buf => buf.take len :: scatter lens (buf.drop len)

theorem scatter_flatten : ∀ {lens : List Nat} {buf : List Byte}, buf.length ≤ lens.sum →
    (scatter lens buf).flatten = buf
  | [], buf, h => by
    rw [List.sum_nil, Nat.le_zero] at h
    rw [List.eq_nil_of_length_eq_zero h]
    rfl
  | len :: lens, buf, h => by
    rw [List.sum_cons] at h
    have hrest : (buf.drop len).length ≤ lens.sum := by
      rw [List.length_drop]
      omega
    rw [scatter, List.flatten_cons, scatter_flatten hrest, List.take_append_drop]

/-- `lens` are the lengths of the buffers; `named` says that the message has an address. -/
def tcpRecvmsg (this : Socket) (nonblock dontwait named : Bool) (lens : List Nat) :
    Result × Socket :=
  if this.state ≠ .connected ∨ named then (.error .enotconn, this)
  else
    let empty :=
      if dontwait then .error .eagain else if nonblock then .error .ewouldblock else .wait
    match checkRead this empty with
    | some r => (r, this)
    | none =>
      let r := takeBytes this (lens.sum % 2 ^ 64)
      (.bytes (scatter lens r.1).flatten, r.2)

end Lyre.Tcp

/-!
## `ipc/socket/tcp.c`: writing

`tcp_write` and `tcp_sendmsg` differ in where their bytes come from. If the window is full, the
thread waits for an event and starts over at `retry`, with `progress` at zero again.

The lock of the socket is only free while the thread waits. What arrives meanwhile is given with
the call, one list for each time that it waits.
-/

namespace Lyre.Tcp

/-- What the functions get from elsewhere. The segments of a call are counted from zero. -/
structure WriteEnv where
  /-- The time when a segment is sent. -/
  now : Nat → Nat
  /-- The largest segment that the adapter allows. -/
  mtuSeg : Nat
  /-- `net_sendinet` returns no error. -/
  sends : Nat → Bool
  /-- After an error `tcp_close` is called; for `tcp_sendmsg` it is the last reference that goes. -/
  closes : Bool

/-- The largest segment that may be sent. -/
def Socket.mss (this : Socket) (mtuSeg : Nat) : Nat :=
  if this.maxseg = 0 then mtuSeg else this.maxseg.toNat

/-- What has been sent and not been acknowledged. -/
def Socket.inflight (this : Socket) : Nat := (this.sndnxt - this.snduna).toNat

/-- The space in the window, in 32 bits. -/
def Socket.cap (this : Socket) : Nat := (this.sndwnd - (this.sndnxt - this.snduna)).toNat

/-- The length of the next segment, with `count` bytes left. -/
def Socket.seglen (this : Socket) (mtuSeg count : Nat) : Nat :=
  min (min (this.mss mtuSeg) count) this.cap

inductive Sending where
  | done
  | blocked
  | failed
  deriving DecidableEq, Repr

/-- A segment cannot be sent. -/
def sendFailed (env : WriteEnv) (c : Ctx) (data : List Byte) : Ctx :=
  let now := env.now c.sent.length
  let c := tcpSend c now { psh := true, ack := true } data
  let c := { c with this := tcpSetstate c.this .closed }
  if env.closes then (tcpClose c now).2 else c

/-- The loop, with `rest` still to be sent. -/
def sendLoop (env : WriteEnv) : Nat → Ctx → List Byte → Option (Sending × Ctx)
  | 0, c, rest => if rest.length = 0 then some (.done, c) else none
  | fuel + 1, c, rest =>
    if rest.length = 0 then some (.done, c)
    else
      match sendRound c (env.now c.sent.length) env.mtuSeg rest with
      | none => some (.blocked, c)
      | some c' =>
        let seglen := c.this.seglen env.mtuSeg rest.length
        if env.sends c.sent.length then sendLoop env fuel c' (rest.drop seglen)
        else some (.failed, sendFailed env c (rest.take seglen))

/-- From `retry` on: what is returned, or that the thread waits (`none`). -/
def writeEntry (env : WriteEnv) (fuel : Nat) (c : Ctx) (buf : List Byte) :
    Option (Option (Except Errno Nat) × Ctx) :=
  match c.this.tcpstate with
  | .closed => some (some (.error .enotconn), c)
  | .listen | .synsent | .synrecv => some (some (.error .enobufs), c)
  | .established | .closewait =>
    match sendLoop env fuel c buf with
    | none => none
    | some (.done, c) => some (some (.ok buf.length), c)
    | some (.failed, c) => some (some (.error .econnreset), c)
    | some (.blocked, c) => some (none, c)
  | .closing | .lastack | .timewait => some (some (.ok 0), c)
  | .finwait1 | .finwait2 => some (some (.error .einval), c)

/-- A segment that arrives. -/
structure Arrival where
  env : Env
  src : BitVec 32
  dest : BitVec 32
  buf : Nat → Byte
  length : Nat

def arrive (this : Socket) (arrival : Arrival) : Socket :=
  (tcpNetpacket arrival.env this arrival.src arrival.dest arrival.buf arrival.length).this

/-- A call with what arrives while it waits; `none` if it does not return. -/
def writeRetry (env : WriteEnv) (fuel : Nat) (buf : List Byte) :
    List (List Arrival) → Ctx → Option (Except Errno Nat × Ctx)
  | [], c =>
    match writeEntry env fuel c buf with
    | some (some r, c) => some (r, c)
    | _ => none
  | wait :: waits, c =>
    match writeEntry env fuel c buf with
    | some (some r, c) => some (r, c)
    | some (none, c) => writeRetry env fuel buf waits { c with this := wait.foldl arrive c.this }
    | none => none

def tcpWrite (env : WriteEnv) (fuel : Nat) (this : Socket) (buf : List Byte)
    (waits : List (List Arrival)) : Option (Except Errno Nat × Ctx) :=
  if this.state ≠ .connected then some (.error .enotconn, { this })
  else writeRetry env fuel buf waits { this }

/-- The loop that collects the buffers of a message. -/
def gather : List (List Byte) → Nat → List Byte
  | [], _ => []
  | iov :: iovs, remaining =>
    iov.take (min iov.length remaining) ++ gather iovs (remaining - min iov.length remaining)

/-- `named` says that the message has an address. -/
def tcpSendmsg (env : WriteEnv) (fuel : Nat) (this : Socket) (named : Bool)
    (iovs : List (List Byte)) (waits : List (List Arrival)) : Option (Except Errno Nat × Ctx) :=
  let count := (iovs.map List.length).sum % 2 ^ 64
  if this.state ≠ .connected ∨ named then some (.error .enotconn, { this })
  else writeRetry env fuel (gather iovs count) waits { this }

end Lyre.Tcp
