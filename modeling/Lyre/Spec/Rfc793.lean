import Lyre.Infra.SequenceNumbers
import Lyre.Ipc.TcpReceive

/-!
# Sequence numbers in RFC 793

`tcp_netpacket` compares sequence numbers in eight places, which `Test` gives names to. The tests of
RFC 793 are made with arithmetic modulo `2 ^ 32`: a number is in a window if it is passed on the way
from the begin of the window to its end, and it is before another one if it is less than `2 ^ 31`
behind it. The tests of the code compare the numbers as they are.

`netpacketBy` is `tcp_netpacket` with the decisions left open.
-/

namespace Lyre.Tcp

open Infra.SequenceNumbers

/-- A comparison of sequence numbers in `tcp_netpacket`. -/
inductive Test where
  /-- The segment is in the window for receiving. -/
  | window
  /-- In `SYNSENT`, the acknowledgement is for something that was not sent. -/
  | unasked
  /-- In `SYNSENT`, the acknowledgement is acceptable. -/
  | acceptable
  /-- In `SYNSENT`, our `SYN` has been acknowledged. -/
  | acked
  /-- In `SYNRECV`, the acknowledgement opens the connection. -/
  | handshake
  /-- The acknowledgement is for something that had not been acknowledged. -/
  | fresh
  /-- The acknowledgement is for something that has not been sent. -/
  | unsent
  /-- The window for sending comes from a newer segment. -/
  | newer
  deriving DecidableEq, Repr

/-- The decisions of the code. -/
def plainTest (this : Socket) (packet : Packet) : Test → Bool
  | .window => acceptable this packet
  | .unasked => packet.ack ≤ this.sndis ∨ this.sndnxt < packet.ack
  | .acceptable | .handshake => this.snduna ≤ packet.ack ∧ packet.ack ≤ this.sndnxt
  | .acked => this.sndis < this.snduna
  | .fresh => this.snduna < packet.ack ∧ packet.ack ≤ this.sndnxt
  | .unsent => this.sndnxt < packet.ack
  | .newer =>
    this.sndwl1 < packet.seq ∨ (this.sndwl1 = packet.seq ∧ this.sndwl2 ≤ packet.ack)

/-- The four cases of the acceptability test. -/
def rfcWindow (this : Socket) (packet : Packet) : Prop :=
  if packet.seglen = 0 then
    if this.rcvwnd = 0 then packet.seq = this.rcvnxt
    else InSpan this.rcvnxt this.rcvwnd packet.seq
  else
    this.rcvwnd ≠ 0 ∧ (InSpan this.rcvnxt this.rcvwnd packet.seq ∨
      InSpan this.rcvnxt this.rcvwnd (packet.seq + BitVec.ofNat 32 (packet.seglen - 1)))

instance (this : Socket) (packet : Packet) : Decidable (rfcWindow this packet) := by
  unfold rfcWindow
  infer_instance

/-- The decisions of RFC 793. -/
def rfcTest (this : Socket) (packet : Packet) : Test → Bool
  | .window => rfcWindow this packet
  | .unasked => ¬ Passed this.sndis packet.ack this.sndnxt
  | .acceptable | .handshake => Between this.snduna packet.ack this.sndnxt
  | .acked => Precedes this.sndis this.snduna
  | .fresh => Passed this.snduna packet.ack this.sndnxt
  | .unsent => Precedes this.sndnxt packet.ack
  | .newer =>
    Precedes this.sndwl1 packet.seq ∨
      (this.sndwl1 = packet.seq ∧ (this.sndwl2 = packet.ack ∨ Precedes this.sndwl2 packet.ack))

/-! ## `tcp_netpacket` with other decisions -/

/-- What is decided for a socket and a packet. -/
abbrev Tests := Socket → Packet → Test → Bool

section

variable (tests : Tests) (env : Env)

def onSynackBy (c : Ctx) (packet : Packet) (acceptable : Bool) : Ctx :=
  let this := receiveSyn c.this packet acceptable
  if tests this packet .acked then
    let this := tcpSetstate (tcpParseoptions this packet env.opts) .established
    let this := { this with state := .connected, status := { this.status with pollin := true } }
    let c := sendAck { c with this } env.now
    { c with this := { c.this with
      sndwnd := bswap32 (packet.header.winsize.setWidth 32)
      sndwl1 := packet.seq
      sndwl2 := packet.ack } }
  else
    tcpSend { c with this := tcpSetstate this .synrecv } env.now { syn := true, ack := true } []

def onSynsentBy (c : Ctx) (packet : Packet) : Ctx :=
  let flags := packet.header.flags
  let this := c.this
  if flags.ack ∧ tests this packet .unasked then sendReset c packet.ack
  else
    let acceptable := flags.ack ∧ tests this packet .acceptable
    if flags.rst then
      if acceptable then
        let this := { tcpSetstate this .closed with
          eventstate := .data
          status := { this.status with pollhup := true } }
        (tcpClose { c with this } env.now).2
      else c
    else if flags.syn ∧ flags.ack then onSynackBy tests env c packet acceptable
    else if flags.ack then sendReset c packet.ack
    else c

def checkWindowBy (c : Ctx) (packet : Packet) : Except Ctx Ctx :=
  if synchronized c.this.tcpstate ∧ tests c.this packet .window = false then
    .error (if packet.header.flags.rst then c else sendAck c env.now)
  else .ok c

def updateSendBy (this : Socket) (packet : Packet) : Socket :=
  let this := tcpQueuecleanup { this with snduna := packet.ack }
  if tests this packet .newer then
    { this with
      sndwnd := bswap32 (packet.header.winsize.setWidth 32)
      sndwl1 := packet.seq
      sndwl2 := packet.ack }
  else this

def ackEstablishedBy (c : Ctx) (packet : Packet) : Except Ctx Ctx :=
  if tests c.this packet .fresh then
    .ok { c with this := ackFin env (updateSendBy tests c.this packet) packet }
  else if tests c.this packet .unsent then .error (sendAck c env.now)
  else .ok { c with this := ackFin env c.this packet }

def checkAckBy (c : Ctx) (packet : Packet) : Except Ctx Ctx :=
  if ¬ packet.header.flags.ack then .error c
  else
    match c.this.tcpstate with
    | .synrecv =>
      if tests c.this packet .handshake then
        let this := { tcpSetstate c.this .established with
          state := .connected
          status := { c.this.status with pollin := true } }
        ackEstablishedBy tests env { c with this, backlogged := true } packet
      else .error (sendReset c (bswap32 (BitVec.ofBool packet.header.flags.ack |>.setWidth 32)))
    | .established | .finwait1 | .finwait2 | .closewait | .closing =>
      ackEstablishedBy tests env c packet
    | .lastack =>
      if packet.ack = c.this.sndnxt then
        .error (tcpClose { c with this := tcpSetstate c.this .closed } env.now).2
      else .error c
    | .timewait =>
      if packet.header.flags.fin then .ok { c with this := tcpSettimewait c.this env.now }
      else .ok c
    | .closed | .listen | .synsent => .ok c

def onSegmentBy (c : Ctx) (packet : Packet) : Except Ctx Ctx := do
  let c ← checkWindowBy tests env c packet
  let c ← checkRst env c packet
  let c ← checkSyn env c packet
  let c ← checkAckBy tests env c packet
  let c ← receiveData env c packet
  receiveFin env c packet

def onPacketBy (c : Ctx) (conn : Connection) (adapter : Nat) (packet : Packet) : Ctx :=
  match c.this.tcpstate with
  | .listen => onListen env c conn adapter packet
  | .synsent => onSynsentBy tests env c packet
  | _ =>
    match onSegmentBy tests env c packet with
    | .ok c => c
    | .error c => c

def netpacketBy (this : Socket) (src dest : BitVec 32) (buf : Nat → Byte) (length : Nat) : Ctx :=
  let packet := loadPacket buf length
  let conn := ⟨dest, src, packet.header.destport, packet.header.srcport⟩
  match this.adapter.or env.route with
  | none => { this }
  | some adapter =>
    onPacketBy tests env { this := tcpParseoptions this packet env.opts } conn adapter packet

end

end Lyre.Tcp
