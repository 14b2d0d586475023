import Lyre.Infra.LockFlow
import Lyre.Ipc.Tcp

/-!
# `ipc/pipe.c`, `ipc/socket/*.c`: the spinlocks of reading and writing

Of each function only its points are kept: where a lock is taken or given back, the branches between
them, and the labels. A pipe or a socket is shared, so that what a branch looks at may be anything.

`tcp_getstate`, `tcp_setstate`, `net_allocport` and `udp_acquireport` are written out where they are
called. `alloc`, `free`, `event_await`, `event_trigger`, `net_route` and `net_sendinet` have locks of
their own, which they do not leave taken. These are left out.
-/

namespace Lyre.Locks

open Infra.LockFlow Tcp

inductive Lock where
  | lock
  /-- `peer->lock`. -/
  | peerLock
  | busyon
  | statelock
  /-- `rcvbuf.lock`. -/
  | rcvbufLock
  | udpSocketslock
  | netPortbitmaplock
  deriving DecidableEq, Repr

/-- The arguments, the fields of the pipe or of the socket, and what a call has returned. -/
structure View where
  /-- `O_NONBLOCK` in the flags of the description. -/
  nonblock : Bool := false
  /-- `MSG_DONTWAIT` in `flags`. -/
  dontwait : Bool := false
  /-- `msg_name` is not null. -/
  named : Bool := false
  /-- `event_await` returns a negative number. -/
  interrupted : Bool := false
  used : Nat := 0
  capacity : Nat := 0
  writerCount : Nat := 0
  readerCount : Nat := 0
  /-- `packets.length`. -/
  packets : Nat := 0
  state : SocketState := .created
  /-- The address is of family `AF_INET`. -/
  inet : Bool := false
  /-- The address is `INADDR_BROADCAST`. -/
  broadcast : Bool := false
  canbroadcast : Bool := false
  port : Nat := 0
  /-- `adapter` is not null. -/
  adapter : Bool := false
  /-- What `net_route` or `udp_sendpacket` returns. -/
  status : Int := 0
  tcpstate : TcpState := .closed
  eventstate : EventState := .data
  /-- `rcvbuf.pos`. -/
  pos : Nat := 0
  progress : Nat := 0
  count : Nat := 0
  cap : Nat := 0
  /-- What `tcp_send` returns. -/
  sent : Int := 0
  refcount : Int := 0

/-- A function, and where it starts. -/
structure Program where
  Point : Type
  code : Point → Instr Lock View Point
  start : Point

/-! ## Pipes and unix sockets -/

inductive RingPoint where
  | entry
  | check
  | loop
  | unlock
  | await
  | relock
  | cleanup
  | out
  deriving DecidableEq, Repr

/-- The four functions on rings. `refuses` is checked before the loop, which goes on while `waits`,
unless it `leaves`. -/
def ringCode (l : Lock) (refuses waits leaves : View → Bool) :
    RingPoint → Instr Lock View RingPoint
  | .entry => .acquire l .check
  | .check => .look fun v => if refuses v then .cleanup else .loop
  | .loop => .look fun v => if !waits v then .cleanup else if leaves v then .cleanup else .unlock
  | .unlock => .release l .await
  | .await => .look fun v => if v.interrupted then .cleanup else .relock
  | .relock => .acquire l .loop
  | .cleanup => .release l .out
  | .out => .ret

def pipeRead : RingPoint → Instr Lock View RingPoint :=
  ringCode .lock (fun _ => false) (fun v => v.used = 0) fun v => v.writerCount = 0 || v.nonblock

def pipeWrite : RingPoint → Instr Lock View RingPoint :=
  ringCode .lock (fun v => v.readerCount = 0) (fun v => v.used = v.capacity) fun _ => false

def unixRead : RingPoint → Instr Lock View RingPoint :=
  ringCode .lock (fun _ => false) (fun v => v.used = 0) fun v => v.nonblock

/-- The ring is the one of the peer. -/
def unixWrite : RingPoint → Instr Lock View RingPoint :=
  ringCode .peerLock (fun _ => false) (fun v => v.used = v.capacity) fun v => v.nonblock

/-! ## Datagrams -/

inductive UdpReadPoint where
  | entry
  | packets
  | unlock
  | empty
  | reawait
  | relock
  | cleanup
  | out
  deriving DecidableEq, Repr

def udpRead : UdpReadPoint → Instr Lock View UdpReadPoint
  | .entry => .acquire .lock .packets
  -- behind the `if`, the lock is taken in any case
  | .packets => .look fun v => if v.packets = 0 then .unlock else .relock
  | .unlock => .release .lock .empty
  | .empty => .look fun v => if v.nonblock then .cleanup else .reawait
  | .reawait => .look fun v => if v.packets = 0 then .reawait else .relock
  | .relock => .acquire .lock .cleanup
  | .cleanup => .release .lock .out
  | .out => .ret

def udpRecvmsg : UdpReadPoint → Instr Lock View UdpReadPoint
  | .entry => .acquire .lock .packets
  | .packets => .look fun v => if v.packets = 0 then .unlock else .cleanup
  | .unlock => .release .lock .empty
  | .empty => .look fun v =>
      if v.dontwait then .out else if v.nonblock then .cleanup else .reawait
  | .reawait => .look fun v => if v.packets = 0 then .reawait else .relock
  | .relock => .acquire .lock .cleanup
  | .cleanup => .release .lock .out
  | .out => .ret

inductive UdpSendPoint where
  | entry
  | check
  | port
  | allocport
  | allocated
  | acquireport
  | register
  | registered
  | route
  | send
  | cleanup
  | out
  deriving DecidableEq, Repr

/-- What `udp_write` and `udp_sendmsg` share. -/
def udpSendCode (refuses : View → Bool) (entry cleanup : Instr Lock View UdpSendPoint) :
    UdpSendPoint → Instr Lock View UdpSendPoint
  | .entry => entry
  | .check => .look fun v =>
      if refuses v then .cleanup
      else if !v.inet then .cleanup
      else if v.broadcast && !v.canbroadcast then .cleanup
      else .port
  | .port => .look fun v => if v.port = 0 then .allocport else .route
  | .allocport => .acquire .netPortbitmaplock .allocated
  | .allocated => .release .netPortbitmaplock .acquireport
  | .acquireport => .look fun v => if v.port = 0 then .cleanup else .register
  | .register => .acquire .udpSocketslock .registered
  | .registered => .release .udpSocketslock .route
  | .route => .look fun v => if v.adapter then .send else if v.status ≠ 0 then .out else .send
  | .send => .look fun v => if v.status ≠ 0 then .out else .cleanup
  | .cleanup => cleanup
  | .out => .ret

/-- The lock of the socket is not taken. -/
def udpWrite : UdpSendPoint → Instr Lock View UdpSendPoint :=
  udpSendCode (fun v => v.state ≠ .connected) (.look fun _ => .check) (.look fun _ => .out)

def udpSendmsg : UdpSendPoint → Instr Lock View UdpSendPoint :=
  udpSendCode (fun v => v.state ≠ .connected && !v.named) (.acquire .lock .check)
    (.release .lock .out)

/-! ## Streams -/

inductive TcpReadPoint where
  | entry
  | retry
  | getstate
  | gotstate
  | state
  | unlock
  | await
  | eventstate
  | take
  | streamread
  | streamed
  | cleanup
  | cleanupBusyon
  | out
  deriving DecidableEq, Repr

/-- What the two readers share. An empty buffer is waited for, unless the call `leaves`. -/
def tcpReadCode (refuses leaves : View → Bool) : TcpReadPoint → Instr Lock View TcpReadPoint
  | .entry => .look fun v => if refuses v then .cleanup else .retry
  | .retry => .acquire .busyon .getstate
  | .getstate => .acquire .statelock .gotstate
  | .gotstate => .release .statelock .state
  | .state => .look fun v =>
      if v.tcpstate = .established ∨ v.tcpstate = .finwait1 ∨ v.tcpstate = .finwait2 then
        if v.pos ≠ 0 then .eventstate else if leaves v then .cleanup else .unlock
      else if v.tcpstate = .closewait then if v.pos ≠ 0 then .eventstate else .cleanup
      else .cleanup
  | .unlock => .release .busyon .await
  | .await => .look fun _ => .retry
  | .eventstate => .look fun v => if v.eventstate = .data then .take else .cleanup
  | .take => .acquire .lock .streamread
  | .streamread => .acquire .rcvbufLock .streamed
  | .streamed => .release .rcvbufLock .cleanup
  -- both locks are given back on every way here
  | .cleanup => .release .lock .cleanupBusyon
  | .cleanupBusyon => .release .busyon .out
  | .out => .ret

def tcpRead : TcpReadPoint → Instr Lock View TcpReadPoint :=
  tcpReadCode (fun v => v.state ≠ .connected) fun v => v.nonblock

def tcpRecvmsg : TcpReadPoint → Instr Lock View TcpReadPoint :=
  tcpReadCode (fun v => v.state ≠ .connected || v.named) fun v => v.dontwait || v.nonblock

inductive TcpWritePoint where
  | entry
  | retry
  | getstate
  | gotstate
  | state
  | loop
  | unlock
  | await
  | send
  | setstate
  | stateset
  | failed
  | close
  | closing
  | cleanup
  | out
  deriving DecidableEq, Repr

/-- What the two writers share. When a segment is not sent the call `fails`, and `tcp_close` is
called if it `closes`. -/
def tcpWriteCode (refuses fails closes : View → Bool) :
    TcpWritePoint → Instr Lock View TcpWritePoint
  | .entry => .look fun v => if refuses v then .cleanup else .retry
  | .retry => .acquire .busyon .getstate
  | .getstate => .acquire .statelock .gotstate
  | .gotstate => .release .statelock .state
  | .state => .look fun v =>
      if v.tcpstate = .established ∨ v.tcpstate = .closewait then .loop else .cleanup
  | .loop => .look fun v =>
      if v.count ≤ v.progress then .cleanup else if v.cap = 0 then .unlock else .send
  | .unlock => .release .busyon .await
  | .await => .look fun _ => .retry
  | .send => .look fun v => if fails v then .setstate else .loop
  | .setstate => .acquire .statelock .stateset
  | .stateset => .release .statelock .failed
  | .failed => .look fun v => if closes v then .close else .cleanup
  -- `tcp_close` up to its first lock: nobody gets past it with `busyon` in his hands
  | .close => .acquire .busyon .closing
  | .closing => .release .busyon .cleanup
  | .cleanup => .release .busyon .out
  | .out => .ret

def tcpWrite : TcpWritePoint → Instr Lock View TcpWritePoint :=
  tcpWriteCode (fun v => v.state ≠ .connected) (fun v => v.sent = -1) fun _ => true

/-- The socket is closed through `unref`. -/
def tcpSendmsg : TcpWritePoint → Instr Lock View TcpWritePoint :=
  tcpWriteCode (fun v => v.state ≠ .connected || v.named) (fun v => v.sent < 0)
    fun v => v.refcount - 1 = 0

/-! ## All of them -/

inductive Routine where
  | udpRead
  | udpRecvmsg
  | udpSendmsg
  | udpWrite
  | pipeRead
  | pipeWrite
  | unixRead
  | unixWrite
  | tcpRead
  | tcpRecvmsg
  | tcpWrite
  | tcpSendmsg
  deriving DecidableEq, Repr

def Routine.program : Routine → Program
  | .udpRead => ⟨UdpReadPoint, Locks.udpRead, .entry⟩
  | .udpRecvmsg => ⟨UdpReadPoint, Locks.udpRecvmsg, .entry⟩
  | .udpSendmsg => ⟨UdpSendPoint, Locks.udpSendmsg, .entry⟩
  | .udpWrite => ⟨UdpSendPoint, Locks.udpWrite, .entry⟩
  | .pipeRead => ⟨RingPoint, Locks.pipeRead, .entry⟩
  | .pipeWrite => ⟨RingPoint, Locks.pipeWrite, .entry⟩
  | .unixRead => ⟨RingPoint, Locks.unixRead, .entry⟩
  | .unixWrite => ⟨RingPoint, Locks.unixWrite, .entry⟩
  | .tcpRead => ⟨TcpReadPoint, Locks.tcpRead, .entry⟩
  | .tcpRecvmsg => ⟨TcpReadPoint, Locks.tcpRecvmsg, .entry⟩
  | .tcpWrite => ⟨TcpWritePoint, Locks.tcpWrite, .entry⟩
  | .tcpSendmsg => ⟨TcpWritePoint, Locks.tcpSendmsg, .entry⟩

end Lyre.Locks
