import Lyre.Ipc.TcpCalls
import Lyre.Ipc.TcpInput
import Lyre.Lib.Bitmap
import Lyre.Mm.Slab

/-!
# The ports of `dev/net/net.c`

`net_portbitmap` has a bit for each port from `NET_PORTRANGESTART` on. It is an array of as many
bytes as there are ports, and `net_allocport` looks at all of its bits. `net_releaseport` takes the
number of the port for the number of the bit.
-/

namespace Lyre.Inet

def portRangeStart : Nat := 49152

/-- `UINT16_MAX`. -/
def portRangeEnd : Nat := 65535

/-- The loop over the bits of byte `i`, from `bit` on. -/
def allocBits (bitmap : Bitmap) (i : Nat) : Nat → Nat → Option Nat
  | 0, _ => none
  | n + 1, bit =>
    if bitmapTest bitmap (bit + i * 8) = false then some (bit + i * 8)
    else allocBits bitmap i n (bit + 1)

/-- The loop over the bytes, from `i` on. -/
def allocBytes (bitmap : Bitmap) : Nat → Nat → Option Nat
  | 0, _ => none
  | n + 1, i =>
    if bitmap i = 0xff then allocBytes bitmap n (i + 1)
    else
      match allocBits bitmap i 8 0 with
      | some k => some k
      | none => allocBytes bitmap n (i + 1)

/-- The bit that `net_allocport` sets. -/
def freeBit (bitmap : Bitmap) : Option Nat := allocBytes bitmap (portRangeEnd - portRangeStart) 0

/-- The port is a `uint16_t`, with 0 for none. -/
def netAllocport (bitmap : Bitmap) : BitVec 16 × Bitmap :=
  match freeBit bitmap with
  | some k => (BitVec.ofNat 16 (k + portRangeStart), bitmapSet bitmap k)
  | none => (0, bitmap)

def netReleaseport (bitmap : Bitmap) (port : BitVec 16) : Bitmap := bitmapReset bitmap port.toNat

end Lyre.Inet

/-!
## Ports, adapters and tables of the sockets in `udp.c` and `tcp.c`

A socket is in the vector of its protocol (`udp_sockets`, `tcp_sockets`), in the vector `boundsocks`
of an adapter, and it has a port. Here are the functions that change this: `bind`, `connect`, the
options of `net.c`, segments that arrive, timers, and closing. What TCP does with a single socket is
in `Lyre.Ipc.Tcp` and the modules behind it.

Sockets are numbered as they are created, and adapters by their place in `net_adapters`. A port is
stored as it is in a header. The functions are as the system calls find them; `syscall_bind` and
`syscall_connect` also look at the state of the socket before.
-/

namespace Lyre.Inet

open Net

/-- A socket of one of the protocols. -/
inductive SockId where
  | udp (n : Nat)
  | tcp (n : Nat)
  deriving DecidableEq, Repr

/-- `struct udp_socket` without its packets. -/
structure UdpSock where
  adapter : Option Nat
  port : BitVec 16
  localaddr : BitVec 32
  bound : Bool
  refcount : Nat
  /-- The port was asked for in `udp_bind`. This is not stored in the kernel. -/
  explicit : Bool

/-- `struct tcp_socket`. -/
structure TcpSock where
  this : Tcp.Socket
  port : BitVec 16
  localaddr : BitVec 32
  bound : Bool

structure State where
  udp : Nat → UdpSock
  tcp : Nat → TcpSock
  udpCount : Nat
  tcpCount : Nat
  udpSockets : List Nat
  tcpSockets : List Nat
  boundsocks : Nat → List SockId
  netPortbitmap : Bitmap

/-- `struct sockaddr_in`; `inet` says that the family is `AF_INET`. -/
structure SockaddrIn where
  inet : Bool
  port : BitVec 16
  addr : BitVec 32
  deriving DecidableEq, Repr

def State.setUdp (s : State) (n : Nat) (v : UdpSock) : State :=
  { s with udp := Function.update s.udp n v }

def State.setTcp (s : State) (n : Nat) (v : TcpSock) : State :=
  { s with tcp := Function.update s.tcp n v }

def State.setThis (s : State) (n : Nat) (this : Tcp.Socket) : State :=
  s.setTcp n { s.tcp n with this }

/-! ## Adapters -/

def State.adapter (s : State) : SockId → Option Nat
  | .udp n => (s.udp n).adapter
  | .tcp n => (s.tcp n).this.adapter

def State.setAdapter (s : State) (id : SockId) (adapter : Option Nat) : State :=
  match id with
  | .udp n => s.setUdp n { s.udp n with adapter }
  | .tcp n => s.setThis n { (s.tcp n).this with adapter }

def netBindsocket (s : State) (a : Nat) (id : SockId) : State :=
  let s := s.setAdapter id (some a)
  { s with boundsocks := Function.update s.boundsocks a (s.boundsocks a ++ [id]) }

def netUnbindsocket (s : State) (a : Nat) (id : SockId) : State :=
  { s with
    boundsocks := Function.update s.boundsocks a (vectorRemoveByValue (s.boundsocks a) id)
    : State }.setAdapter id none

/-- The last socket is taken out until none is left. -/
def netUnbindall (s : State) (a : Nat) : State :=
  let s := (s.boundsocks a).reverse.foldl (fun s id => s.setAdapter id none) s
  { s with boundsocks := Function.update s.boundsocks a [] }

/-- `if (this->adapter) net_unbindsocket(this->adapter, this)`. -/
def unbindAdapter (s : State) (id : SockId) : State :=
  match s.adapter id with
  | some a => netUnbindsocket s a id
  | none => s

/-- `SO_BINDTODEVICE` for a name that fits the adapter. -/
def setBindToDevice (s : State) (id : SockId) (a : Nat) : State := netBindsocket s a id

/-- The loop of `net_route` over the adapters, with their numbers. -/
def routeFrom (remote : BitVec 32) : Nat → List Adapter → Option Nat × Bool → Option Nat × Bool
  | _, [], r => r
  | i, it :: rest, (adapter, islocal) =>
    if it.reaches remote then routeFrom remote (i + 1) rest (some i, true)
    else if !islocal ∧ it.gateway ≠ 0 then routeFrom remote (i + 1) rest (some i, islocal)
    else routeFrom remote (i + 1) rest (adapter, islocal)

/-- What `net_route` leaves in `*adapter` if the local address is `INADDR_ANY`. -/
def routeAdapter (adapters : List Adapter) (adapter : Option Nat) (remote : BitVec 32) :
    Option Nat :=
  match adapter with
  | some a => some a
  | none => (routeFrom remote 0 adapters (none, false)).1

/-- What `udp_bind` and `tcp_bind` begin with; `none` if there is no such address. -/
def bindAdapter (adapters : List Adapter) (s : State) (id : SockId) (addr : BitVec 32) :
    Option State :=
  if addr = inaddrAny then some ((unbindAdapter s id).setAdapter id none)
  else
    match adapters.findIdx? fun adapter => adapter.ip = addr with
    | some a => some (netBindsocket s a id)
    | none => none

/-- `VECTOR_REMOVE_BY_VALUE` for a value that `VECTOR_FIND` finds. -/
def removeIfFound (vec : List Nat) (n : Nat) : List Nat :=
  if vectorFind vec n ≠ none then vectorRemoveByValue vec n else vec

/-! ## UDP -/

/-- The port that a socket without one gets, and the bitmap afterwards. -/
def takePort (port : BitVec 16) (bitmap : Bitmap) : BitVec 16 × Bitmap :=
  if port = 0 then
    let r := netAllocport bitmap
    (bswap16 r.1, r.2)
  else (port, bitmap)

def udpAcquireport (s : State) (n : Nat) (port : BitVec 16) : Bool × State :=
  if port = 0 then (false, s) else (true, { s with udpSockets := s.udpSockets ++ [n] })

/-- The address and the port are stored before the port is acquired. -/
def udpSetport (s : State) (n : Nat) (addr : SockaddrIn) : State :=
  let r := takePort addr.port s.netPortbitmap
  { s with netPortbitmap := r.2 : State }.setUdp n
    { s.udp n with localaddr := addr.addr, port := r.1, explicit := addr.port ≠ 0 }

def udpBind (adapters : List Adapter) (s : State) (n : Nat) (addr : SockaddrIn) : Bool × State :=
  if addr.inet = false then (false, s)
  else
    match bindAdapter adapters s (.udp n) addr.addr with
    | none => (false, s)
    | some s =>
      let s := udpSetport s n addr
      match udpAcquireport s n (bswap16 (s.udp n).port) with
      | (true, s) => (true, s.setUdp n { s.udp n with bound := true })
      | (false, s) => (false, unbindAdapter s (.udp n))

/-- `udp_write` and `udp_sendmsg` as far as they need a port. -/
def udpSend (s : State) (n : Nat) : State :=
  if (s.udp n).port = 0 then
    let r := takePort 0 s.netPortbitmap
    let s := { s with netPortbitmap := r.2 : State }.setUdp n
      { s.udp n with port := r.1, explicit := false }
    if r.1 = 0 then s else (udpAcquireport s n (bswap16 r.1)).2
  else s

def udpUnref (s : State) (n : Nat) : State :=
  let s := s.setUdp n { s.udp n with refcount := (s.udp n).refcount - 1 }
  if (s.udp n).refcount = 0 then
    let s := unbindAdapter s (.udp n)
    { s with
      udpSockets := removeIfFound s.udpSockets n
      netPortbitmap := netReleaseport s.netPortbitmap (bswap16 (s.udp n).port) }
  else s

/-! ## TCP -/

/-- The socket leaves the adapter it was bound to. -/
def detached (s : State) (n : Nat) : Option Nat → State
  | some a => netUnbindsocket s a (.tcp n)
  | none => s

/-- The end of `tcp_close` for a socket that was bound to `adapter`; a port that belongs to the
parent stays. What happens to the socket itself is in `Tcp.closeResources`. -/
def tcpReleased (s : State) (n : Nat) (adapter : Option Nat) : State :=
  let s := detached s n adapter
  { s with
    tcpSockets := removeIfFound s.tcpSockets n
    netPortbitmap :=
      if (s.tcp n).this.parent = none then
        netReleaseport s.netPortbitmap (bswap16 (s.tcp n).port)
      else s.netPortbitmap }

/-- A socket that `tcp_netpacket` has created for a connection is bound and registered. -/
def tcpSpawn (s : State) (child : Tcp.Socket) : State :=
  let m := s.tcpCount
  let s := { s with tcpCount := m + 1 : State }.setTcp m
    { this := { child with adapter := none }, port := 0, localaddr := 0, bound := false }
  let s :=
    match child.adapter with
    | some a => netBindsocket s a (.tcp m)
    | none => s
  { s with tcpSockets := s.tcpSockets ++ [m] }

/-- A function of TCP runs for the socket. It may close the socket, once, and create one. -/
def tcpRun (s : State) (n : Nat) (f : Tcp.Socket → Tcp.Ctx) : State :=
  let this := (s.tcp n).this
  let c := f { this with freed := false }
  let s := s.setThis n { c.this with freed := this.freed || c.this.freed }
  let s := if c.this.freed then tcpReleased s n this.adapter else s
  match c.spawned with
  | none => s
  | some child => tcpSpawn s child

def tcpAcquireport (s : State) (n : Nat) (port : BitVec 16) : Bool × State :=
  if port = 0 then (false, s)
  else
    let conn := ⟨(s.tcp n).localaddr, inaddrAny, bswap16 port, 0⟩
    (true, { s.setThis n { (s.tcp n).this with conn } with tcpSockets := s.tcpSockets ++ [n] })

def tcpBind (adapters : List Adapter) (s : State) (n : Nat) (addr : SockaddrIn) : Bool × State :=
  if addr.inet = false then (false, s)
  else
    match bindAdapter adapters s (.tcp n) addr.addr with
    | none => (false, s)
    | some s =>
      let s := s.setTcp n { s.tcp n with localaddr := addr.addr }
      match tcpAcquireport s n (bswap16 (s.tcp n).port) with
      | (true, s) => (true, s.setTcp n { s.tcp n with bound := true })
      | (false, s) => (false, unbindAdapter s (.tcp n))

/-- `syscall_bind` marks the socket as bound if `tcp_bind` succeeds. -/
def tcpBound (r : Bool × State) (n : Nat) : State :=
  if r.1 then r.2.setThis n { (r.2.tcp n).this with state := .bound } else r.2

/-- A socket that is bound may listen. -/
def tcpListen (this : Tcp.Socket) : Bool × Tcp.Socket :=
  if this.state = .connected then (false, this)
  else if this.state ≠ .bound then (false, this)
  else (true, Tcp.tcpSetstate this .listen)

/-- `syscall_listen` marks the socket if `tcp_listen` succeeds. -/
def tcpListening (this : Tcp.Socket) : Tcp.Socket :=
  let r := tcpListen this
  if r.1 then { r.2 with state := .listening } else r.2

/-- What `tcp_connect` gets from elsewhere. -/
structure ConnectEnv where
  adapters : List Adapter
  /-- `net_lookup` finds the hardware address. -/
  lookup : Bool
  now : Nat
  random : BitVec 32
  /-- `net_sendinet` returns no error. -/
  sends : Bool

/-- From `net_bindsocket` on. -/
def tcpRegister (s : State) (n a : Nat) (env : ConnectEnv) (remote : BitVec 32)
    (remoteport : BitVec 16) : State :=
  let s := netBindsocket s a (.tcp n)
  let s := { s with tcpSockets := s.tcpSockets ++ [n] }
  let ip := ((env.adapters[a]?).map (·.ip)).getD 0
  tcpRun s n fun this =>
    (Tcp.tcpConnect ⟨env.now, .ok (a, ip), (s.tcp n).port, env.random, env.sends⟩ { this } remote
      remoteport).2

/-- The port of a socket that has none; it is registered with it at once. -/
def tcpTakePort (s : State) (n : Nat) : State :=
  if (s.tcp n).port = 0 then
    let r := takePort 0 s.netPortbitmap
    let s := { s with netPortbitmap := r.2 : State }.setTcp n { s.tcp n with port := r.1 }
    if r.1 = 0 then s else (tcpAcquireport s n (bswap16 r.1)).2
  else s

/-- `tcp_connect` until the thread waits. `net_route` writes to the field `adapter` of the socket,
also if it then fails. -/
def tcpConnect (s : State) (n : Nat) (env : ConnectEnv) (remote : BitVec 32)
    (remoteport : BitVec 16) : State :=
  let this := (s.tcp n).this
  if this.state = .connected ∧ this.tcpstate = .established then s
  else if this.tcpstate = .synsent then s
  else
    match routeAdapter env.adapters this.adapter remote with
    | none => s
    | some a =>
      let s := s.setAdapter (.tcp n) (some a)
      if env.lookup = false then s
      else
        let s := tcpTakePort s n
        if (s.tcp n).port = 0 then s else tcpRegister s n a env remote remoteport

/-- The socket that a segment is for, if there is one (`Tcp.tcpOntcp`). -/
def tcpReceiver (s : State) (inetheader : InetHeader) (data : Nat → Byte) : Option Nat :=
  if (Tcp.loadHeader data).doff * 4 < Tcp.headerSize then none
  else
    let sockets := s.tcpSockets.map fun n => (s.tcp n).this
    match Tcp.receiver sockets (Tcp.segmentConn inetheader data) with
    | none => none
    | some (i, _) => s.tcpSockets[i]?

def tcpSegment (s : State) (env : Nat → Tcp.Env) (inetheader : InetHeader) (data : Nat → Byte)
    (length : Nat) : State :=
  match tcpReceiver s inetheader data with
  | none => s
  | some n =>
    tcpRun s n fun this =>
      Tcp.tcpNetpacket (env n) this inetheader.src inetheader.dest data
        (sub64 length Tcp.headerSize)

/-! ## Steps -/

inductive Step where
  | createUdp
  | createTcp
  | udpRef (n : Nat)
  | udpBind (adapters : List Adapter) (n : Nat) (addr : SockaddrIn)
  | udpSend (n : Nat)
  | udpUnref (n : Nat)
  | tcpBind (adapters : List Adapter) (n : Nat) (addr : SockaddrIn)
  | tcpListen (n : Nat)
  | tcpConnect (n : Nat) (env : ConnectEnv) (remote : BitVec 32) (remoteport : BitVec 16)
  /-- The thread in `tcp_connect` is woken up. -/
  | connectWoken (n now : Nat)
  | segment (env : Nat → Tcp.Env) (inetheader : InetHeader) (data : Nat → Byte) (length : Nat)
  | timer (n now : Nat) (route : Option Nat) (connecttimeout : Nat)
  | tcpClose (n now : Nat)
  | setBindToDevice (id : SockId) (a : Nat)
  | unbindall (a : Nat)
  | allocport
  | releaseport (port : BitVec 16)

/-- A socket that the program or the kernel can name. -/
def State.exists (s : State) : SockId → Bool
  | .udp n => n < s.udpCount
  | .tcp n => n < s.tcpCount

/-- A new UDP socket, with one reference. -/
def udpSock : UdpSock := ⟨none, 0, 0, false, 1, false⟩

/-- A new TCP socket. -/
def tcpSock : TcpSock := ⟨Tcp.socketCreateTcp, 0, 0, false⟩

/-- The state after a call. -/
def next (s : State) : Step → State
  | .createUdp => { s with udpCount := s.udpCount + 1 : State }.setUdp s.udpCount udpSock
  | .createTcp => { s with tcpCount := s.tcpCount + 1 : State }.setTcp s.tcpCount tcpSock
  | .udpRef n => s.setUdp n { s.udp n with refcount := (s.udp n).refcount + 1 }
  | .udpBind adapters n addr => (udpBind adapters s n addr).2
  | .udpSend n => udpSend s n
  | .udpUnref n => udpUnref s n
  | .tcpBind adapters n addr => tcpBound (tcpBind adapters s n addr) n
  | .tcpListen n => s.setThis n (tcpListening (s.tcp n).this)
  | .tcpConnect n env remote remoteport => tcpConnect s n env remote remoteport
  | .connectWoken n now => tcpRun s n fun this => (Tcp.connectWoken { this } now).2
  | .segment env inetheader data length => tcpSegment s env inetheader data length
  | .timer n now route connecttimeout =>
    tcpRun s n fun this => Tcp.tcpTimer { this } now route connecttimeout
  | .tcpClose n now => tcpRun s n fun this => (Tcp.tcpClose { this } now).2
  | .setBindToDevice id a => setBindToDevice s id a
  | .unbindall a => netUnbindall s a
  | .allocport => { s with netPortbitmap := (netAllocport s.netPortbitmap).2 }
  | .releaseport port => { s with netPortbitmap := netReleaseport s.netPortbitmap port }

/-- The sockets that a call names. -/
def Step.socket : Step → Option SockId
  | .udpRef n | .udpBind _ n _ | .udpSend n | .udpUnref n => some (.udp n)
  | .tcpBind _ n _ | .tcpListen n | .tcpConnect n .. | .connectWoken n _ | .timer n ..
  | .tcpClose n _ => some (.tcp n)
  | .setBindToDevice id _ => some id
  | _ => none

/-- A call can be made for sockets that there are. A UDP socket is gone with its last reference. -/
def Possible (s : State) (c : Step) : Prop :=
  ∀ id, c.socket = some id → s.exists id = true ∧
    match id with
    | .udp n => 0 < (s.udp n).refcount
    | .tcp _ => True

/-- A call, and the state after it. -/
def Steps (s : State) (c : Step) (s' : State) : Prop := Possible s c ∧ next s c = s'

/-- No socket has been created, and all ports are free. -/
def start : State where
  udp := fun _ => udpSock
  tcp := fun _ => tcpSock
  udpCount := 0
  tcpCount := 0
  udpSockets := []
  tcpSockets := []
  boundsocks := fun _ => []
  netPortbitmap := fun _ => 0

end Lyre.Inet

/-!
## The backlog of a listening socket

`syscall_listen` allocates an array for as many sockets as its argument says, `tcp_netpacket` puts a
socket in it when a handshake is completed, and `tcp_accept` takes out the first one. The sockets in
the array are named by numbers.

The functions that run for a socket itself are in `Lyre.Ipc.Tcp`; `Ctx.backlogged` says that
`tcp_netpacket` has called `socket_add_to_backlog`. It does not look at what this returns.
-/

namespace Lyre.Backlog

/-- The bytes behind the pointer that `alloc` returns. There are none behind `NULL`; `memory` says
that `pmm_alloc` finds the pages. -/
def blockBytes (size : Nat) (memory : Bool) : Nat :=
  match Slabs.entSizes.find? fun entSize => size ≤ entSize with
  | some entSize => entSize
  | none => if memory then divRoundup size pageSize * pageSize else 0

/-- `struct socket` of a socket that listens. -/
structure Listener where
  this : Tcp.Socket
  /-- The array, and what is behind it. -/
  backlog : Nat → Nat
  backlogMax : Nat
  backlogI : Nat
  /-- The size of the block at `backlog`. This is not stored in the socket. -/
  bytes : Nat

/-- The argument is an `int`, and it is widened to a `size_t`. -/
def syscallListen (this : Tcp.Socket) (backlog : BitVec 32) (memory : Bool) : Option Listener :=
  if this.state ≠ .bound then none
  else
    let r := Inet.tcpListen this
    if r.1 then
      some {
        this := { r.2 with state := .listening }
        backlog := fun _ => 0
        backlogMax := (backlog.signExtend 64).toNat
        backlogI := 0
        bytes := blockBytes (backlog.signExtend 64 * 8).toNat memory }
    else none

def socketAddToBacklog (sock : Listener) (other : Nat) : Bool × Listener :=
  if sock.backlogI = sock.backlogMax then (false, sock)
  else
    (true, { sock with
      this := { sock.this with status := { sock.this.status with pollin := true } }
      backlog := Function.update sock.backlog sock.backlogI other
      backlogI := sock.backlogI + 1 })

/-- The loop of `tcp_accept` that moves the entries. -/
def shiftEntries (backlog : Nat → Nat) (backlogI : Nat) : Nat → Nat :=
  (List.range (backlogI - 1)).foldl (fun backlog i => Function.update backlog i (backlog (i + 1)))
    backlog

/-- `none` if the thread waits, or gets `EWOULDBLOCK`. -/
def tcpAccept (sock : Listener) : Option (Nat × Listener) :=
  if sock.backlogI = 0 then none
  else
    some (sock.backlog 0, { sock with
      backlog := shiftEntries sock.backlog sock.backlogI
      backlogI := sock.backlogI - 1 })

end Lyre.Backlog
