import Lyre.Infra.Heap
import Lyre.Ipc.Tcp

/-!
# `ipc/socket/tcp.c`: timers, and connecting

`tcp_timer` looks at every socket once in 100 ms. `connecttimeout` is read nowhere else, and so it
is not part of `Socket` but given to the timer.

`net_route` and `net_allocport` are outside, and so is whether a segment can be sent.
-/

namespace Lyre.Tcp

/-! ## Retransmission -/

/-- The entry afterwards, and what has been done. The time on which it gives up is in seconds, the
others are in nanoseconds. -/
def tcpQueueemit (c : Ctx) (now : Nat) (route : Option Nat) (entry : RetransmitEntry) :
    RetransmitEntry × Ctx :=
  if c.this.tcpstate = .closed then (entry, c)
  else
    match c.this.adapter.or route with
    | none => (entry, c)
    | some _ =>
      if 5 ≤ (now - entry.first) / 1000000000 then
        (entry, { c with this := tcpSetstate c.this .closed })
      else if entry.last + entry.rto < now then
        ({ entry with last := now, rto := entry.rto * 2 % 2 ^ 64 },
          tcpSendsegment c entry.seq c.this.rcvnxt entry.flags (c.this.rcvwnd.setWidth 16)
            entry.data)
      else (entry, c)

/-- The loop of `tcp_retransmitall`. -/
def queueemitLoop (now : Nat) (route : Option Nat) :
    List RetransmitEntry → Ctx → List RetransmitEntry × Ctx
  | [], c => ([], c)
  | entry :: entries, c =>
    let r := tcpQueueemit c now route entry
    let rs := queueemitLoop now route entries r.2
    (r.1 :: rs.1, rs.2)

def tcpRetransmitall (c : Ctx) (now : Nat) (route : Option Nat) : Ctx :=
  if c.this.tcpstate = .closed then c
  else
    let r := queueemitLoop now route c.this.retransmitqueue c
    { r.2 with this := { r.2.this with retransmitqueue := r.1 } }

/-- What `tcp_timer` does with one socket. -/
def tcpTimer (c : Ctx) (now : Nat) (route : Option Nat) (connecttimeout : Nat) : Ctx :=
  if c.this.tcpstate = .timewait ∧ c.this.timewaittimer < now then
    (tcpClose { c with this := tcpSetstate c.this .closed } now).2
  else if c.this.tcpstate = .synsent ∧ connecttimeout < now then
    -- only `connect_event` is triggered
    c
  else tcpRetransmitall c now route

/-! ## `tcp_connect` -/

/-- What `tcp_connect` gets from elsewhere. -/
structure ConnectEnv where
  now : Nat
  /-- The adapter that `net_route` finds, with its address, or what it leaves if it fails. -/
  route : Except (Option Nat) (Nat × BitVec 32)
  /-- The port of the socket, which may be a new one. -/
  port : BitVec 16
  /-- What `random_generate` returns. -/
  random : BitVec 32
  /-- `net_sendinet` returns no error. -/
  sends : Bool

/-- Until the thread waits for `connect_event` (`none`). -/
def tcpConnect (env : ConnectEnv) (c : Ctx) (remote : BitVec 32) (remoteport : BitVec 16) :
    Option Errno × Ctx :=
  if c.this.state = .connected ∧ c.this.tcpstate = .established then (some .eisconn, c)
  else if c.this.tcpstate = .synsent then (some .ealready, c)
  else
    match env.route with
    | .error adapter => (some .enetunreach, { c with this := { c.this with adapter } })
    | .ok (adapter, ip) =>
      if env.port = 0 then
        (some .eintr, { c with this := { c.this with adapter := some adapter } })
      else
        let this := { c.this with
          adapter := some adapter
          rcvwnd := BitVec.ofNat 32 c.this.rcvbuf.size
          sndis := env.random
          conn := ⟨ip, remote, env.port, remoteport⟩ }
        let c := tcpSend { c with this := tcpSetstate this .synsent } env.now { syn := true } []
        if env.sends then
          (none, { c with this := { c.this with
            snduna := c.this.sndis
            sndnxt := c.this.sndis + 1 } })
        else
          (some .econnreset, (tcpClose { c with this := tcpSetstate c.this .closed } env.now).2)

/-- The thread is woken up: `none` if it waits again, and otherwise what `tcp_connect` returns. -/
def connectWoken (c : Ctx) (now : Nat) : Option (Except Errno Unit) × Ctx :=
  match c.this.tcpstate with
  | .established =>
    (some (.ok ()),
      { c with this := { c.this with
        status := { c.this.status with pollout := true, pollin := true } } })
  | .synrecv => (none, c)
  | _ => (some (.error .etimedout), (tcpClose { c with this := tcpSetstate c.this .closed } now).2)

end Lyre.Tcp

/-!
## `ipc/socket/tcp.c`: the retransmission queue in memory

The queue is a vector of pointers. Its storage and its entries are blocks of the heap, and what a
function does with a block that is not there is a fault (`none`). The addresses that `alloc` and
`realloc` return are arguments, with 0 for `NULL`.
-/

namespace Lyre.Tcp

open Infra

/-- A block that the queue uses. -/
inductive Block where
  | entry (entry : RetransmitEntry)
  /-- The storage of the vector. -/
  | pointers
  deriving DecidableEq

/-- `retransmitqueue`. The pointers below `length` are `items`. -/
structure Queue where
  heap : Heap Block
  data : Nat
  capacity : Nat
  items : List Nat

namespace Queue

/-- The entry at an address. -/
def entryAt (q : Queue) (a : Nat) : Option RetransmitEntry :=
  match q.heap.get a with
  | some (.entry entry) => some entry
  | _ => none

/-- `data` can be read and written. -/
def HasStorage (q : Queue) : Prop := q.heap.get q.data = some .pointers

instance (q : Queue) : Decidable q.HasStorage := inferInstanceAs (Decidable (_ = _))

/-- `realloc` of the storage, which moves to `moved`. -/
def reallocStorage (q : Queue) (moved : Nat) : Option Queue :=
  if q.data = 0 then some { q with heap := q.heap.put moved .pointers, data := moved }
  else if q.HasStorage then
    some { q with heap := (q.heap.erase q.data).put moved .pointers, data := moved }
  else none

/-- `VECTOR_ENSURE_LENGTH` with the length of the vector. -/
def ensureLength (q : Queue) (moved : Nat) : Option Queue :=
  if q.capacity ≤ q.items.length then
    { q with capacity := if q.capacity = 0 then 8 else q.capacity * 2 }.reallocStorage moved
  else some q

/-- `entry` is the address of the new entry, `moved` that of the storage if it grows. -/
def queueforretransmit (q : Queue) (now : Nat) (seq : BitVec 32) (flags : Flags)
    (data : List Byte) (entry moved : Nat) : Option Queue :=
  if entry = 0 then none
  else
    let e := { first := now, last := now, rto := 200000, seq, flags, data }
    match { q with heap := q.heap.put entry (.entry e) }.ensureLength moved with
    | none => none
    | some q =>
      if q.data ≠ 0 ∧ q.HasStorage then some { q with items := q.items ++ [entry] } else none

/-- The loop of `tcp_queuecleanup` from the index `i` on. -/
def queuecleanupLoop (snduna : BitVec 32) : Nat → Nat → Queue → Option Queue
  | 0, _, q => some q
  | fuel + 1, i, q =>
    match q.items[i]? with
    | none => some q
    | some it =>
      if ¬ q.HasStorage then none
      else
        match q.entryAt it with
        | none => none
        | some entry =>
          if snduna ≤ entry.seq then some q
          else
            match q.heap.free it with
            | none => none
            | some heap =>
              queuecleanupLoop snduna fuel (i + 1)
                { q with heap, items := vectorRemoveByValue q.items it }

/-- The storage is freed, and `data` still points to it. -/
def queuecleanup (q : Queue) (snduna : BitVec 32) : Option Queue :=
  match queuecleanupLoop snduna q.items.length 0 q with
  | none => none
  | some q =>
    if q.data = 0 then some q
    else
      match q.heap.free q.data with
      | none => none
      | some heap => some { q with heap }

/-- The loop of `tcp_retransmitall` over the pointers that are left. -/
def retransmitLoop (now : Nat) (route : Option Nat) :
    List Nat → Queue → Ctx → Option (Queue × Ctx)
  | [], q, c => some (q, c)
  | it :: items, q, c =>
    if ¬ q.HasStorage then none
    else
      match q.entryAt it with
      | none => none
      | some entry =>
        let r := tcpQueueemit c now route entry
        retransmitLoop now route items { q with heap := q.heap.put it (.entry r.1) } r.2

def retransmitall (q : Queue) (c : Ctx) (now : Nat) (route : Option Nat) : Option (Queue × Ctx) :=
  if c.this.tcpstate = .closed then some (q, c)
  else retransmitLoop now route q.items q c

end Queue

end Lyre.Tcp
