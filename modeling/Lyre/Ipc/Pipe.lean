import Lyre.Infra.Ring
import Lyre.Lib.Errno
import Mathlib.Algebra.GroupWithZero.Nat

/-!
# `ipc/pipe.c` and the streams of `ipc/socket/unix.c`

`struct pipe` and `struct unix_socket` hold the same five fields of a ring, and the five functions
that read and write have the same lines about it. They are written once here, for `Ring`.

Numbers are `size_t`. A call that finds nothing to do waits for an event, and then it looks again:
`Result.wait` stands for that. Locks and `event_trigger` have no counterpart.
-/

namespace Lyre.Pipes

open Infra.Ring

abbrev Byte := BitVec 8

structure Ring where
  data : Nat → Byte
  capacity : Nat
  readPtr : Nat
  writePtr : Nat
  used : Nat

/-- `POLLIN` and `POLLOUT` of `status`. -/
structure Status where
  pollin : Bool := false
  pollout : Bool := false
  deriving DecidableEq, Repr

inductive Result where
  | bytes (data : List Byte)
  | count (n : Nat)
  | error (errno : Errno)
  /-- -1, with `errno` as it was. -/
  | failed
  /-- The thread waits for an event, and tries again. -/
  | wait
  deriving DecidableEq, Repr

/-! ## Rings -/

/-- How many bytes are before and after the end of the buffer, and the pointer afterwards. -/
def wrap (capacity ptr count : Nat) : Nat × Nat × Nat :=
  if capacity < (ptr + count) % 2 ^ 64 then
    let beforeWrap := capacity - ptr
    let afterWrap := count - beforeWrap
    (beforeWrap, afterWrap, afterWrap)
  else
    let newPtr := ptr + count
    (count, 0, if newPtr = capacity then 0 else newPtr)

/-- The bytes that are copied out of the buffer. -/
def copyOut (ring : Ring) (beforeWrap afterWrap : Nat) : List Byte :=
  slice ring.data ring.readPtr beforeWrap ++
    if afterWrap ≠ 0 then slice ring.data 0 afterWrap else []

/-- The number of bytes that there are to read. -/
def Ring.readable (ring : Ring) (count : Nat) : Nat :=
  if ring.used < count then ring.used else count

/-- The number of bytes that there is room for. -/
def Ring.writable (ring : Ring) (count : Nat) : Nat :=
  if ring.capacity < (ring.used + count) % 2 ^ 64 then ring.capacity - ring.used else count

def Ring.read (ring : Ring) (count : Nat) : List Byte × Ring :=
  let count := ring.readable count
  let (beforeWrap, afterWrap, newPtr) := wrap ring.capacity ring.readPtr count
  (copyOut ring beforeWrap afterWrap,
    { ring with readPtr := newPtr, used := ring.used - count })

def Ring.write (ring : Ring) (buf : List Byte) : Nat × Ring :=
  let count := ring.writable buf.length
  let (beforeWrap, afterWrap, newPtr) := wrap ring.capacity ring.writePtr count
  let data := blit ring.data ring.writePtr (buf.take beforeWrap)
  let data := if afterWrap ≠ 0 then blit data 0 ((buf.drop beforeWrap).take afterWrap) else data
  (count, { ring with data, writePtr := newPtr, used := ring.used + count })

/-! ## Pipes -/

structure Pipe where
  ring : Ring
  status : Status
  readerCount : Nat
  writerCount : Nat

/-- `pipe_create`; `PIPE_BUF` is 16 pages. -/
def pipeCreate : Pipe := ⟨⟨fun _ => 0, 4096 * 16, 0, 0, 0⟩, {}, 0, 0⟩

def pipeRef (pipe : Pipe) (wronly : Bool) : Pipe :=
  if wronly then { pipe with writerCount := (pipe.writerCount + 1) % 2 ^ 64 }
  else { pipe with readerCount := (pipe.readerCount + 1) % 2 ^ 64 }

def pipeUnref (pipe : Pipe) (wronly : Bool) : Pipe :=
  if wronly then { pipe with writerCount := (pipe.writerCount + 2 ^ 64 - 1) % 2 ^ 64 }
  else { pipe with readerCount := (pipe.readerCount + 2 ^ 64 - 1) % 2 ^ 64 }

/-- `interrupted` says that `event_await` fails. -/
def pipeRead (pipe : Pipe) (nonblock interrupted : Bool) (count : Nat) : Result × Pipe :=
  if pipe.ring.used = 0 then
    if pipe.writerCount = 0 ∨ nonblock then (.bytes [], pipe)
    else (if interrupted then .error .eintr else .wait, pipe)
  else
    let (bytes, ring) := pipe.ring.read count
    let status := if ring.used = 0 then { pipe.status with pollin := false } else pipe.status
    let status := if ring.used < ring.capacity then { status with pollout := true } else status
    (.bytes bytes, { pipe with ring, status })

def pipeWrite (pipe : Pipe) (interrupted : Bool) (buf : List Byte) : Result × Pipe :=
  if pipe.readerCount = 0 then (.error .epipe, pipe)
  else if pipe.ring.used = pipe.ring.capacity then
    (if interrupted then .error .eintr else .wait, pipe)
  else
    let (count, ring) := pipe.ring.write buf
    let status :=
      if ring.used = ring.capacity then { pipe.status with pollout := false } else pipe.status
    (.count count, { pipe with ring, status := { status with pollin := true } })

/-! ## Unix sockets -/

/-- A connected socket, with the status of its peer. -/
structure UnixSocket where
  ring : Ring
  status : Status
  peer : Status

/-- `socket_create_unix`; `SOCK_BUFFER_SIZE` is 0x4000. -/
def socketCreateUnix : UnixSocket := ⟨⟨fun _ => 0, 0x4000, 0, 0, 0⟩, {}, {}⟩

/-- What `unix_read` and `unix_write` do if there is nothing to do. -/
def unixWait (nonblock interrupted : Bool) : Result :=
  if nonblock then .error .ewouldblock else if interrupted then .error .eintr else .wait

def unixRead (this : UnixSocket) (nonblock interrupted : Bool) (count : Nat) :
    Result × UnixSocket :=
  if this.ring.used = 0 then (unixWait nonblock interrupted, this)
  else
    let (bytes, ring) := this.ring.read count
    (.bytes bytes,
      { ring
        status := { this.status with pollin := false }
        peer := { this.peer with pollout := true } })

/-- `unix_write` of the peer of the socket. -/
def unixWrite (peer : UnixSocket) (nonblock interrupted : Bool) (buf : List Byte) :
    Result × UnixSocket :=
  if peer.ring.used = peer.ring.capacity then (unixWait nonblock interrupted, peer)
  else
    let (count, ring) := peer.ring.write buf
    (.count count, { peer with ring, status := { peer.status with pollin := true } })

/-- The loop of `unix_recvmsg` over the lengths of the buffers: what is in each of them, and
`transferred`. -/
def transferLoop (tmp : List Byte) : List Nat → Nat → Nat → List (List Byte) × Nat
  | [], transferred, _ => ([], transferred)
  | len :: lens, transferred, remaining =>
    let transferCount := min len remaining
    let r := transferLoop tmp lens (transferred + transferCount) (remaining - transferCount)
    ((tmp.drop transferred).take transferCount :: r.1, r.2)

/-- `allocated` says that `alloc` returns memory. -/
def unixRecvmsg (this : UnixSocket) (nonblock interrupted allocated : Bool) (lens : List Nat) :
    Result × UnixSocket :=
  let count := lens.sum % 2 ^ 64
  if this.ring.used = 0 then
    (unixWait nonblock interrupted, { this with peer := { this.peer with pollout := true } })
  else
    let count := this.ring.readable count
    let (beforeWrap, afterWrap, newPtr) := wrap this.ring.capacity this.ring.readPtr count
    if !allocated then (.failed, this)
    else
      let tmp := copyOut this.ring beforeWrap afterWrap
      let (bufs, transferred) := transferLoop tmp lens 0 (beforeWrap + afterWrap)
      (.bytes bufs.flatten,
        { ring := { this.ring with readPtr := newPtr, used := this.ring.used - transferred }
          status := { this.status with pollin := false }
          peer := { this.peer with pollout := true } })

end Lyre.Pipes
