import Lyre.Ipc.UnixPair
import Lyre.Lib.Resource
import Lyre.Properties.Pipe

/-!
# When the poll status says what is there

`POLLIN` has to say that there is something to read, and `POLLOUT` that there is room. The two bits
are kept where a call has just come from, and not all calls keep both of them:

* a new pipe, and a new socket that was accepted, has room and no `POLLOUT`,
* `pipe_write` and `unix_write` set `POLLIN` also if no byte was written,
* `unix_read` and `unix_recvmsg` clear `POLLIN` also if bytes are left,
* `unix_recvmsg` sets `POLLOUT` of the peer and waits,
* `unix_write` does not clear `POLLOUT` if it fills the buffer.

What a call needs that the status is exact after it is found for every call (`poll_status_iff`).
-/

namespace Lyre.Pipes

open Infra UnixPair

/-! ## Watched rings -/

/-- A ring, with the `POLLIN` of its reader and the `POLLOUT` of its writer. -/
structure Watched where
  ring : Ring
  pollin : Bool
  pollout : Bool

structure Watched.Exact (w : Watched) : Prop where
  pollin : w.pollin = true ↔ w.ring.used ≠ 0
  pollout : w.pollout = true ↔ w.ring.used < w.ring.capacity

def Pipe.watched (pipe : Pipe) : Watched := ⟨pipe.ring, pipe.status.pollin, pipe.status.pollout⟩

def UnixSocket.watched (this : UnixSocket) : Watched :=
  ⟨this.ring, this.status.pollin, this.peer.pollout⟩

/-- The first byte that is written is never lost, and a full pipe is never shown as free. -/
structure Watched.Kept (w : Watched) : Prop where
  pollin : w.ring.used ≠ 0 → w.pollin = true
  pollout : w.ring.used = w.ring.capacity → w.pollout = false

/-- The status is exact after the call. -/
def PipeCall.Settles (pipe : Pipe) : PipeCall → Prop
  | .ref _ => pipe.watched.Exact
  | .unref _ => pipe.watched.Exact
  | .read .. => pipe.ring.used ≠ 0 ∨ pipe.watched.Exact
  | .write _ buf =>
    if pipe.readerCount = 0 ∨ pipe.ring.used = pipe.ring.capacity then pipe.watched.Exact
    else
      (pipe.ring.used ≠ 0 ∨ buf ≠ []) ∧
        (pipe.status.pollout = true ∨ pipe.ring.capacity ≤ pipe.ring.used + buf.length)

/-- The same for the socket whose buffer is used. -/
def UnixCall.Settles (this : UnixSocket) : UnixCall → Prop
  | .read _ _ count =>
    if this.ring.used = 0 then this.watched.Exact else this.ring.used ≤ count
  | .recvmsg _ _ allocated lens =>
    if this.ring.used = 0 then this.status.pollin = false
    else if allocated then this.ring.used ≤ lens.sum % 2 ^ 64
    else this.watched.Exact
  | .write _ _ buf =>
    if this.ring.used = this.ring.capacity then this.watched.Exact
    else
      (this.ring.used ≠ 0 ∨ buf ≠ []) ∧
        (this.peer.pollout = true ↔ this.ring.used + buf.length < this.ring.capacity)

/-! ## What a call does to its ring -/

variable {ring : Ring} {count : Nat} {buf : List Byte}

theorem read_used (ring : Ring) (count : Nat) :
    (ring.read count).2.used = ring.used - count := by
  have hused : (ring.read count).2.used = ring.used - ring.readable count := rfl
  rw [hused]
  unfold Ring.readable
  split <;> omega

theorem read_capacity (ring : Ring) (count : Nat) :
    (ring.read count).2.capacity = ring.capacity := rfl

theorem write_capacity (ring : Ring) (buf : List Byte) :
    (ring.write buf).2.capacity = ring.capacity := rfl

theorem Valid.write_used (h : Valid ring) (hbuf : buf.length < 2 ^ 63) :
    (ring.write buf).2.used = min (ring.used + buf.length) ring.capacity := by
  have hused := h.used_le
  have hcap := h.capacity_lt
  have heq : (ring.write buf).2.used = ring.used + ring.writable buf.length := rfl
  rw [heq]
  unfold Ring.writable
  rw [Nat.mod_eq_of_lt (show ring.used + buf.length < 2 ^ 64 by omega)]
  split <;> omega

/-- `POLLIN` is set behind the bytes of a write. -/
theorem exact_put (h : Valid ring) (hbuf : buf.length < 2 ^ 63)
    (hfull : ring.used ≠ ring.capacity) (pollout : Bool) :
    (Watched.mk (ring.write buf).2 true pollout).Exact ↔
      (ring.used ≠ 0 ∨ buf ≠ []) ∧ (pollout = true ↔ ring.used + buf.length < ring.capacity) := by
  have hle := h.used_le
  have hused := h.write_used hbuf
  have hbuf : buf ≠ [] ↔ buf.length ≠ 0 := not_congr List.length_eq_zero_iff.symm
  have hin : (ring.write buf).2.used ≠ 0 ↔ ring.used ≠ 0 ∨ buf ≠ [] := by
    rw [hused, hbuf]
    omega
  have hout : (ring.write buf).2.used < (ring.write buf).2.capacity ↔
      ring.used + buf.length < ring.capacity := by
    rw [hused, write_capacity]
    omega
  rw [← hin, ← hout]
  exact ⟨fun hexact => ⟨hexact.pollin.mp rfl, hexact.pollout⟩,
    fun hexact => ⟨iff_of_true rfl hexact.1, hexact.2⟩⟩

/-! ## Pipes -/

theorem pipeRead_empty {pipe : Pipe} (h : pipe.ring.used = 0) (nonblock interrupted : Bool)
    (count : Nat) : (pipeRead pipe nonblock interrupted count).2 = pipe := by
  unfold pipeRead
  rw [if_pos h]
  split <;> rfl

/-- What `pipe_read` leaves of a pipe that is not empty. -/
theorem pipeRead_watched {pipe : Pipe} (h : pipe.ring.used ≠ 0) (nonblock interrupted : Bool)
    (count : Nat) :
    (pipeRead pipe nonblock interrupted count).2.watched =
      ⟨(pipe.ring.read count).2,
        if pipe.ring.used - count = 0 then false else pipe.status.pollin,
        if pipe.ring.used - count < pipe.ring.capacity then true else pipe.status.pollout⟩ := by
  have hused := read_used pipe.ring count
  unfold pipeRead Pipe.watched
  rw [if_neg h]
  dsimp only
  rw [hused, read_capacity]
  split <;> split <;> rfl

theorem pipeWrite_idle {pipe : Pipe}
    (h : pipe.readerCount = 0 ∨ pipe.ring.used = pipe.ring.capacity) (interrupted : Bool)
    (buf : List Byte) : (pipeWrite pipe interrupted buf).2 = pipe := by
  unfold pipeWrite
  split
  · rfl
  · next hreader =>
    rw [if_pos (h.resolve_left hreader)]

/-- What `pipe_write` leaves of a pipe that has a reader and is not full. -/
theorem pipeWrite_watched {pipe : Pipe}
    (h : ¬ (pipe.readerCount = 0 ∨ pipe.ring.used = pipe.ring.capacity)) (interrupted : Bool)
    (buf : List Byte) :
    (pipeWrite pipe interrupted buf).2.watched =
      ⟨(pipe.ring.write buf).2, true,
        if (pipe.ring.write buf).2.used = pipe.ring.capacity then false
        else pipe.status.pollout⟩ := by
  rw [not_or] at h
  unfold pipeWrite Pipe.watched
  rw [if_neg h.1, if_neg h.2]
  dsimp only
  rw [write_capacity]
  split <;> rfl

theorem pipeRef_watched (pipe : Pipe) (wronly : Bool) :
    (pipeRef pipe wronly).watched = pipe.watched := by
  unfold pipeRef
  split <;> rfl

theorem pipeUnref_watched (pipe : Pipe) (wronly : Bool) :
    (pipeUnref pipe wronly).watched = pipe.watched := by
  unfold pipeUnref Pipe.watched
  split <;> rfl

theorem pipeNext_kept {s : Log Pipe} {call : PipeCall} (hvalid : Valid s.obj.ring)
    (h : s.obj.watched.Kept) (hok : call.ok s) : (pipeNext s call).obj.watched.Kept := by
  cases call with
  | ref wronly =>
    dsimp only [pipeNext]
    rw [pipeRef_watched]
    exact h
  | unref wronly =>
    dsimp only [pipeNext]
    rw [pipeUnref_watched]
    exact h
  | read nonblock interrupted count =>
    dsimp only [pipeNext, Log.read]
    by_cases hempty : s.obj.ring.used = 0
    · rw [pipeRead_empty hempty]
      exact h
    · have hle := hvalid.used_le
      rw [pipeRead_watched hempty]
      refine ⟨fun hused => ?_, fun hused => ?_⟩
      · dsimp only at hused ⊢
        rw [read_used] at hused
        rw [if_neg hused]
        exact h.pollin hempty
      · dsimp only at hused ⊢
        rw [read_used, read_capacity] at hused
        rw [if_neg (by omega)]
        exact h.pollout (by dsimp only [Pipe.watched]; omega)
  | write interrupted buf =>
    dsimp only [pipeNext, Log.write]
    by_cases hidle : s.obj.readerCount = 0 ∨ s.obj.ring.used = s.obj.ring.capacity
    · rw [pipeWrite_idle hidle]
      exact h
    · rw [pipeWrite_watched hidle]
      refine ⟨fun _ => rfl, fun hused => ?_⟩
      dsimp only at hused ⊢
      rw [write_capacity] at hused
      rw [if_pos hused]

/-- The status of a pipe is exact after a call exactly if the call settles it. -/
theorem pipeNext_exact_iff {s : Log Pipe} {call : PipeCall} (hvalid : Valid s.obj.ring)
    (h : s.obj.watched.Kept) (hok : call.ok s) :
    (pipeNext s call).obj.watched.Exact ↔ call.Settles s.obj := by
  have hle := hvalid.used_le
  cases call with
  | ref wronly =>
    dsimp only [pipeNext, PipeCall.Settles]
    rw [pipeRef_watched]
  | unref wronly =>
    dsimp only [pipeNext, PipeCall.Settles]
    rw [pipeUnref_watched]
  | read nonblock interrupted count =>
    dsimp only [pipeNext, PipeCall.Settles, Log.read]
    by_cases hempty : s.obj.ring.used = 0
    · rw [pipeRead_empty hempty]
      exact (or_iff_right (not_not_intro hempty)).symm
    · rw [pipeRead_watched hempty]
      refine iff_of_true ⟨?_, ?_⟩ (.inl hempty)
      · dsimp only
        have hpollin : s.obj.status.pollin = true := h.pollin hempty
        rw [read_used, hpollin]
        split
        · next hlast => simp [hlast]
        · next hmore => simp [hmore]
      · dsimp only
        rw [read_used, read_capacity]
        split
        · next hroom => simp [hroom]
        · next hfull =>
          have hpollout : s.obj.status.pollout = false :=
            h.pollout (by dsimp only [Pipe.watched]; omega)
          simp [hpollout, hfull]
  | write interrupted buf =>
    dsimp only [pipeNext, PipeCall.Settles, Log.write]
    by_cases hidle : s.obj.readerCount = 0 ∨ s.obj.ring.used = s.obj.ring.capacity
    · rw [pipeWrite_idle hidle, if_pos hidle]
    · have hused := hvalid.write_used hok
      rw [pipeWrite_watched hidle, if_neg hidle]
      rw [not_or] at hidle
      refine (exact_put hvalid hok hidle.2 _).trans (and_congr_right fun _ => ?_)
      rw [hused]
      split
      · next hfull => exact iff_of_true (iff_of_false (by decide) (by omega)) (.inr (by omega))
      · next hroom =>
        rw [iff_true_right (show s.obj.ring.used + buf.length < s.obj.ring.capacity by omega)]
        exact (or_iff_left (by omega)).symm

/-! ## Unix sockets -/

/-- A call on the socket whose buffer it uses. -/
def UnixCall.run (this : UnixSocket) (call : UnixCall) : UnixSocket :=
  (unixNext ⟨this, [], []⟩ call).obj

theorem UnixCall.run_valid {this : UnixSocket} {call : UnixCall} (h : Valid this.ring)
    (hok : call.ok ⟨this, this.ring.contents, []⟩) : Valid (call.run this).ring := by
  have hnext := (unixNext_fifo (s := ⟨this, this.ring.contents, []⟩) ⟨h, rfl⟩ hok).valid
  cases call <;> exact hnext

theorem unixRecvmsg_used {this : UnixSocket} (h : Valid this.ring) (hused : this.ring.used ≠ 0)
    (nonblock interrupted : Bool) (lens : List Nat) :
    (unixRecvmsg this nonblock interrupted true lens).2.ring.used =
      this.ring.used - lens.sum % 2 ^ 64 := by
  have hsum := Valid.readable_mod_le this.ring lens.sum
  have hle := Valid.readable_le this.ring (lens.sum % 2 ^ 64)
  have hread : this.ring.used - this.ring.readable (lens.sum % 2 ^ 64) =
      this.ring.used - lens.sum % 2 ^ 64 := read_used this.ring (lens.sum % 2 ^ 64)
  unfold unixRecvmsg
  rw [if_neg hused]
  dsimp only
  rw [if_neg (show ¬ (!true) = true by decide), ← hread]
  generalize this.ring.readable (lens.sum % 2 ^ 64) = count at hsum hle ⊢
  rw [wrap_total h.read_lt (Nat.le_trans hle h.used_le) h.capacity_lt,
    (transferLoop_eq _ lens 0 count hsum).1, Nat.zero_add]

/-- `POLLIN` is cleared and `POLLOUT` is set: that is right for an empty buffer. -/
theorem exact_taken (hcap : 0 < ring.capacity) :
    (Watched.mk ring false true).Exact ↔ ring.used = 0 := by
  constructor
  · rintro ⟨hin, -⟩
    by_contra hne
    exact Bool.false_ne_true (hin.mpr hne)
  · intro hzero
    refine ⟨iff_of_false Bool.false_ne_true (not_not_intro hzero), iff_of_true rfl ?_⟩
    dsimp only
    omega

/-- The status of both ends of a buffer is exact after a call exactly if the call settles it. -/
theorem UnixCall.run_exact_iff {this : UnixSocket} {call : UnixCall} (h : Valid this.ring)
    (hok : call.ok ⟨this, [], []⟩) : (call.run this).watched.Exact ↔ call.Settles this := by
  have hcap : 0 < this.ring.capacity := Nat.zero_lt_of_lt h.read_lt
  cases call with
  | read nonblock interrupted count =>
    dsimp only [UnixCall.run, unixNext, UnixCall.Settles, Log.read]
    unfold unixRead
    split
    · rfl
    · next hused =>
      refine (exact_taken (by exact hcap)).trans ?_
      rw [read_used, Nat.sub_eq_zero_iff_le]
  | recvmsg nonblock interrupted allocated lens =>
    dsimp only [UnixCall.run, unixNext, UnixCall.Settles, Log.read]
    by_cases hused : this.ring.used = 0
    · rw [if_pos hused]
      unfold unixRecvmsg
      rw [if_pos hused]
      constructor
      · rintro ⟨hin, -⟩
        exact Bool.eq_false_of_not_eq_true fun hset => hin.mp hset hused
      · intro hclear
        refine ⟨iff_of_false ?_ (not_not_intro hused), iff_of_true rfl ?_⟩
        · exact Bool.eq_false_iff.mp hclear
        · dsimp only [UnixSocket.watched]
          omega
    · rw [if_neg hused]
      cases allocated with
      | false =>
        unfold unixRecvmsg
        rw [if_neg hused]
        rfl
      | true =>
        have hleft := unixRecvmsg_used h hused nonblock interrupted lens
        rw [if_pos rfl, ← Nat.sub_eq_zero_iff_le, ← hleft]
        have hwatched : (unixRecvmsg this nonblock interrupted true lens).2.watched =
            ⟨(unixRecvmsg this nonblock interrupted true lens).2.ring, false, true⟩ := by
          unfold unixRecvmsg
          rw [if_neg hused]
          rfl
        rw [hwatched]
        refine exact_taken ?_
        unfold unixRecvmsg
        rw [if_neg hused]
        exact hcap
  | write nonblock interrupted buf =>
    dsimp only [UnixCall.run, unixNext, UnixCall.Settles, Log.write]
    unfold unixWrite
    split
    · rfl
    · next hfull => exact exact_put h hok hfull this.peer.pollout

/-! ## Both sockets -/

/-- The socket whose buffer a call on `e` uses. -/
def UnixCall.buffer (e : End) : UnixCall → End
  | .read .. => e
  | .recvmsg .. => e
  | .write .. => e.peer

/-- One call after the other, on either socket. -/
def pairNext (s : UnixPair.State) (call : End × UnixCall) : UnixPair.State :=
  s.setSocket (call.2.buffer call.1) (call.2.run (s.socket (call.2.buffer call.1)))

def PairCall.ok (_ : UnixPair.State) (call : End × UnixCall) : Prop :=
  ∀ this : Log UnixSocket, call.2.ok this

/-- Both buffers are watched with exact bits. -/
def PairExact (s : UnixPair.State) : Prop := ∀ e : End, (s.socket e).watched.Exact

/-- The status of both sockets is exact after the call. -/
def PairCall.Settles (s : UnixPair.State) (call : End × UnixCall) : Prop :=
  call.2.Settles (s.socket (call.2.buffer call.1)) ∧
    (s.socket (call.2.buffer call.1).peer).watched.Exact

theorem setSocket_watched_self (s : UnixPair.State) (e : End) (u : UnixSocket) :
    ((s.setSocket e u).socket e).watched = u.watched := by
  unfold State.setSocket State.socket UnixSocket.watched
  dsimp only
  rw [Function.update_self, Function.update_of_ne (End.peer_ne e).symm, Function.update_self,
    Function.update_self]

theorem setSocket_watched_peer (s : UnixPair.State) (e : End) (u : UnixSocket)
    (hin : u.peer.pollin = (s.socket e).peer.pollin)
    (hout : u.status.pollout = (s.socket e).status.pollout) :
    ((s.setSocket e u).socket e.peer).watched = (s.socket e.peer).watched := by
  unfold State.setSocket State.socket UnixSocket.watched
  dsimp only
  rw [End.peer_peer, Function.update_of_ne (End.peer_ne e), Function.update_self,
    Function.update_of_ne (End.peer_ne e).symm, Function.update_self, hin, hout]
  rfl

theorem UnixCall.run_frame (this : UnixSocket) (call : UnixCall) :
    (call.run this).peer.pollin = this.peer.pollin ∧
      (call.run this).status.pollout = this.status.pollout := by
  cases call with
  | read nonblock interrupted count =>
    dsimp only [UnixCall.run, unixNext, Log.read]
    unfold unixRead
    split <;> exact ⟨rfl, rfl⟩
  | recvmsg nonblock interrupted allocated lens =>
    dsimp only [UnixCall.run, unixNext, Log.read]
    unfold unixRecvmsg
    dsimp only
    split
    · exact ⟨rfl, rfl⟩
    · split <;> exact ⟨rfl, rfl⟩
  | write nonblock interrupted buf =>
    dsimp only [UnixCall.run, unixNext, Log.write]
    unfold unixWrite
    split <;> exact ⟨rfl, rfl⟩

theorem pairNext_valid {s : UnixPair.State} {call : End × UnixCall}
    (h : ∀ e, Valid (s.ring e)) (hok : PairCall.ok s call) (e : End) :
    Valid ((pairNext s call).ring e) := by
  rcases End.eq_or_eq_peer (call.2.buffer call.1) e with rfl | rfl
  · have hsocket : Valid (s.socket (call.2.buffer call.1)).ring := h _
    have hrun := UnixCall.run_valid hsocket (hok _)
    unfold pairNext State.setSocket
    dsimp only
    rw [Function.update_self]
    exact hrun
  · unfold pairNext State.setSocket
    dsimp only
    rw [Function.update_of_ne (End.peer_ne _)]
    exact h _

theorem pairNext_exact_iff {s : UnixPair.State} {call : End × UnixCall}
    (h : ∀ e, Valid (s.ring e)) (hok : PairCall.ok s call) :
    PairExact (pairNext s call) ↔ PairCall.Settles s call := by
  obtain ⟨hin, hout⟩ := UnixCall.run_frame (s.socket (call.2.buffer call.1)) call.2
  have hself := setSocket_watched_self s (call.2.buffer call.1)
    (call.2.run (s.socket (call.2.buffer call.1)))
  have hpeer := setSocket_watched_peer s (call.2.buffer call.1) _ hin hout
  have hsocket : Valid (s.socket (call.2.buffer call.1)).ring := h _
  have hrun := UnixCall.run_exact_iff hsocket (hok _)
  unfold PairExact PairCall.Settles pairNext
  rw [← hrun, ← hself, ← hpeer]
  constructor
  · exact fun hall => ⟨hall _, hall _⟩
  · rintro ⟨hbuffer, hother⟩ e
    rcases End.eq_or_eq_peer (call.2.buffer call.1) e with rfl | rfl
    · exact hbuffer
    · exact hother

/-! ## `ppoll` -/

/-- A thread that polls an open descriptor, with the bits of the headers. -/
structure Poller where
  H : Descriptors.Headers
  s : Descriptors.State
  p : Nat
  fdnum : Int
  slot : Nat × Descriptors.Descriptor
  opened : Descriptors.openAt s p fdnum = some slot
  pollin : BitVec 16
  pollout : BitVec 16
  pollin_ne : pollin ≠ 0
  pollout_ne : pollout ≠ 0
  disjoint : pollin &&& pollout = 0

/-- `status` of a resource. -/
def Poller.bits (P : Poller) (status : Status) : BitVec 16 :=
  (if status.pollin then P.pollin else 0) ||| (if status.pollout then P.pollout else 0)

/-- The call returns without a wait: how the wait would end does not matter. -/
def Poller.AtOnce (P : Poller) (status : Status) (events : BitVec 16) : Prop :=
  ∃ ret, ∀ wait, Descriptors.syscallPpoll P.H P.s P.p [⟨P.fdnum, events, 0⟩]
    (fun _ => P.bits status) wait = some ret

theorem Poller.fdnum_nonneg (P : Poller) : ¬ P.fdnum < 0 := by
  intro hneg
  have hslot := P.opened
  unfold Descriptors.openAt Descriptors.slotOf at hslot
  rw [if_pos (.inl hneg), Option.bind_none] at hslot
  cases hslot

theorem Poller.fdFromFdnum_eq (P : Poller) :
    Descriptors.fdFromFdnum P.s P.p P.fdnum =
      some (P.slot.2, P.s.ref P.slot.2.description) := by
  unfold Descriptors.fdFromFdnum
  rw [P.opened]
  rfl

theorem Poller.scan_eq (P : Poller) (status events : BitVec 16) :
    Descriptors.ppollScan P.H P.p (fun _ => status) P.s 0 [⟨P.fdnum, events, 0⟩] =
      (P.s.ref P.slot.2.description,
        if status &&& events ≠ 0 then ⟨[⟨P.fdnum, events, status &&& events⟩], 1, []⟩
        else ⟨[⟨P.fdnum, events, 0⟩], 0, [(0, P.slot.2.description)]⟩) := by
  unfold Descriptors.ppollScan
  dsimp only
  rw [if_neg P.fdnum_nonneg, P.fdFromFdnum_eq]
  dsimp only [Descriptors.ppollScan]
  split <;> rfl

theorem Poller.ppoll_eq (P : Poller) (status events : BitVec 16) (wait : Descriptors.Wait) :
    Descriptors.syscallPpoll P.H P.s P.p [⟨P.fdnum, events, 0⟩] (fun _ => status) wait =
      if status &&& events ≠ 0 then
        some ((.value 1, [⟨P.fdnum, events, status &&& events⟩]),
          P.s.ref P.slot.2.description)
      else
        (Descriptors.ppollWait ⟨[⟨P.fdnum, events, 0⟩], 0, [(0, P.slot.2.description)]⟩
          wait).map fun ret =>
            (ret, (P.s.ref P.slot.2.description).unref P.slot.2.description) := by
  have hscan := P.scan_eq status events
  unfold Descriptors.syscallPpoll
  rw [List.length_singleton, if_neg Nat.one_ne_zero,
    if_neg (show ¬ Descriptors.maxPpollFds < 1 by decide), hscan]
  by_cases hready : status &&& events ≠ 0
  · rw [if_pos hready, if_pos hready]
    rfl
  · rw [if_neg hready, if_neg hready]
    rfl

theorem Poller.atOnce_iff (P : Poller) (status : Status) (events : BitVec 16) :
    P.AtOnce status events ↔ P.bits status &&& events ≠ 0 := by
  unfold Poller.AtOnce
  by_cases hready : P.bits status &&& events ≠ 0
  · refine iff_of_true ⟨((.value 1, [⟨P.fdnum, events, P.bits status &&& events⟩]),
      P.s.ref P.slot.2.description), fun wait => ?_⟩ hready
    rw [P.ppoll_eq, if_pos hready]
  · refine iff_of_false ?_ hready
    rintro ⟨ret, hret⟩
    -- the timer and a signal end the wait with different values
    have heq := (hret .timeout).trans (hret .interrupted).symm
    rw [P.ppoll_eq, P.ppoll_eq, if_neg hready, if_neg hready] at heq
    simp [Descriptors.ppollWait] at heq

theorem Poller.pollin_iff (P : Poller) (status : Status) :
    P.AtOnce status P.pollin ↔ status.pollin = true := by
  have hdisjoint : P.pollout &&& P.pollin = 0 := by
    rw [BitVec.and_comm]
    exact P.disjoint
  have hne := P.pollin_ne
  rw [P.atOnce_iff]
  unfold Poller.bits
  rw [BitVec.and_or_distrib_right]
  cases status.pollin <;> cases status.pollout <;> simp_all

theorem Poller.pollout_iff (P : Poller) (status : Status) :
    P.AtOnce status P.pollout ↔ status.pollout = true := by
  have hdisjoint := P.disjoint
  have hne := P.pollout_ne
  rw [P.atOnce_iff]
  unfold Poller.bits
  rw [BitVec.and_or_distrib_right]
  cases status.pollin <;> cases status.pollout <;> simp_all

/-! ## What a call would transfer -/

/-- At least one byte is transferred. -/
def Result.Transfers : Result → Prop
  | .bytes data => data ≠ []
  | .count n => n ≠ 0
  | _ => False

theorem read_ne_nil (h : Valid ring) (hcount : count ≠ 0) (hused : ring.used ≠ 0) :
    (ring.read count).1 ≠ [] := by
  have hlen := congrArg List.length (h.read count).2
  rw [List.length_append, Valid.length_contents, Valid.length_contents, read_used] at hlen
  intro hnil
  rw [hnil, List.length_nil] at hlen
  omega

theorem write_ne_zero (h : Valid ring) (hbuf : buf.length < 2 ^ 63) (hne : buf ≠ [])
    (hfull : ring.used ≠ ring.capacity) : (ring.write buf).1 ≠ 0 := by
  have hle := h.used_le
  have hused : ring.used + (ring.write buf).1 = min (ring.used + buf.length) ring.capacity :=
    h.write_used hbuf
  have hpos := List.length_pos_iff.mpr hne
  omega

theorem pipeRead_transfers_iff {pipe : Pipe} (h : Valid pipe.ring) (hcount : count ≠ 0) :
    (pipeRead pipe true false count).1.Transfers ↔ pipe.ring.used ≠ 0 := by
  unfold pipeRead
  split
  · next hused =>
    rw [if_pos (.inr rfl)]
    exact iff_of_false (not_not_intro rfl) (not_not_intro hused)
  · next hused => exact iff_of_true (read_ne_nil h hcount hused) hused

theorem pipeWrite_transfers_iff {pipe : Pipe} (h : Valid pipe.ring) (hbuf : buf.length < 2 ^ 63)
    (hne : buf ≠ []) (hreader : pipe.readerCount ≠ 0) :
    (pipeWrite pipe false buf).1.Transfers ↔ pipe.ring.used < pipe.ring.capacity := by
  have hle := h.used_le
  unfold pipeWrite
  rw [if_neg hreader]
  split
  · next hfull => exact iff_of_false id (by omega)
  · next hfull => exact iff_of_true (write_ne_zero h hbuf hne hfull) (by omega)

theorem unixRead_transfers_iff {this : UnixSocket} (h : Valid this.ring) (hcount : count ≠ 0) :
    (unixRead this true false count).1.Transfers ↔ this.ring.used ≠ 0 := by
  unfold unixRead
  split
  · next hused => exact iff_of_false id (not_not_intro hused)
  · next hused => exact iff_of_true (read_ne_nil h hcount hused) hused

theorem unixWrite_transfers_iff {peer : UnixSocket} (h : Valid peer.ring)
    (hbuf : buf.length < 2 ^ 63) (hne : buf ≠ []) :
    (unixWrite peer true false buf).1.Transfers ↔ peer.ring.used < peer.ring.capacity := by
  have hle := h.used_le
  unfold unixWrite
  split
  · next hfull => exact iff_of_false id (by omega)
  · next hfull => exact iff_of_true (write_ne_zero h hbuf hne hfull) (by omega)

/-- A `ppoll` for reading returns at once if a read would transfer a byte, and only then, and the
same for writing. -/
structure Poller.Agrees (P : Poller) (status : Status) (read : Nat → Result)
    (write : List Byte → Result) : Prop where
  read : ∀ count, count ≠ 0 → (P.AtOnce status P.pollin ↔ (read count).Transfers)
  write : ∀ buf, buf ≠ [] → buf.length < 2 ^ 63 →
    (P.AtOnce status P.pollout ↔ (write buf).Transfers)

theorem Poller.agrees_iff (P : Poller) {status : Status} {read : Nat → Result}
    {write : List Byte → Result} {readable writable : Prop}
    (hread : ∀ count, count ≠ 0 → ((read count).Transfers ↔ readable))
    (hwrite : ∀ buf, buf ≠ [] → buf.length < 2 ^ 63 → ((write buf).Transfers ↔ writable)) :
    P.Agrees status read write ↔
      (status.pollin = true ↔ readable) ∧ (status.pollout = true ↔ writable) := by
  rw [← P.pollin_iff, ← P.pollout_iff]
  constructor
  · rintro ⟨hin, hout⟩
    exact ⟨(hin 1 (by decide)).trans (hread 1 (by decide)),
      (hout [0] (by decide) (by decide)).trans (hwrite [0] (by decide) (by decide))⟩
  · rintro ⟨hin, hout⟩
    exact ⟨fun count hcount => hin.trans (hread count hcount).symm,
      fun buf hne hlen => hout.trans (hwrite buf hne hlen).symm⟩

/-- What `ppoll` says of a pipe that has a reader. -/
def Poller.PipeAgrees (P : Poller) (pipe : Pipe) : Prop :=
  P.Agrees pipe.status (fun count => (pipeRead pipe true false count).1)
    fun buf => (pipeWrite pipe false buf).1

/-- What `ppoll` says of a socket, which writes to the buffer of its peer. -/
def Poller.SocketAgrees (P : Poller) (s : UnixPair.State) (e : End) : Prop :=
  P.Agrees (s.status e) (fun count => (unixRead (s.socket e) true false count).1)
    fun buf => (unixWrite (s.socket e.peer) true false buf).1

theorem exact_iff_pipeAgrees (P : Poller) {pipe : Pipe} (h : Valid pipe.ring)
    (hreader : pipe.readerCount ≠ 0) : pipe.watched.Exact ↔ P.PipeAgrees pipe := by
  unfold Poller.PipeAgrees
  rw [P.agrees_iff (fun count hcount => pipeRead_transfers_iff h hcount)
    fun buf hne hlen => pipeWrite_transfers_iff h hlen hne hreader]
  exact ⟨fun hexact => ⟨hexact.pollin, hexact.pollout⟩, fun hexact => ⟨hexact.1, hexact.2⟩⟩

theorem pairExact_iff_socketAgrees (P : Poller) {s : UnixPair.State} (h : ∀ e, Valid (s.ring e)) :
    PairExact s ↔ ∀ e, P.SocketAgrees s e := by
  have hagrees : ∀ e, P.SocketAgrees s e ↔
      ((s.status e).pollin = true ↔ (s.ring e).used ≠ 0) ∧
        ((s.status e).pollout = true ↔ (s.ring e.peer).used < (s.ring e.peer).capacity) := by
    intro e
    have hown : Valid (s.socket e).ring := h e
    have hpeer : Valid (s.socket e.peer).ring := h e.peer
    exact P.agrees_iff (fun count hcount => unixRead_transfers_iff hown hcount)
      fun buf hne hlen => unixWrite_transfers_iff hpeer hlen hne
  constructor
  · intro hexact e
    refine (hagrees e).mpr ⟨(hexact e).pollin, ?_⟩
    have hpeer := (hexact e.peer).pollout
    dsimp only [UnixPair.State.socket, UnixSocket.watched] at hpeer
    rw [End.peer_peer] at hpeer
    exact hpeer
  · intro hall e
    refine ⟨((hagrees e).mp (hall e)).1, ?_⟩
    have hpeer := ((hagrees e.peer).mp (hall e.peer)).2
    rw [End.peer_peer] at hpeer
    exact hpeer

/-! ## Runs -/

theorem pipe_reach_kept {s : Log Pipe}
    (hr : Reach (fun s call s' => pipeNext s call = s') (fun s call => PipeCall.ok s call)
      ⟨pipeCreate, [], []⟩ s) : Valid s.obj.ring ∧ s.obj.watched.Kept := by
  have hinv := hr.invariant
    (I := fun s => Fifo s.obj.ring s.accepted s.out ∧ s.obj.watched.Kept)
    ⟨⟨⟨by decide, by decide, rfl, by decide⟩, rfl⟩, ⟨fun hused => absurd rfl hused, fun _ => rfl⟩⟩
    (by
      rintro s call _ ⟨hfifo, hkept⟩ hok rfl
      exact ⟨pipeNext_fifo hfifo hok, pipeNext_kept hfifo.valid hkept hok⟩)
  exact ⟨hinv.1.valid, hinv.2⟩

theorem socketCreateUnix_valid : Valid socketCreateUnix.ring :=
  ⟨by decide, by decide, rfl, by decide⟩

theorem pair_reach_valid {pending : Nat → Nat} {status : End → Status} {s : UnixPair.State}
    (hr : Reach (fun s call s' => pairNext s call = s') PairCall.ok (start pending status) s) :
    ∀ e, Valid (s.ring e) := by
  refine hr.invariant (I := fun s => ∀ e, Valid (s.ring e)) ?_ ?_
  · exact fun _ => socketCreateUnix_valid
  · rintro s call _ h hok rfl
    exact pairNext_valid h hok

theorem pairExact_start_iff (pending : Nat → Nat) (status : End → Status) :
    PairExact (start pending status) ↔
      ∀ e, (status e).pollin = false ∧ (status e).pollout = true := by
  have hroom : socketCreateUnix.ring.used < socketCreateUnix.ring.capacity := by decide
  constructor
  · intro hexact e
    have hin := (hexact e).pollin
    have hout := (hexact e.peer).pollout
    dsimp only [start, UnixPair.State.socket, UnixSocket.watched] at hin hout
    rw [End.peer_peer] at hout
    exact ⟨Bool.eq_false_of_not_eq_true fun hset => hin.mp hset rfl, hout.mpr hroom⟩
  · intro hall e
    refine ⟨iff_of_false ?_ (not_not_intro rfl), iff_of_true (hall e.peer).2 hroom⟩
    exact Bool.eq_false_iff.mp (hall e).1

/-- **When the poll status is exact.** It is not for a new pipe. In every run, the status is exact
after a call exactly if the call settles it, and where it is exact, `ppoll` returns at once exactly
if the call would transfer a byte. -/
theorem poll_status_iff (P : Poller) :
    (¬ pipeCreate.watched.Exact ∧
      ∀ s, Reach (fun s call s' => pipeNext s call = s') (fun s call => PipeCall.ok s call)
          ⟨pipeCreate, [], []⟩ s →
        (∀ call, PipeCall.ok s call →
          ((pipeNext s call).obj.watched.Exact ↔ call.Settles s.obj)) ∧
        (s.obj.readerCount ≠ 0 → (s.obj.watched.Exact ↔ P.PipeAgrees s.obj))) ∧
    ∀ pending status,
      (PairExact (start pending status) ↔
        ∀ e, (status e).pollin = false ∧ (status e).pollout = true) ∧
      ∀ s, Reach (fun s call s' => pairNext s call = s') PairCall.ok (start pending status) s →
        (∀ call, PairCall.ok s call →
          (PairExact (pairNext s call) ↔ PairCall.Settles s call)) ∧
        (PairExact s ↔ ∀ e, P.SocketAgrees s e) := by
  refine ⟨⟨?_, fun s hr => ⟨fun call hok => ?_, fun hreader => ?_⟩⟩,
    fun pending status => ⟨pairExact_start_iff pending status, fun s hr => ⟨fun call hok => ?_, ?_⟩⟩⟩
  · rintro ⟨-, hout⟩
    exact Bool.false_ne_true (hout.mpr (by decide))
  · obtain ⟨hvalid, hkept⟩ := pipe_reach_kept hr
    exact pipeNext_exact_iff hvalid hkept hok
  · exact exact_iff_pipeAgrees P (pipe_reach_kept hr).1 hreader
  · exact pairNext_exact_iff (pair_reach_valid hr) hok
  · exact pairExact_iff_socketAgrees P (pair_reach_valid hr)

/-- One descriptor is open, for a resource at address 0. -/
def samplePoller : Poller where
  H := ⟨1, 2, 1, 2, 0, 0x20, by decide⟩
  s := ⟨{0}, fun i => if i = (0, 3) then some ⟨7, 0⟩ else none, fun _ => ⟨1, 0, 0, 0⟩, fun _ => true⟩
  p := 0
  fdnum := 3
  slot := (3, ⟨7, 0⟩)
  opened := by decide
  pollin := 1
  pollout := 4
  pollin_ne := by decide
  pollout_ne := by decide
  disjoint := by decide

/-- A pipe with a reader holds two bytes, and a read of one byte settles its status. Of a pair from
`socketpair`, one socket writes a byte. -/
theorem poll_status_sample :
    (pipeNext ([.ref false, .write false [1, 2]].foldl pipeNext ⟨pipeCreate, [], []⟩)
        (.read true false 1)).obj.watched.Exact ∧
      ∀ e, samplePoller.SocketAgrees
        (pairNext (start (fun _ => 0) fun _ => ⟨false, true⟩) (.a, .write true false [1])) e := by
  have hpipe : Reach (fun s call s' => pipeNext s call = s') (fun s call => PipeCall.ok s call)
      ⟨pipeCreate, [], []⟩
      ([.ref false, .write false [1, 2]].foldl pipeNext ⟨pipeCreate, [], []⟩) :=
    (Reach.refl.tail (a := .ref false) trivial rfl).tail (a := .write false [1, 2])
      (by simp [PipeCall.ok]) rfl
  have hok : PairCall.ok (start (fun _ => 0) fun _ => ⟨false, true⟩) (.a, .write true false [1]) :=
    fun _ => by simp [UnixCall.ok]
  have hpair := (poll_status_iff samplePoller).2 (fun _ => 0) fun _ => ⟨false, true⟩
  refine ⟨(((poll_status_iff samplePoller).1.2 _ hpipe).1 _ (by simp [PipeCall.ok])).mpr
    (.inl (by decide +kernel)), ?_⟩
  refine ((hpair.2 _ (Reach.refl.tail hok rfl)).2).mp ?_
  refine ((hpair.2 _ .refl).1 _ hok).mpr ⟨?_, (hpair.1.mpr fun _ => ⟨rfl, rfl⟩) _⟩
  dsimp only [UnixCall.Settles]
  rw [if_neg (by decide)]
  exact ⟨.inr (by simp), by decide⟩

/-- A byte is written to a new pipe, which still has room and no `POLLOUT`. One socket writes two
bytes, and the other one reads the first: `POLLIN` is gone, and the second is there. -/
theorem poll_status_slips :
    (∃ s, Reach (fun s call s' => pipeNext s call = s') (fun s call => PipeCall.ok s call)
      ⟨pipeCreate, [], []⟩ s ∧ ¬ s.obj.watched.Exact) ∧
    ∃ s, Reach (fun s call s' => pairNext s call = s') PairCall.ok
      (start (fun _ => 0) fun _ => ⟨false, true⟩) s ∧ ¬ PairExact s := by
  constructor
  · refine ⟨_, (Reach.refl.tail (a := .ref false) trivial rfl).tail (a := .write false [1])
      (by simp [PipeCall.ok]) rfl, ?_⟩
    rintro ⟨-, hout⟩
    exact absurd (hout.mpr (by decide +kernel)) (by decide +kernel)
  · refine ⟨_, (Reach.refl.tail (a := (.a, .write true false [1, 2]))
      (fun _ => by simp [UnixCall.ok]) rfl).tail (a := (.b, .read true false 1))
      (fun _ => by simp [UnixCall.ok]) rfl, ?_⟩
    intro hexact
    have hin := (hexact .b).pollin
    exact absurd (hin.mpr (by decide +kernel)) (by decide +kernel)

end Lyre.Pipes
