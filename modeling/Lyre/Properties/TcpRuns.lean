import Lyre.Infra.Run
import Lyre.Ipc.TcpCalls
import Lyre.Properties.Tcp

/-!
# Runs of a connection

Segments arrive, the process reads, and rounds of `tcp_write` and `tcp_sendmsg` send. `Conn` is a
socket with the bytes that `tcp_read` and `tcp_recvmsg` have returned.

A segment that is taken is appended whatever its sequence number says. So what is read is a
beginning of the stream of the sender if segments are taken in order (`read_prefix`), and otherwise
it need not be (`read_misplaced`).
-/

namespace Lyre.Tcp

open Infra

structure Conn where
  sock : Socket
  /-- What has been read. -/
  out : List Byte
  deriving DecidableEq, Repr

inductive Call where
  /-- A segment arrives; `off` is the place of its data in the stream of the sender. -/
  | segment (env : Env) (src dest : BitVec 32) (buf : Nat → Byte) (length off : Nat)
  | read (nonblock : Bool) (count : Nat)
  | recvmsg (nonblock dontwait named : Bool) (lens : List Nat)
  /-- A round of the loop in `tcp_write` or `tcp_sendmsg`. -/
  | send (now mtuSeg : Nat) (rest : List Byte)
  | close (now : Nat)

/-- The bytes of a result. -/
def Result.data : Result → List Byte
  | .bytes data => data
  | .error _ => []
  | .wait => []

def Conn.add (s : Conn) (r : Result × Socket) : Conn := ⟨r.2, s.out ++ r.1.data⟩

/-- The states in which data is sent. -/
def sending (this : Socket) : Bool :=
  this.state = .connected && (this.tcpstate = .established || this.tcpstate = .closewait)

def next (s : Conn) : Call → Conn
  | .segment env src dest buf length _ =>
    { s with sock := (tcpNetpacket env s.sock src dest buf length).this }
  | .read nonblock count => s.add (tcpRead s.sock nonblock count)
  | .recvmsg nonblock dontwait named lens => s.add (tcpRecvmsg s.sock nonblock dontwait named lens)
  | .send now mtuSeg rest =>
    match sendRound { this := s.sock } now mtuSeg rest with
    | some c => if sending s.sock then { s with sock := c.this } else s
    | none => s
  | .close now => { s with sock := (tcpClose { this := s.sock } now).2.this }

def Steps (s : Conn) (call : Call) (s' : Conn) : Prop := next s call = s'

variable {s s' : Conn} {call : Call} {stream : List Byte} {isn : BitVec 32} {sock : Socket}

/-! ## Streams -/

/-- The data of the packet is the part of the stream from `off` on, and the stream begins with the
sequence number `isn`. -/
def Carries (stream : List Byte) (isn : BitVec 32) (packet : Packet) (off : Nat) : Prop :=
  off + packet.len ≤ stream.length ∧ packet.data = (stream.drop off).take packet.len ∧
    packet.seq = isn + BitVec.ofNat 32 off

instance {packet : Packet} {off : Nat} : Decidable (Carries stream isn packet off) :=
  inferInstanceAs (Decidable (_ ∧ _))

/-- Segments come from the sender of the stream. -/
def FromSender (stream : List Byte) (isn : BitVec 32) (_ : Conn) : Call → Prop
  | .segment _ _ _ buf length off => Carries stream isn (loadPacket buf length) off
  | _ => True

instance (s : Conn) : ∀ call, Decidable (FromSender stream isn s call)
  | .segment .. => inferInstanceAs (Decidable (Carries ..))
  | .read .. | .recvmsg .. | .send .. | .close _ => inferInstanceAs (Decidable True)

/-- A segment that is taken begins where what has been received ends. -/
def InOrder (s : Conn) : Call → Prop
  | .segment env _ _ buf length off =>
    (s.sock.adapter.or env.route).isSome → taken s.sock (loadPacket buf length) →
      off = s.out.length + s.sock.rcvbuf.pos
  | _ => True

instance (s : Conn) : ∀ call, Decidable (InOrder s call)
  | .segment .. => inferInstanceAs (Decidable (_ → _ → _))
  | .read .. | .recvmsg .. | .send .. | .close _ => inferInstanceAs (Decidable True)

/-- The connection is established, and nothing has been received. -/
structure Established (isn : BitVec 32) (sock : Socket) : Prop where
  state : sock.state = .connected
  tcpstate : sock.tcpstate = .established
  rcvnxt : sock.rcvnxt = isn
  rcvbuf : sock.rcvbuf.buf = []

/-! ## Reading -/

theorem tcpStreamread_eq {stream : Stream} {n : Nat} (h : n ≤ stream.pos) :
    tcpStreamread stream n = (stream.buf.take n, { stream with buf := stream.buf.drop n }) := by
  unfold tcpStreamread
  rw [if_neg (Nat.not_lt.mpr h)]

theorem takeBytes_eq (this : Socket) (count : Nat) : ∃ n ≤ this.rcvbuf.pos, n ≤ count ∧ ∃ status,
    takeBytes this count = (this.rcvbuf.buf.take n,
      { this with
        rcvwnd := this.rcvwnd + BitVec.ofNat 32 n
        rcvbuf := { this.rcvbuf with buf := this.rcvbuf.buf.drop n }
        status }) := by
  unfold takeBytes
  dsimp only
  have hn : (if this.rcvbuf.pos < count then this.rcvbuf.pos else count) ≤ this.rcvbuf.pos ∧
      (if this.rcvbuf.pos < count then this.rcvbuf.pos else count) ≤ count := by
    split <;> omega
  generalize (if this.rcvbuf.pos < count then this.rcvbuf.pos else count) = n at hn ⊢
  rw [tcpStreamread_eq hn.1]
  refine ⟨n, hn.1, hn.2, ?_⟩
  split
  · exact ⟨_, rfl⟩
  · exact ⟨_, rfl⟩

theorem checkRead_data {empty r : Result} (h : checkRead sock empty = some r)
    (he : empty.data = []) : r.data = [] := by
  unfold checkRead at h
  cases hst : sock.tcpstate <;> cases hev : sock.eventstate <;> rw [hst, hev] at h <;>
    dsimp only at h <;> first | (split at h <;> cases h <;> first | exact he | rfl) | (cases h; rfl)

/-- What is read leaves the buffer at its front. -/
def ReadsFront (sock : Socket) (r : Result × Socket) : Prop :=
  r.1.data ++ r.2.rcvbuf.buf = sock.rcvbuf.buf

theorem tcpRead_front (sock : Socket) (nonblock : Bool) (count : Nat) :
    ReadsFront sock (tcpRead sock nonblock count) := by
  unfold ReadsFront tcpRead
  split
  · rfl
  · split
    · next r hr =>
      rw [checkRead_data hr (by split <;> rfl)]
      rfl
    · obtain ⟨n, -, -, status, h⟩ := takeBytes_eq sock count
      dsimp only
      rw [h]
      exact List.take_append_drop _ _

theorem tcpRecvmsg_front (sock : Socket) (nonblock dontwait named : Bool) (lens : List Nat) :
    ReadsFront sock (tcpRecvmsg sock nonblock dontwait named lens) := by
  unfold ReadsFront tcpRecvmsg
  split
  · rfl
  · dsimp only
    split
    · next r hr =>
      rw [checkRead_data hr (by repeat' (first | rfl | split))]
      rfl
    · obtain ⟨n, -, hn, status, h⟩ := takeBytes_eq sock (lens.sum % 2 ^ 64)
      have hlen : (sock.rcvbuf.buf.take n).length ≤ lens.sum := by
        rw [List.length_take]
        have := Nat.mod_le lens.sum (2 ^ 64)
        omega
      dsimp only
      rw [h]
      dsimp only [Result.data]
      rw [scatter_flatten hlen]
      exact List.take_append_drop _ _

/-! ## What is read is a beginning of the stream -/

theorem prefix_append_slice {l : List Byte} {n : Nat} (h : l <+: stream) :
    l ++ (stream.drop l.length).take n <+: stream := by
  obtain ⟨rest, rfl⟩ := h
  rw [List.drop_left]
  exact (List.prefix_append_right_inj l).mpr (List.take_prefix n rest)

theorem ReadsFront.add {r : Result × Socket} (hr : ReadsFront s.sock r)
    (h : s.out ++ s.sock.rcvbuf.buf <+: stream) :
    (s.add r).out ++ (s.add r).sock.rcvbuf.buf <+: stream := by
  unfold ReadsFront at hr
  unfold Conn.add
  rw [List.append_assoc, hr]
  exact h

theorem next_prefix (h : s.out ++ s.sock.rcvbuf.buf <+: stream)
    (hfrom : FromSender stream isn s call) (hin : InOrder s call) (hs : Steps s call s') :
    s'.out ++ s'.sock.rcvbuf.buf <+: stream := by
  obtain rfl := hs
  cases call with
  | segment env src dest buf length off =>
    change s.out ++ (tcpNetpacket env s.sock src dest buf length).this.rcvbuf.buf <+: stream
    rw [tcpNetpacket_rcvbuf]
    split
    · next hadapter =>
      unfold received
      split
      · next htaken =>
        have hoff : off = (s.out ++ s.sock.rcvbuf.buf).length := by
          rw [List.length_append]
          exact hin hadapter htaken
        obtain ⟨-, hdata, -⟩ := hfrom
        rw [hdata, hoff, ← List.append_assoc]
        exact prefix_append_slice h
      · exact h
    · exact h
  | read nonblock count => exact (tcpRead_front s.sock nonblock count).add h
  | recvmsg nonblock dontwait named lens =>
    exact (tcpRecvmsg_front s.sock nonblock dontwait named lens).add h
  | send now mtuSeg rest =>
    rw [next]
    split
    · next c hc =>
      have hbuf : c.this.rcvbuf = s.sock.rcvbuf := (keeps_sendRound hc).rcvbuf
      split
      · rw [hbuf]
        exact h
      · exact h
    · exact h
  | close now =>
    change s.out ++ (tcpClose { this := s.sock } now).2.this.rcvbuf.buf <+: stream
    rw [(keeps_tcpClose _ now).rcvbuf]
    exact h

/--
**What is read is a beginning of the stream of the sender**, if every segment that is taken begins
where what has been received ends.
-/
theorem read_prefix (h₀ : Established isn sock)
    (hr : Reach Steps (fun s a => FromSender stream isn s a ∧ InOrder s a) ⟨sock, []⟩ s) :
    s.out <+: stream := by
  have hinv : s.out ++ s.sock.rcvbuf.buf <+: stream := by
    refine hr.invariant (I := fun s => s.out ++ s.sock.rcvbuf.buf <+: stream) ?_
      fun _ _ _ h hok hs => next_prefix h hok.1 hok.2 hs
    rw [h₀.rcvbuf]
    exact List.nil_prefix
  exact (List.prefix_append _ _).trans hinv

/-- A socket that is connected, and waits for the byte with the sequence number 1000. -/
def sampleSock : Socket :=
  { socketCreateTcp with
    state := .connected
    tcpstate := .established
    adapter := some 0
    rcvnxt := 1000
    rcvwnd := 0xffff }

def sampleStream : List Byte := [97, 98, 99, 100]

/-- A segment with `ACK`, the two last bytes of its sequence number, and data. -/
def sampleSegment (seq : Nat) (data : List Byte) (k : Nat) : Byte :=
  ([0, 80, 0, 81, 0, 0, BitVec.ofNat 8 (seq / 256), BitVec.ofNat 8 seq, 0, 0, 0, 0, 0x50, 0x10, 0,
    1, 0, 0, 0, 0] ++ data).getD k 0

def sampleEnv : Env := ⟨0, 0, none, fun _ => 0, 0⟩

/-- Two bytes of the stream arrive. -/
def sampleCall (off : Nat) : Call :=
  .segment sampleEnv 0 0 (sampleSegment (1000 + off) ((sampleStream.drop off).take 2)) 2 off

theorem sampleSock_established : Established 1000 sampleSock := ⟨rfl, rfl, rfl, rfl⟩

theorem reach_of_calls {ok : Conn → Call → Prop} [∀ s a, Decidable (ok s a)] {s₀ : Conn}
    {calls : List Call}
    (h : runIf (fun s a => some (next s a)) (fun s a => decide (ok s a)) calls s₀ = some s) :
    Reach Steps ok s₀ s :=
  ((Reach.of_runIf .refl h).imp_step fun _ _ _ => Option.some.inj).mono
    fun _ _ => of_decide_eq_true

/-- The two halves of the stream arrive, the first one once more, and the process reads. -/
theorem read_prefix_sample : ∃ s,
    Reach Steps (fun s a => FromSender sampleStream 1000 s a ∧ InOrder s a) ⟨sampleSock, []⟩ s ∧
    s.out = sampleStream ∧ s.out <+: sampleStream := by
  have hrun : (runIf (fun s a => some (next s a))
      (fun s a => decide (FromSender sampleStream 1000 s a ∧ InOrder s a))
      [sampleCall 0, sampleCall 2, sampleCall 0, .read true 3, .recvmsg true true false [1, 8]]
      ⟨sampleSock, []⟩).map (·.out) = some sampleStream := by decide +kernel
  obtain ⟨s, hs, hout⟩ := Option.map_eq_some_iff.mp hrun
  have hreach := reach_of_calls hs
  exact ⟨s, hreach, hout, read_prefix sampleSock_established hreach⟩

/-- The second half of the stream overtakes the first one, and is read in its place. -/
theorem read_misplaced : ¬ ∀ (stream : List Byte) (isn : BitVec 32) (sock : Socket) (s : Conn),
    Established isn sock → Reach Steps (FromSender stream isn) ⟨sock, []⟩ s →
    s.out <+: stream := by
  intro hall
  have hrun : (runIf (fun s a => some (next s a))
      (fun s a => decide (FromSender sampleStream 1000 s a)) [sampleCall 2, .read true 9]
      ⟨sampleSock, []⟩).map (·.out) = some [99, 100] := by decide +kernel
  obtain ⟨s, hs, hout⟩ := Option.map_eq_some_iff.mp hrun
  have hpre := hall sampleStream 1000 sampleSock s sampleSock_established (reach_of_calls hs)
  rw [hout] at hpre
  revert hpre
  decide

end Lyre.Tcp

/-!
## The states of a connection

`Event` is what can happen to a socket that has been opened: a segment arrives, the timer looks at
it, a thread that waits in `tcp_connect` is woken up, and the process reads, writes and closes.

A segment passes through all of `tcp_netpacket`, where each part may change the state. Since every
part goes forward in the graph of RFC 793 or closes the connection, so does the whole
(`tcpstate_step`).
-/

namespace Lyre.Tcp

open Relation

variable {c c' : Ctx} {this : Socket} {now : Nat}

inductive Event where
  | segment (env : Env) (src dest : BitVec 32) (buf : Nat → Byte) (length : Nat)
  | close (now : Nat)
  | timer (now : Nat) (route : Option Nat) (connecttimeout : Nat)
  /-- The thread in `tcp_connect` is woken up. -/
  | woken (now : Nat)
  | read (nonblock : Bool) (count : Nat)
  | recvmsg (nonblock dontwait named : Bool) (lens : List Nat)
  /-- A round of the loop in `tcp_write` or `tcp_sendmsg`. -/
  | send (now mtuSeg : Nat) (rest : List Byte)

/-- The socket afterwards, and what is sent. -/
def handle (this : Socket) : Event → Ctx
  | .segment env src dest buf length => tcpNetpacket env this src dest buf length
  | .close now => (tcpClose { this } now).2
  | .timer now route connecttimeout => tcpTimer { this } now route connecttimeout
  | .woken now => (connectWoken { this } now).2
  | .read nonblock count => { this := (tcpRead this nonblock count).2 }
  | .recvmsg nonblock dontwait named lens =>
    { this := (tcpRecvmsg this nonblock dontwait named lens).2 }
  | .send now mtuSeg rest =>
    if sending this then (sendRound { this } now mtuSeg rest).getD { this } else { this }

/-! ## Timers, and sending -/

theorem keeps_tcpQueueemit (c : Ctx) (now : Nat) (route : Option Nat) (entry : RetransmitEntry) :
    Keeps c (tcpQueueemit c now route entry).2 := by
  unfold tcpQueueemit
  split
  · exact .refl c
  · split
    · exact .refl c
    · split
      · exact .of_this rfl rfl rfl (.closed _)
      · split
        · exact ⟨rfl, rfl, .inl rfl, .refl _, .one (.inr rfl), rfl⟩
        · exact .refl c

theorem keeps_queueemitLoop (now : Nat) (route : Option Nat) (entries : List RetransmitEntry)
    (c : Ctx) : Keeps c (queueemitLoop now route entries c).2 := by
  induction entries generalizing c with
  | nil => exact .refl c
  | cons entry entries ih => exact (keeps_tcpQueueemit c now route entry).trans (ih _)

theorem keeps_tcpTimer (c : Ctx) (now : Nat) (route : Option Nat) (connecttimeout : Nat) :
    Keeps c (tcpTimer c now route connecttimeout) := by
  unfold tcpTimer
  split
  · exact (frame_closing c now).toKeeps
  · split
    · exact .refl c
    · unfold tcpRetransmitall
      split
      · exact .refl c
      · exact (keeps_queueemitLoop now route c.this.retransmitqueue c).trans
          (.of_this rfl rfl rfl (.refl _))

theorem keeps_connectWoken (c : Ctx) (now : Nat) : Keeps c (connectWoken c now).2 := by
  unfold connectWoken
  split
  · exact .of_this rfl rfl rfl (.refl _)
  · exact .refl c
  · exact (frame_closing c now).toKeeps

theorem keeps_send (this : Socket) (now mtuSeg : Nat) (rest : List Byte) :
    Keeps { this } (handle this (.send now mtuSeg rest)) := by
  rw [handle]
  split
  · cases h : sendRound { this } now mtuSeg rest with
    | none => exact .refl _
    | some c => exact keeps_sendRound h
  · exact .refl _

/-! ## Reading -/

/-- Bytes are taken out of the buffer, and the window grows by as many. -/
def Drained (this this' : Socket) : Prop :=
  ∃ n ≤ this.rcvbuf.pos, ∃ status, this' =
    { this with
      rcvwnd := this.rcvwnd + BitVec.ofNat 32 n
      rcvbuf := { this.rcvbuf with buf := this.rcvbuf.buf.drop n }
      status }

theorem Drained.refl (this : Socket) : Drained this this := by
  refine ⟨0, Nat.zero_le _, this.status, ?_⟩
  rw [List.drop_zero, BitVec.add_zero]

theorem drained_takeBytes (this : Socket) (count : Nat) : Drained this (takeBytes this count).2 := by
  obtain ⟨n, hn, -, status, h⟩ := takeBytes_eq this count
  exact ⟨n, hn, status, congrArg Prod.snd h⟩

theorem drained_tcpRead (this : Socket) (nonblock : Bool) (count : Nat) :
    Drained this (tcpRead this nonblock count).2 := by
  unfold tcpRead
  split
  · exact .refl this
  · split
    · exact .refl this
    · exact drained_takeBytes this count

theorem drained_tcpRecvmsg (this : Socket) (nonblock dontwait named : Bool) (lens : List Nat) :
    Drained this (tcpRecvmsg this nonblock dontwait named lens).2 := by
  unfold tcpRecvmsg
  split
  · exact .refl this
  · dsimp only
    split
    · exact .refl this
    · exact drained_takeBytes this _

theorem Drained.tcpstate {this' : Socket} (h : Drained this this') :
    this'.tcpstate = this.tcpstate := by
  obtain ⟨n, -, status, rfl⟩ := h
  rfl

/-! ## The states -/

theorem moves_tcpNetpacket (env : Env) (this : Socket) (src dest : BitVec 32) (buf : Nat → Byte)
    (length : Nat) :
    Moves this.tcpstate (tcpNetpacket env this src dest buf length).this.tcpstate := by
  by_cases h : this.tcpstate = .listen
  · rw [h, tcpNetpacket_listen env src dest buf length h]
    exact .refl _
  · have hframe := (frame_tcpNetpacket env src dest buf length h).moves
    split at hframe <;> exact hframe

/-- **The state goes forward, or the connection is aborted.** -/
theorem moves_handle (this : Socket) (event : Event) :
    Moves this.tcpstate (handle this event).this.tcpstate := by
  cases event with
  | segment env src dest buf length => exact moves_tcpNetpacket env this src dest buf length
  | close now => exact (keeps_tcpClose { this } now).moves
  | timer now route connecttimeout => exact (keeps_tcpTimer { this } now route connecttimeout).moves
  | woken now => exact (keeps_connectWoken { this } now).moves
  | read nonblock count => exact .of_eq (drained_tcpRead this nonblock count).tcpstate
  | recvmsg nonblock dontwait named lens =>
    exact .of_eq (drained_tcpRecvmsg this nonblock dontwait named lens).tcpstate
  | send now mtuSeg rest => exact (keeps_send this now mtuSeg rest).moves

/--
**Every step takes a path in the graph of RFC 793**, in which there is an edge from each state to
`CLOSED`. A connection that is being closed is not opened again, and a segment does not end
listening.
-/
theorem tcpstate_step (this : Socket) (event : Event) :
    ReflTransGen (fun a b => Rfc793 a b ∨ b = .closed) this.tcpstate
        (handle this event).this.tcpstate ∧
      (closingState this.tcpstate → (handle this event).this.tcpstate ≠ .established ∧
        (handle this event).this.tcpstate ≠ .synrecv) ∧
      ∀ env src dest buf length, this.tcpstate = .listen →
        (tcpNetpacket env this src dest buf length).this.tcpstate = .listen := by
  have hmoves := moves_handle this event
  refine ⟨hmoves.path, fun hclosing => ?_, fun env src dest buf length h => ?_⟩
  · rcases hmoves.closing hclosing with hst | hst
    · constructor <;> intro heq <;> rw [heq] at hst <;> cases hst
    · rw [hst]
      decide
  · exact tcpNetpacket_listen env src dest buf length h

end Lyre.Tcp
