import Lyre.Ipc.TcpReceive
import Mathlib.Logic.Relation

/-!
# What the parts of `tcp_netpacket` leave alone

`Keeps c c'` says what nearly all of `tcp.c` has in common: the receive buffer and the window stay
as they are, a window for sending comes from a segment, the state goes forward in the graph of
RFC 793 or to `CLOSED`, and what is sent announces the window. A `Frame` also leaves the number of
the next byte to be sent alone.

All parts of `tcp_netpacket` are frames but `receiveData`.
-/

namespace Lyre.Tcp

open Relation

variable {env : Env} {c c' c'' : Ctx} {this : Socket} {packet : Packet} {now : Nat}

/-! ## The graph of the states -/

/-- The edges of the connection state diagram of RFC 793. -/
inductive Rfc793 : TcpState → TcpState → Prop
  | passiveOpen : Rfc793 .closed .listen
  | activeOpen : Rfc793 .closed .synsent
  | listenClose : Rfc793 .listen .closed
  | listenSyn : Rfc793 .listen .synrecv
  | listenSend : Rfc793 .listen .synsent
  | synsentClose : Rfc793 .synsent .closed
  | synsentSyn : Rfc793 .synsent .synrecv
  | synsentSynack : Rfc793 .synsent .established
  | synrecvAck : Rfc793 .synrecv .established
  | synrecvClose : Rfc793 .synrecv .finwait1
  | establishedClose : Rfc793 .established .finwait1
  | establishedFin : Rfc793 .established .closewait
  | finwait1Ack : Rfc793 .finwait1 .finwait2
  | finwait1Fin : Rfc793 .finwait1 .closing
  | closewaitClose : Rfc793 .closewait .lastack
  | finwait2Fin : Rfc793 .finwait2 .timewait
  | closingAck : Rfc793 .closing .timewait
  | lastackAck : Rfc793 .lastack .closed
  | timewaitTimeout : Rfc793 .timewait .closed

/-- An edge by which a connection goes on; no connection is opened. -/
def Forward (a b : TcpState) : Prop := Rfc793 a b ∧ a ≠ .closed

/-- The state goes forward, or the connection is aborted. -/
def Moves (a b : TcpState) : Prop := b = .closed ∨ ReflTransGen Forward a b

theorem Moves.refl (a : TcpState) : Moves a a := .inr .refl

theorem Moves.of_eq {a b : TcpState} (h : b = a) : Moves a b := h ▸ .refl a

theorem Moves.closed (a : TcpState) : Moves a .closed := .inl rfl

theorem Moves.edge {a b : TcpState} (h : Rfc793 a b) (ha : a ≠ .closed) : Moves a b :=
  .inr (.single ⟨h, ha⟩)

theorem forward_closed {b : TcpState} (h : ReflTransGen Forward .closed b) : b = .closed := by
  rcases h.cases_head with h | ⟨c, hc, -⟩
  · exact h.symm
  · exact absurd rfl hc.2

theorem Moves.trans {a b c : TcpState} (h : Moves a b) (h' : Moves b c) : Moves a c := by
  rcases h' with rfl | h'
  · exact .closed a
  · rcases h with rfl | h
    · exact .inl (forward_closed h')
    · exact .inr (h.trans h')

/-- What `Forward` keeps, `Moves` keeps. -/
theorem Moves.keeps {P : TcpState → Prop} (hclosed : P .closed)
    (hstep : ∀ a b, P a → Forward a b → P b) {a b : TcpState} (h : Moves a b) (ha : P a) : P b := by
  rcases h with rfl | h
  · exact hclosed
  · induction h with
    | refl => exact ha
    | tail _ hs ih => exact hstep _ _ ih hs

/-- The states in which one side has closed the connection. -/
def closingState : TcpState → Bool
  | .closewait | .finwait1 | .finwait2 | .closing | .lastack | .timewait => true
  | _ => false

theorem Moves.closing {a b : TcpState} (h : Moves a b) (ha : closingState a = true) :
    closingState b = true ∨ b = .closed := by
  refine h.keeps (P := fun b => closingState b = true ∨ b = .closed) (.inr rfl) ?_ (.inl ha)
  rintro a b (ha | rfl) ⟨hab, hne⟩
  · cases hab <;> first | exact .inl rfl | exact .inr rfl | cases ha
  · exact absurd rfl hne

theorem Moves.ne_listen {a b : TcpState} (h : Moves a b) (ha : a ≠ .listen) : b ≠ .listen := by
  refine h.keeps (P := (· ≠ .listen)) (by decide) ?_ ha
  rintro a b ha ⟨hab, hne⟩
  cases hab <;> first | decide | exact absurd rfl hne

/-- The path in the whole graph, with an edge from every state to `CLOSED`. -/
theorem Moves.path {a b : TcpState} (h : Moves a b) :
    ReflTransGen (fun a b => Rfc793 a b ∨ b = .closed) a b := by
  rcases h with rfl | h
  · exact .single (.inr rfl)
  · exact ReflTransGen.mono (fun _ _ hab => Or.inl hab.1) _ _ h

/-! ## Frames -/

/-- A segment that resets a connection, sent for no socket. -/
def resetSegment (seq : BitVec 32) : Segment := ⟨seq, 0, { rst := true }, 0, []⟩

/-- The window of the segment is the one given, if the segment is sent for a socket at all. -/
def Announces (rcvwnd : BitVec 32) (seg : Segment) : Prop :=
  (∃ seq, seg = resetSegment seq) ∨ seg.window = rcvwnd.setWidth 16

/-- Segments that announce the window are sent. -/
def Answers (rcvwnd : BitVec 32) (sent sent' : List Segment) : Prop :=
  ∃ segs, sent' = sent ++ segs ∧ ∀ seg ∈ segs, Announces rcvwnd seg

theorem Answers.refl (rcvwnd : BitVec 32) (sent : List Segment) : Answers rcvwnd sent sent :=
  ⟨[], (List.append_nil sent).symm, fun _ h => absurd h List.not_mem_nil⟩

theorem Answers.one {rcvwnd : BitVec 32} {sent : List Segment} {seg : Segment}
    (h : Announces rcvwnd seg) : Answers rcvwnd sent (sent ++ [seg]) :=
  ⟨[seg], rfl, fun _ hmem => List.mem_singleton.mp hmem ▸ h⟩

theorem Answers.trans {rcvwnd : BitVec 32} {sent sent' sent'' : List Segment}
    (h : Answers rcvwnd sent sent') (h' : Answers rcvwnd sent' sent'') :
    Answers rcvwnd sent sent'' := by
  obtain ⟨segs, rfl, hsegs⟩ := h
  obtain ⟨segs', rfl, hsegs'⟩ := h'
  refine ⟨segs ++ segs', List.append_assoc _ _ _, fun seg hmem => ?_⟩
  rcases List.mem_append.mp hmem with hmem | hmem
  · exact hsegs seg hmem
  · exact hsegs' seg hmem

/-- A window for sending that is set comes from a field of two bytes. -/
def WindowSet (sndwnd sndwnd' : BitVec 32) : Prop :=
  sndwnd' = sndwnd ∨ ∃ winsize : BitVec 16, sndwnd' = bswap32 (winsize.setWidth 32)

theorem WindowSet.trans {a b c : BitVec 32} (h : WindowSet a b) (h' : WindowSet b c) :
    WindowSet a c := by
  rcases h' with rfl | h'
  · exact h
  · exact .inr h'

structure Keeps (c c' : Ctx) : Prop where
  rcvbuf : c'.this.rcvbuf = c.this.rcvbuf
  rcvwnd : c'.this.rcvwnd = c.this.rcvwnd
  sndwnd : WindowSet c.this.sndwnd c'.this.sndwnd
  moves : Moves c.this.tcpstate c'.this.tcpstate
  answers : Answers c.this.rcvwnd c.sent c'.sent
  spawned : c'.spawned = c.spawned

structure Frame (c c' : Ctx) : Prop extends Keeps c c' where
  sndnxt : c'.this.sndnxt = c.this.sndnxt

theorem Keeps.refl (c : Ctx) : Keeps c c := ⟨rfl, rfl, .inl rfl, .refl _, .refl _ _, rfl⟩

theorem Keeps.trans (h : Keeps c c') (h' : Keeps c' c'') : Keeps c c'' where
  rcvbuf := h'.rcvbuf.trans h.rcvbuf
  rcvwnd := h'.rcvwnd.trans h.rcvwnd
  sndwnd := h.sndwnd.trans h'.sndwnd
  moves := h.moves.trans h'.moves
  answers := h.answers.trans (h.rcvwnd ▸ h'.answers)
  spawned := h'.spawned.trans h.spawned

theorem Keeps.of_this (hbuf : this.rcvbuf = c.this.rcvbuf) (hwnd : this.rcvwnd = c.this.rcvwnd)
    (hsnd : this.sndwnd = c.this.sndwnd) (hmoves : Moves c.this.tcpstate this.tcpstate) :
    Keeps c { c with this } :=
  ⟨hbuf, hwnd, .inl hsnd, hmoves, .refl _ _, rfl⟩

namespace Frame

theorem refl (c : Ctx) : Frame c c := ⟨.refl c, rfl⟩

theorem trans (h : Frame c c') (h' : Frame c' c'') : Frame c c'' :=
  ⟨h.toKeeps.trans h'.toKeeps, h'.sndnxt.trans h.sndnxt⟩

theorem of_this (hbuf : this.rcvbuf = c.this.rcvbuf) (hwnd : this.rcvwnd = c.this.rcvwnd)
    (hsnd : this.sndwnd = c.this.sndwnd) (hnxt : this.sndnxt = c.this.sndnxt)
    (hmoves : Moves c.this.tcpstate this.tcpstate) :
    Frame c { c with this } :=
  ⟨.of_this hbuf hwnd hsnd hmoves, hnxt⟩

theorem setState {a : TcpState} (hbuf : this.rcvbuf = c.this.rcvbuf)
    (hwnd : this.rcvwnd = c.this.rcvwnd) (hsnd : this.sndwnd = c.this.sndwnd)
    (hnxt : this.sndnxt = c.this.sndnxt) (hstate : c.this.tcpstate = a)
    (hmoves : Moves a this.tcpstate) : Frame c { c with this } :=
  of_this hbuf hwnd hsnd hnxt (hstate ▸ hmoves)

end Frame

/-! ## Sending and closing -/

theorem frame_tcpSend (c : Ctx) (now : Nat) (flags : Flags) (data : List Byte) :
    Frame c (tcpSend c now flags data) := by
  unfold tcpSend tcpSendsegment
  dsimp only
  split
  · exact ⟨⟨rfl, rfl, .inl rfl, .refl _, .one (.inr rfl), rfl⟩, rfl⟩
  · exact ⟨⟨rfl, rfl, .inl rfl, .refl _, .one (.inr rfl), rfl⟩, rfl⟩

theorem keeps_sendRound {c c' : Ctx} {now mtuSeg : Nat} {rest : List Byte}
    (h : sendRound c now mtuSeg rest = some c') : Keeps c c' := by
  unfold sendRound at h
  dsimp only at h
  split at h
  · cases h
  · obtain rfl := Option.some.inj h
    exact (frame_tcpSend c now _ _).toKeeps.trans (.of_this rfl rfl rfl (.refl _))

theorem frame_sendAck (c : Ctx) (now : Nat) : Frame c (sendAck c now) := frame_tcpSend c now _ _

theorem frame_sendReset (c : Ctx) (seq : BitVec 32) : Frame c (sendReset c seq) :=
  ⟨⟨rfl, rfl, .inl rfl, .refl _, .one (.inl ⟨seq, rfl⟩), rfl⟩, rfl⟩

theorem keeps_sendFin (c : Ctx) (now : Nat) {state : TcpState}
    (h : Moves c.this.tcpstate state) : Keeps c (sendFin c now state) := by
  have hsend := (frame_tcpSend c now { fin := true, ack := true } []).toKeeps
  have hst : (tcpSend c now { fin := true, ack := true } []).this.tcpstate = c.this.tcpstate := by
    unfold tcpSend
    dsimp only
    split <;> rfl
  exact hsend.trans (.of_this rfl rfl rfl (hst ▸ h))

theorem frame_tcpClose (h : c.this.tcpstate = .closed) : Frame c (tcpClose c now).2 := by
  unfold tcpClose
  rw [h]
  exact .of_this rfl rfl rfl rfl (.refl _)

theorem keeps_tcpClose (c : Ctx) (now : Nat) : Keeps c (tcpClose c now).2 := by
  unfold tcpClose
  cases hst : c.this.tcpstate with
  | closed => exact .of_this rfl rfl rfl (.refl _)
  | listen | synsent => exact .of_this rfl rfl rfl (.closed _)
  | established => exact keeps_sendFin c now (hst ▸ .edge .establishedClose (by decide))
  | synrecv => exact keeps_sendFin c now (hst ▸ .edge .synrecvClose (by decide))
  | closewait => exact keeps_sendFin c now (hst ▸ .edge .closewaitClose (by decide))
  | finwait1 | finwait2 | closing | lastack | timewait => exact .refl c

theorem frame_closed {eventstate : EventState} {status : Status} :
    Frame c { c with this := { tcpSetstate c.this .closed with eventstate, status } } :=
  .of_this rfl rfl rfl rfl (.closed _)

theorem frame_closing (c : Ctx) (now : Nat) :
    Frame c (tcpClose { c with this := tcpSetstate c.this .closed } now).2 := by
  have hclosed : Frame c { c with this := tcpSetstate c.this .closed } :=
    .of_this rfl rfl rfl rfl (.closed _)
  exact hclosed.trans (frame_tcpClose rfl)

theorem frame_abort (env : Env) (c : Ctx) (eventstate : EventState) :
    Frame c (abort env c eventstate) :=
  frame_closed.trans (frame_tcpClose rfl)

/-! ## Options -/

theorem parseoptionsLoop_eq (packet : Packet) (opts : Nat → Byte) (max fuel i : Nat)
    (this : Socket) : ∃ maxseg recenttimestamp flagTs,
      parseoptionsLoop packet opts max fuel i this =
        { this with maxseg, recenttimestamp, flagTs } := by
  induction fuel generalizing i this with
  | zero => exact ⟨_, _, _, rfl⟩
  | succ fuel ih =>
    unfold parseoptionsLoop
    split
    · exact ⟨_, _, _, rfl⟩
    · split
      · exact ⟨_, _, _, rfl⟩
      · exact ih _ _
      · split
        · exact ⟨_, _, _, rfl⟩
        · obtain ⟨m, t, f, h⟩ := ih (i + 4) { this with maxseg := opts (i + 2) ++ opts (i + 3) }
          exact ⟨m, t, f, h⟩
      · split
        · exact ⟨_, _, _, rfl⟩
        · dsimp only
          split
          · obtain ⟨m, t, f, h⟩ := ih (i + 10)
              { this with recenttimestamp := bswap32 (load32 opts (i + 2)), flagTs := true }
            exact ⟨m, t, f, h⟩
          · split
            · obtain ⟨m, t, f, h⟩ := ih (i + 10)
                { this with recenttimestamp := bswap32 (load32 opts (i + 2)) }
              exact ⟨m, t, f, h⟩
            · exact ih _ _
      · split
        · exact ⟨_, _, _, rfl⟩
        · exact ih _ _

theorem tcpParseoptions_eq (this : Socket) (packet : Packet) (opts : Nat → Byte) :
    ∃ maxseg recenttimestamp flagTs,
      tcpParseoptions this packet opts = { this with maxseg, recenttimestamp, flagTs } :=
  parseoptionsLoop_eq packet opts _ _ 0 this

/-! ## The parts of `tcp_netpacket` -/

/-- Where a part of `tcp_netpacket` ends. -/
def ctxOf : Except Ctx Ctx → Ctx
  | .ok c => c
  | .error c => c

theorem ok_bind (c : Ctx) (f : Ctx → Except Ctx Ctx) : (Except.ok c >>= f) = f c := rfl

theorem error_bind (c : Ctx) (f : Ctx → Except Ctx Ctx) : (Except.error c >>= f) = .error c := rfl

theorem frame_checkWindow (env : Env) (c : Ctx) (packet : Packet) :
    Frame c (ctxOf (checkWindow env c packet)) := by
  unfold checkWindow
  split
  · dsimp only [ctxOf]
    split
    · exact .refl c
    · exact frame_sendAck c _
  · exact .refl c

theorem frame_checkRst (env : Env) (c : Ctx) (packet : Packet) :
    Frame c (ctxOf (checkRst env c packet)) := by
  unfold checkRst
  split
  · exact frame_abort env c _
  · exact .refl c

theorem frame_checkSyn (env : Env) (c : Ctx) (packet : Packet) :
    Frame c (ctxOf (checkSyn env c packet)) := by
  unfold checkSyn
  split
  · exact (frame_tcpSend c _ _ _).trans (frame_abort env _ _)
  · exact .refl c

theorem frame_updateSend (c : Ctx) (packet : Packet) :
    Frame c { c with this := updateSend c.this packet } := by
  unfold updateSend
  dsimp only
  split
  · exact ⟨⟨rfl, rfl, .inr ⟨_, rfl⟩, .refl _, .refl _ _, rfl⟩, rfl⟩
  · exact .of_this rfl rfl rfl rfl (.refl _)

theorem frame_ackFin (env : Env) (c : Ctx) (packet : Packet) :
    Frame c { c with this := ackFin env c.this packet } := by
  unfold ackFin
  split
  · next h =>
    split
    · exact .setState rfl rfl rfl rfl h (.edge .finwait1Ack (by decide))
    · exact .refl c
  · next h =>
    split
    · exact .setState rfl rfl rfl rfl h (.edge .closingAck (by decide))
    · exact .refl c
  · exact .refl c

theorem frame_ackEstablished (env : Env) (c : Ctx) (packet : Packet) :
    Frame c (ctxOf (ackEstablished env c packet)) := by
  unfold ackEstablished
  split
  · exact (frame_updateSend c packet).trans (frame_ackFin env _ packet)
  · split
    · exact frame_sendAck c _
    · exact frame_ackFin env c packet

theorem frame_checkAck (env : Env) (c : Ctx) (packet : Packet) :
    Frame c (ctxOf (checkAck env c packet)) := by
  unfold checkAck
  split
  · exact .refl c
  · cases hst : c.this.tcpstate with
    | synrecv =>
      dsimp only
      split
      · refine Frame.trans ?_ (frame_ackEstablished env _ packet)
        exact ⟨⟨rfl, rfl, .inl rfl, hst ▸ .edge .synrecvAck (by decide), .refl _ _, rfl⟩, rfl⟩
      · exact frame_sendReset c _
    | established | finwait1 | finwait2 | closewait | closing =>
      exact frame_ackEstablished env c packet
    | lastack =>
      dsimp only
      split
      · exact frame_closing c _
      · exact .refl c
    | timewait =>
      dsimp only
      split
      · exact .of_this rfl rfl rfl rfl (.refl _)
      · exact .refl c
    | closed | listen | synsent => exact .refl c

theorem frame_finState (env : Env) (c : Ctx) (packet : Packet) :
    Frame c { c with this := finState env c.this packet } := by
  unfold finState
  cases hst : c.this.tcpstate with
  | synrecv =>
    have hmoves : Moves .synrecv .closewait :=
      (Moves.edge .synrecvAck (by decide)).trans (.edge .establishedFin (by decide))
    dsimp only
    split
    · exact .setState rfl rfl rfl rfl hst hmoves
    · exact .setState rfl rfl rfl rfl hst hmoves
  | established =>
    have hmoves : Moves .established .closewait := .edge .establishedFin (by decide)
    dsimp only
    split
    · exact .setState rfl rfl rfl rfl hst hmoves
    · exact .setState rfl rfl rfl rfl hst hmoves
  | finwait1 =>
    dsimp only
    split
    · refine .setState rfl rfl rfl rfl hst ?_
      exact (Moves.edge .finwait1Ack (by decide)).trans (.edge .finwait2Fin (by decide))
    · exact .setState rfl rfl rfl rfl hst (.edge .finwait1Fin (by decide))
  | finwait2 => exact .setState rfl rfl rfl rfl hst (.edge .finwait2Fin (by decide))
  | timewait => exact .of_this rfl rfl rfl rfl (.refl _)
  | closed | listen | synsent | closewait | closing | lastack => exact .refl c

theorem frame_receiveFin (env : Env) (c : Ctx) (packet : Packet) :
    Frame c (ctxOf (receiveFin env c packet)) := by
  unfold receiveFin
  split
  · split
    · have hfin : Frame c { c with this := { finState env c.this packet with
          rcvnxt := packet.seq + 1 } } :=
        (frame_finState env c packet).trans (.of_this rfl rfl rfl rfl (.refl _))
      exact hfin.trans (frame_sendAck _ _)
    · exact .refl c
  · exact .refl c

/-! ## Sockets that listen or connect -/

theorem onListen_this (env : Env) (c : Ctx) (conn : Connection) (adapter : Nat)
    (packet : Packet) : (onListen env c conn adapter packet).this = c.this := by
  unfold onListen
  split
  · rfl
  · split
    · rfl
    · split <;> rfl

theorem frame_receiveSyn (c : Ctx) (packet : Packet) (acceptable : Bool) :
    Frame c { c with this := receiveSyn c.this packet acceptable } := by
  unfold receiveSyn
  dsimp only
  split <;> exact .of_this rfl rfl rfl rfl (.refl _)

theorem receiveSyn_tcpstate (this : Socket) (packet : Packet) (acceptable : Bool) :
    (receiveSyn this packet acceptable).tcpstate = this.tcpstate := by
  unfold receiveSyn
  dsimp only
  split <;> rfl

theorem frame_onSynack (env : Env) (h : c.this.tcpstate = .synsent) (packet : Packet)
    (acceptable : Bool) : Frame c (onSynack env c packet acceptable) := by
  have hsyn := frame_receiveSyn c packet acceptable
  have hst := (receiveSyn_tcpstate c.this packet acceptable).trans h
  unfold onSynack
  dsimp only
  split
  · obtain ⟨m, t, f, heq⟩ :=
      tcpParseoptions_eq (receiveSyn c.this packet acceptable) packet env.opts
    rw [heq]
    refine Frame.trans (Frame.trans ?_ (frame_sendAck _ _))
      ⟨⟨rfl, rfl, .inr ⟨_, rfl⟩, .refl _, .refl _ _, rfl⟩, rfl⟩
    exact hsyn.trans (.setState rfl rfl rfl rfl hst (.edge .synsentSynack (by decide)))
  · refine Frame.trans ?_ (frame_tcpSend _ _ _ _)
    exact hsyn.trans (.setState rfl rfl rfl rfl hst (.edge .synsentSyn (by decide)))

theorem frame_onSynsent (env : Env) (h : c.this.tcpstate = .synsent) (packet : Packet) :
    Frame c (onSynsent env c packet) := by
  unfold onSynsent
  dsimp only
  split
  · exact frame_sendReset c _
  · split
    · split
      · exact frame_closed.trans (frame_tcpClose rfl)
      · exact .refl c
    · split
      · exact frame_onSynack env h packet _
      · split
        · exact frame_sendReset c _
        · exact .refl c

end Lyre.Tcp
