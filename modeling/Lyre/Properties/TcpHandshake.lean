import Lyre.Properties.TcpOwner
import Lyre.Properties.TcpRuns

/-!
# When a handshake is completed

A socket in `SYNRECV` becomes `ESTABLISHED` only where it is also put in the backlog of its parent,
and it never comes back to `SYNRECV` afterwards. `Completes` says this of a part of `tcp_netpacket`.

* `completes_handle`: it holds of the whole function, and of all other events.
* `tcpNetpacket_backlogged`: the segments that complete a handshake.
-/

namespace Lyre.Tcp

variable {c c' c'' : Ctx} {this : Socket}

/-- The handshake is over. -/
def opened : TcpState → Bool
  | .listen | .synsent | .synrecv => false
  | _ => true

/-- Nothing is put in the backlog, and the socket does not become `ESTABLISHED`. -/
structure Quiet (c c' : Ctx) : Prop where
  backlogged : c'.backlogged = c.backlogged
  waiting : c.this.tcpstate = .synrecv → c'.this.tcpstate ≠ .established ∧
    (c'.this.tcpstate = .synrecv ∨ opened c'.this.tcpstate = true)
  done : opened c.this.tcpstate = true → opened c'.this.tcpstate = true ∧
    (c'.this.tcpstate = .established → c.this.tcpstate = .established)

namespace Quiet

theorem of_same (hb : c'.backlogged = c.backlogged) (hs : c'.this.tcpstate = c.this.tcpstate) :
    Quiet c c' where
  backlogged := hb
  waiting := fun h => ⟨by rw [hs, h]; decide, .inl (hs.trans h)⟩
  done := fun h => ⟨hs ▸ h, fun he => hs ▸ he⟩

theorem refl (c : Ctx) : Quiet c c := of_same rfl rfl

/-- The state goes on, but not to `ESTABLISHED`. -/
theorem of_opened (hb : c'.backlogged = c.backlogged) (ho : opened c'.this.tcpstate = true)
    (hs : c'.this.tcpstate ≠ .established) : Quiet c c' :=
  ⟨hb, fun _ => ⟨hs, .inr ho⟩, fun _ => ⟨ho, fun he => absurd he hs⟩⟩

theorem of_closed (hb : c'.backlogged = c.backlogged) (hs : c'.this.tcpstate = .closed) :
    Quiet c c' :=
  of_opened hb (by rw [hs]; rfl) (by rw [hs]; decide)

theorem trans (h : Quiet c c') (h' : Quiet c' c'') : Quiet c c'' where
  backlogged := h'.backlogged.trans h.backlogged
  waiting := by
    intro hc
    obtain ⟨hne, hrecv | ho⟩ := h.waiting hc
    · exact h'.waiting hrecv
    · obtain ⟨ho', he⟩ := h'.done ho
      exact ⟨fun hc => hne (he hc), .inr ho'⟩
  done := by
    intro hc
    obtain ⟨ho, he⟩ := h.done hc
    obtain ⟨ho', he'⟩ := h'.done ho
    exact ⟨ho', fun hs => he (he' hs)⟩

theorem bind {x : Except Ctx Ctx} {f : Ctx → Except Ctx Ctx} (hx : Quiet c (ctxOf x))
    (hf : ∀ c', Quiet c' (ctxOf (f c'))) : Quiet c (ctxOf (x >>= f)) := by
  cases x with
  | error c' => exact hx
  | ok c' => exact hx.trans (hf c')

end Quiet

/-- A socket in `SYNRECV` may be put in the backlog, and then its handshake is over. -/
structure Completes (c c' : Ctx) : Prop where
  waiting : c.this.tcpstate = .synrecv →
    Quiet c c' ∨ (c'.backlogged = true ∧ opened c'.this.tcpstate = true)
  done : opened c.this.tcpstate = true → Quiet c c'

theorem Quiet.completes (h : Quiet c c') : Completes c c' := ⟨fun _ => .inl h, fun _ => h⟩

theorem Completes.trans (h : Completes c c') (h' : Completes c' c'') : Completes c c'' where
  waiting := by
    intro hc
    rcases h.waiting hc with hq | ⟨hb, ho⟩
    · obtain ⟨_, hrecv | ho⟩ := hq.waiting hc
      · exact (h'.waiting hrecv).imp_left hq.trans
      · exact .inl (hq.trans (h'.done ho))
    · have hq := h'.done ho
      exact .inr ⟨hq.backlogged.trans hb, (hq.done ho).1⟩
  done := by
    intro hc
    have hq := h.done hc
    exact hq.trans (h'.done (hq.done hc).1)

theorem Completes.bind {x : Except Ctx Ctx} {f : Ctx → Except Ctx Ctx} (hx : Completes c (ctxOf x))
    (hf : ∀ c', Completes c' (ctxOf (f c'))) : Completes c (ctxOf (x >>= f)) := by
  cases x with
  | error c' => exact hx
  | ok c' => exact hx.trans (hf c')

/-! ## The parts of `tcp_netpacket` -/

theorem quiet_tcpSend (c : Ctx) (now : Nat) (flags : Flags) (data : List Byte) :
    Quiet c (tcpSend c now flags data) := by
  obtain ⟨queue, hq⟩ := tcpSend_this c now flags data
  refine .of_same ?_ (by rw [hq])
  unfold tcpSend tcpSendsegment
  rfl

theorem tcpClose_closed (c : Ctx) (now : Nat) (h : c.this.tcpstate = .closed) :
    (tcpClose c now).2.backlogged = c.backlogged ∧ (tcpClose c now).2.this.tcpstate = .closed := by
  unfold tcpClose
  rw [h]
  exact ⟨rfl, h⟩

theorem abort_closed (env : Env) (c : Ctx) (eventstate : EventState) :
    (abort env c eventstate).backlogged = c.backlogged ∧
      (abort env c eventstate).this.tcpstate = .closed :=
  tcpClose_closed { c with this := { tcpSetstate c.this .closed with
    eventstate, status := { c.this.status with pollhup := true } } } env.now rfl

theorem quiet_abort (env : Env) (c : Ctx) (eventstate : EventState) :
    Quiet c (abort env c eventstate) :=
  .of_closed (abort_closed env c eventstate).1 (abort_closed env c eventstate).2

theorem quiet_checkWindow (env : Env) (c : Ctx) (packet : Packet) :
    Quiet c (ctxOf (checkWindow env c packet)) := by
  unfold checkWindow
  split
  · dsimp only [ctxOf]
    split
    · exact .refl c
    · exact quiet_tcpSend c _ _ _
  · exact .refl c

theorem quiet_checkRst (env : Env) (c : Ctx) (packet : Packet) :
    Quiet c (ctxOf (checkRst env c packet)) := by
  unfold checkRst
  split
  · exact quiet_abort env c _
  · exact .refl c

theorem quiet_checkSyn (env : Env) (c : Ctx) (packet : Packet) :
    Quiet c (ctxOf (checkSyn env c packet)) := by
  unfold checkSyn
  split
  · exact (quiet_tcpSend c _ _ _).trans (quiet_abort env _ _)
  · exact .refl c

theorem quiet_ackFin (env : Env) (c : Ctx) (packet : Packet) :
    Quiet c { c with this := ackFin env c.this packet } := by
  unfold ackFin
  split
  · split
    · exact .of_opened rfl rfl (by simp [tcpSetstate])
    · exact .refl c
  · split
    · exact .of_opened rfl rfl (by simp [tcpSettimewait, tcpSetstate])
    · exact .refl c
  · exact .refl c

theorem quiet_ackEstablished (env : Env) (c : Ctx) (packet : Packet) :
    Quiet c (ctxOf (ackEstablished env c packet)) := by
  unfold ackEstablished
  split
  · have hsend : Quiet c { c with this := updateSend c.this packet } :=
      .of_same rfl (updateSend_tcpstate c.this packet)
    exact hsend.trans (quiet_ackFin env _ packet)
  · split
    · exact quiet_tcpSend c _ _ _
    · exact quiet_ackFin env c packet

theorem completes_checkAck (env : Env) (c : Ctx) (packet : Packet) :
    Completes c (ctxOf (checkAck env c packet)) := by
  unfold checkAck
  split
  · exact (Quiet.refl c).completes
  · cases hst : c.this.tcpstate with
    | synrecv =>
      dsimp only
      split
      · -- the socket is put in the backlog, and the rest of the segment is for an open connection
        have hrest := quiet_ackEstablished env { c with
          this := { tcpSetstate c.this .established with
            state := .connected
            status := { c.this.status with pollin := true } }
          backlogged := true } packet
        exact
          { waiting := fun _ => .inr ⟨hrest.backlogged, (hrest.done rfl).1⟩
            done := fun h => by rw [hst] at h; cases h }
      · exact Quiet.completes (.of_same rfl rfl)
    | established | finwait1 | finwait2 | closewait | closing =>
      exact (quiet_ackEstablished env c packet).completes
    | lastack =>
      dsimp only
      split
      · obtain ⟨hb, hs⟩ := tcpClose_closed { c with this := tcpSetstate c.this .closed } env.now rfl
        exact Quiet.completes (.of_closed hb hs)
      · exact (Quiet.refl c).completes
    | timewait =>
      dsimp only
      split
      · exact Quiet.completes (.of_same rfl rfl)
      · exact (Quiet.refl c).completes
    | closed | listen | synsent => exact (Quiet.refl c).completes

theorem quiet_receiveData (env : Env) (c : Ctx) (packet : Packet) :
    Quiet c (ctxOf (receiveData env c packet)) := by
  unfold receiveData
  split
  · split
    · exact .refl c
    · refine Quiet.trans (Quiet.trans ?_ (quiet_tcpSend _ _ _ _)) (.of_same rfl rfl)
      exact .of_same rfl rfl
  · exact .refl c

theorem quiet_finState (env : Env) (c : Ctx) (packet : Packet) :
    Quiet c { c with this := finState env c.this packet } := by
  unfold finState
  cases c.this.tcpstate with
  | synrecv | established | finwait1 =>
    dsimp only
    split <;> exact .of_opened rfl rfl (by simp [tcpSettimewait, tcpSetstate])
  | finwait2 => exact .of_opened rfl rfl (by simp [tcpSettimewait, tcpSetstate])
  | timewait => exact .of_same rfl rfl
  | closed | listen | synsent | closewait | closing | lastack => exact .refl c

theorem quiet_receiveFin (env : Env) (c : Ctx) (packet : Packet) :
    Quiet c (ctxOf (receiveFin env c packet)) := by
  unfold receiveFin
  split
  · split
    · have hfin : Quiet c { c with this := { finState env c.this packet with
          rcvnxt := packet.seq + 1 } } :=
        (quiet_finState env c packet).trans (.of_same rfl rfl)
      exact hfin.trans (quiet_tcpSend _ _ _ _)
    · exact .refl c
  · exact .refl c

theorem quiet_rest (env : Env) (c : Ctx) (packet : Packet) (x : Except Ctx Ctx)
    (hx : Quiet c (ctxOf x)) :
    Quiet c (ctxOf (x >>= fun c => receiveData env c packet >>= fun c =>
      receiveFin env c packet)) := by
  refine hx.bind fun c => ?_
  refine (quiet_receiveData env c packet).bind fun c => ?_
  exact quiet_receiveFin env c packet

theorem completes_onSegment (env : Env) (c : Ctx) (packet : Packet) :
    Completes c (ctxOf (onSegment env c packet)) := by
  unfold onSegment
  refine (quiet_checkWindow env c packet).completes.bind fun c => ?_
  refine (quiet_checkRst env c packet).completes.bind fun c => ?_
  refine (quiet_checkSyn env c packet).completes.bind fun c => ?_
  refine (completes_checkAck env c packet).bind fun c => ?_
  exact (quiet_rest env c packet (.ok c) (.refl c)).completes

/-- **A socket that is not `ESTABLISHED` becomes so only with the backlog.** It is past `LISTEN` and
`SYNSENT`. -/
theorem completes_tcpNetpacket (env : Env) (src dest : BitVec 32) (buf : Nat → Byte) (length : Nat)
    (hlisten : this.tcpstate ≠ .listen) (hsynsent : this.tcpstate ≠ .synsent) :
    Completes { this } (tcpNetpacket env this src dest buf length) := by
  unfold tcpNetpacket
  dsimp only
  split
  · exact (Quiet.refl _).completes
  · next adapter _ =>
    obtain ⟨m, t, f, hopts⟩ := tcpParseoptions_eq this (loadPacket buf length) env.opts
    rw [hopts]
    have hparsed : Quiet { this } { this := { this with
        maxseg := m, recenttimestamp := t, flagTs := f } } := .of_same rfl rfl
    unfold onPacket
    split
    · next h => exact absurd h hlisten
    · next h => exact absurd h hsynsent
    · have h := hparsed.completes.trans (completes_onSegment env _ (loadPacket buf length))
      cases hseg : onSegment env _ (loadPacket buf length) with
      | ok c => exact hseg ▸ h
      | error c => exact hseg ▸ h

/-! ## Other events -/

theorem quiet_sendFin (c : Ctx) (now : Nat) {state : TcpState} (ho : opened state = true)
    (hs : state ≠ .established) : Quiet c (sendFin c now state) :=
  .of_opened (by unfold sendFin tcpSend tcpSendsegment; rfl) ho hs

theorem quiet_tcpClose (c : Ctx) (now : Nat) : Quiet c (tcpClose c now).2 := by
  unfold tcpClose
  cases hst : c.this.tcpstate with
  | closed => exact .of_same rfl rfl
  | listen | synsent => exact .of_closed rfl rfl
  | established | synrecv | closewait => exact quiet_sendFin c now rfl (by decide)
  | finwait1 | finwait2 | closing | lastack | timewait => exact .refl c

theorem quiet_closing (c : Ctx) (now : Nat) :
    Quiet c (tcpClose { c with this := tcpSetstate c.this .closed } now).2 := by
  obtain ⟨hb, hs⟩ := tcpClose_closed { c with this := tcpSetstate c.this .closed } now rfl
  exact .of_closed hb hs

theorem quiet_tcpQueueemit (c : Ctx) (now : Nat) (route : Option Nat)
    (entry : RetransmitEntry) : Quiet c (tcpQueueemit c now route entry).2 := by
  unfold tcpQueueemit
  split
  · exact .refl c
  · split
    · exact .refl c
    · split
      · exact .of_closed rfl rfl
      · split
        · exact .of_same rfl rfl
        · exact .refl c

theorem quiet_queueemitLoop (now : Nat) (route : Option Nat) (entries : List RetransmitEntry)
    (c : Ctx) : Quiet c (queueemitLoop now route entries c).2 := by
  induction entries generalizing c with
  | nil => exact .refl c
  | cons entry entries ih => exact (quiet_tcpQueueemit c now route entry).trans (ih _)

theorem quiet_tcpTimer (c : Ctx) (now : Nat) (route : Option Nat) (connecttimeout : Nat) :
    Quiet c (tcpTimer c now route connecttimeout) := by
  unfold tcpTimer
  split
  · exact quiet_closing c now
  · split
    · exact .refl c
    · unfold tcpRetransmitall
      split
      · exact .refl c
      · exact (quiet_queueemitLoop now route c.this.retransmitqueue c).trans (.of_same rfl rfl)

theorem quiet_connectWoken (c : Ctx) (now : Nat) : Quiet c (connectWoken c now).2 := by
  unfold connectWoken
  split
  · exact .of_same rfl rfl
  · exact .refl c
  · exact quiet_closing c now

theorem quiet_sendRound {now mtuSeg : Nat} {rest : List Byte}
    (h : sendRound c now mtuSeg rest = some c') : Quiet c c' := by
  unfold sendRound at h
  dsimp only at h
  split at h
  · cases h
  · generalize hsend : tcpSend c now _ _ = c₁ at h
    have hc₁ : Quiet c c₁ := hsend ▸ quiet_tcpSend c now _ _
    obtain rfl := Option.some.inj h
    exact hc₁.trans (.of_same rfl rfl)

theorem quiet_send (this : Socket) (now mtuSeg : Nat) (rest : List Byte) :
    Quiet { this } (handle this (.send now mtuSeg rest)) := by
  rw [handle]
  split
  · cases h : sendRound { this } now mtuSeg rest with
    | none => exact .refl _
    | some c => exact quiet_sendRound h
  · exact .refl _

theorem handle_cases (this : Socket) (event : Event) :
    (∃ env src dest buf length, event = .segment env src dest buf length) ∨
      Quiet { this } (handle this event) := by
  cases event with
  | segment env src dest buf length => exact .inl ⟨env, src, dest, buf, length, rfl⟩
  | close now => exact .inr (quiet_tcpClose _ now)
  | timer now route connecttimeout => exact .inr (quiet_tcpTimer _ now route connecttimeout)
  | woken now => exact .inr (quiet_connectWoken _ now)
  | read nonblock count => exact .inr (.of_same rfl (drained_tcpRead this nonblock count).tcpstate)
  | recvmsg nonblock dontwait named lens =>
    exact .inr (.of_same rfl (drained_tcpRecvmsg this nonblock dontwait named lens).tcpstate)
  | send now mtuSeg rest => exact .inr (quiet_send this now mtuSeg rest)

theorem completes_handle (event : Event) (hlisten : this.tcpstate ≠ .listen)
    (hsynsent : this.tcpstate ≠ .synsent) : Completes { this } (handle this event) := by
  rcases handle_cases this event with ⟨env, src, dest, buf, length, rfl⟩ | hquiet
  · exact completes_tcpNetpacket env src dest buf length hlisten hsynsent
  · exact hquiet.completes

/-! ## The segment that completes a handshake -/

/-- The segment acknowledges the `SYN` of a socket in `SYNRECV`. -/
def finishesHandshake (env : Env) (this : Socket) (packet : Packet) : Bool :=
  (this.adapter.or env.route).isSome && this.tcpstate = .synrecv && acceptable this packet &&
    !packet.header.flags.rst && !packet.header.flags.syn && packet.header.flags.ack &&
    (this.snduna ≤ packet.ack && packet.ack ≤ this.sndnxt)

theorem onSegment_backlogged (env : Env) (packet : Packet) (hst : this.tcpstate = .synrecv) :
    (ctxOf (onSegment env { this } packet)).backlogged
      = (acceptable this packet && !packet.header.flags.rst && !packet.header.flags.syn &&
        packet.header.flags.ack && (this.snduna ≤ packet.ack && packet.ack ≤ this.sndnxt)) := by
  have hsync : synchronized this.tcpstate = true := by rw [hst]; rfl
  unfold onSegment
  cases hacc : acceptable this packet with
  | false =>
    rw [checkWindow, if_pos ⟨hsync, hacc⟩, error_bind]
    dsimp only [ctxOf]
    split <;> rfl
  | true =>
    rw [checkWindow, if_neg (by simp [hacc]), ok_bind]
    cases hrst : packet.header.flags.rst with
    | true =>
      rw [checkRst, if_pos ⟨hsync, hrst⟩, error_bind]
      exact (abort_closed env { this } _).1
    | false =>
      rw [checkRst, if_neg (by simp [hrst]), ok_bind]
      cases hsyn : packet.header.flags.syn with
      | true =>
        rw [checkSyn, if_pos ⟨hsync, hsyn⟩, error_bind]
        exact (abort_closed env _ _).1.trans (by unfold tcpSend tcpSendsegment; rfl)
      | false =>
        rw [checkSyn, if_neg (by simp [hsyn]), ok_bind]
        cases hack : packet.header.flags.ack with
        | false =>
          rw [checkAck, if_pos (by simp [hack]), error_bind]
          rfl
        | true =>
          rw [checkAck, if_neg (by simp [hack])]
          simp only [hst]
          by_cases hnumber : this.snduna ≤ packet.ack ∧ packet.ack ≤ this.sndnxt
          · rw [if_pos hnumber]
            have hrest := quiet_rest env _ packet _ (quiet_ackEstablished env
              { this := { tcpSetstate this .established with
                  state := .connected
                  status := { this.status with pollin := true } }
                backlogged := true } packet)
            rw [hrest.backlogged]
            simp [hnumber]
          · rw [if_neg hnumber, error_bind]
            have : (decide (this.snduna ≤ packet.ack) && decide (packet.ack ≤ this.sndnxt))
                = false := by simpa using hnumber
            rw [this]
            rfl

/-- **A socket is put in the backlog exactly if the segment completes its handshake.** -/
theorem tcpNetpacket_backlogged (env : Env) (src dest : BitVec 32) (buf : Nat → Byte)
    (length : Nat) (hlisten : this.tcpstate ≠ .listen) (hsynsent : this.tcpstate ≠ .synsent) :
    (tcpNetpacket env this src dest buf length).backlogged
      = finishesHandshake env this (loadPacket buf length) := by
  by_cases hst : this.tcpstate = .synrecv
  · unfold tcpNetpacket finishesHandshake
    dsimp only
    split
    · next hnone => simp [hnone]
    · next adapter hsome =>
      obtain ⟨m, t, f, hopts⟩ := tcpParseoptions_eq this (loadPacket buf length) env.opts
      rw [hopts, hsome]
      have hst' : ({ this with maxseg := m, recenttimestamp := t, flagTs := f } : Socket).tcpstate
          = .synrecv := hst
      have hseg := onSegment_backlogged env (loadPacket buf length) hst'
      unfold onPacket
      simp only [hst]
      cases hcase : onSegment env _ (loadPacket buf length) with
      | ok c => simpa [hcase, hst, ctxOf, acceptable] using hseg
      | error c => simpa [hcase, hst, ctxOf, acceptable] using hseg
  · have hopened : opened this.tcpstate = true := by
      cases h : this.tcpstate <;> first | rfl | contradiction
    have hquiet := (completes_tcpNetpacket env src dest buf length hlisten hsynsent).done hopened
    rw [hquiet.backlogged, finishesHandshake]
    simp [hst]

theorem tcpNetpacket_spawned_onListen {env : Env} {src dest : BitVec 32} {buf : Nat → Byte}
    {length : Nat} {child : Socket}
    (h : (tcpNetpacket env this src dest buf length).spawned = some child) :
    ∃ listener conn adapter,
      (onListen env { this := listener } conn adapter (loadPacket buf length)).spawned
        = some child := by
  unfold tcpNetpacket at h
  dsimp only at h
  split at h
  · cases h
  · unfold onPacket at h
    split at h
    · exact ⟨_, _, _, h⟩
    · rw [(settles_onSynsent env _ _).spawned] at h
      cases h
    · have hsettles := settles_onSegment env
        { this := tcpParseoptions this (loadPacket buf length) env.opts } (loadPacket buf length)
      cases hseg : onSegment env _ (loadPacket buf length) with
      | ok c =>
        rw [hseg] at h hsettles
        rw [show c.spawned = none from hsettles.spawned] at h
        cases h
      | error c =>
        rw [hseg] at h hsettles
        rw [show c.spawned = none from hsettles.spawned] at h
        cases h

/-- The new socket has parsed the options of the `SYN`, and is in `SYNRECV`. -/
theorem onListen_spawned {env : Env} {conn : Connection} {adapter : Nat} {packet : Packet}
    {child : Socket} (h : (onListen env { this } conn adapter packet).spawned = some child) :
    child.tcpstate = .synrecv ∧ ∃ fresh : Socket, fresh.maxseg = 0 ∧ fresh.flagTs = false ∧
      child.maxseg = (tcpParseoptions fresh packet env.opts).maxseg ∧
      child.flagTs = (tcpParseoptions fresh packet env.opts).flagTs := by
  unfold onListen at h
  split at h
  · cases h
  · split at h
    · cases h
    · split at h
      · obtain rfl := Option.some.inj h
        exact ⟨rfl, { socketCreateTcp with
          parent := some env.self
          adapter := some adapter
          conn
          rcvwnd := BitVec.ofNat 32 tcpBufferSize
          rcvnxt := packet.seq + 1
          rcvis := packet.seq
          sndis := env.random }, rfl, rfl, rfl, rfl⟩
      · cases h

/-- A socket that is created for a connection waits for the acknowledgement of its `SYN`. -/
theorem tcpNetpacket_spawned {env : Env} {src dest : BitVec 32} {buf : Nat → Byte} {length : Nat}
    {child : Socket} (h : (tcpNetpacket env this src dest buf length).spawned = some child) :
    child.tcpstate = .synrecv := by
  obtain ⟨listener, conn, adapter, h⟩ := tcpNetpacket_spawned_onListen h
  exact (onListen_spawned h).1

end Lyre.Tcp
