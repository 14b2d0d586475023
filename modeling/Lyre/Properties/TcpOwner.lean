import Lyre.Ipc.TcpCalls
import Lyre.Properties.TcpFrame

/-!
# What the functions of `tcp.c` do with the resources of a socket

A socket has an adapter and a parent, and it is freed at some time. `Settles c c'` says that a
function leaves them alone, or that it frees the socket, which then has no adapter. All of `tcp.c`
but `tcp_connect` is like this; a socket that listens may also create another one.
-/

namespace Lyre.Tcp

variable {env : Env} {c c' c'' : Ctx} {this : Socket} {packet : Packet} {now : Nat}

structure Settles (c c' : Ctx) : Prop where
  parent : c'.this.parent = c.this.parent
  owner : c'.this.freed = c.this.freed ∧ c'.this.adapter = c.this.adapter ∨
    c'.this.freed = true ∧ c'.this.adapter = none
  spawned : c'.spawned = c.spawned

namespace Settles

theorem refl (c : Ctx) : Settles c c := ⟨rfl, .inl ⟨rfl, rfl⟩, rfl⟩

theorem trans (h : Settles c c') (h' : Settles c' c'') : Settles c c'' where
  parent := h'.parent.trans h.parent
  owner := by
    rcases h'.owner with ⟨hfreed', hadapter'⟩ | hdone
    · rw [hfreed', hadapter']
      exact h.owner
    · exact .inr hdone
  spawned := h'.spawned.trans h.spawned

theorem of_this (hp : this.parent = c.this.parent) (hf : this.freed = c.this.freed)
    (ha : this.adapter = c.this.adapter) : Settles c { c with this } :=
  ⟨hp, .inl ⟨hf, ha⟩, rfl⟩

/-- One part of `tcp_netpacket` after the other. -/
theorem bind {x : Except Ctx Ctx} {f : Ctx → Except Ctx Ctx} (hx : Settles c (ctxOf x))
    (hf : ∀ c', Settles c' (ctxOf (f c'))) : Settles c (ctxOf (x >>= f)) := by
  cases x with
  | error c' => exact hx
  | ok c' => exact hx.trans (hf c')

end Settles

/-! ## Sending and closing -/

theorem tcpSend_this (c : Ctx) (now : Nat) (flags : Flags) (data : List Byte) :
    ∃ queue, (tcpSend c now flags data).this = { c.this with retransmitqueue := queue } := by
  unfold tcpSend tcpSendsegment
  dsimp only
  split
  · exact ⟨_, rfl⟩
  · exact ⟨c.this.retransmitqueue, rfl⟩

theorem tcpSend_freed (c : Ctx) (now : Nat) (flags : Flags) (data : List Byte) :
    (tcpSend c now flags data).this.freed = c.this.freed := by
  obtain ⟨queue, hq⟩ := tcpSend_this c now flags data
  rw [hq]

theorem settles_tcpSend (c : Ctx) (now : Nat) (flags : Flags) (data : List Byte) :
    Settles c (tcpSend c now flags data) := by
  unfold tcpSend tcpSendsegment
  dsimp only
  split
  · exact ⟨rfl, .inl ⟨rfl, rfl⟩, rfl⟩
  · exact ⟨rfl, .inl ⟨rfl, rfl⟩, rfl⟩

theorem settles_sendReset (c : Ctx) (seq : BitVec 32) : Settles c (sendReset c seq) :=
  ⟨rfl, .inl ⟨rfl, rfl⟩, rfl⟩

theorem settles_sendFin (c : Ctx) (now : Nat) (state : TcpState) :
    Settles c (sendFin c now state) :=
  (settles_tcpSend c now _ _).trans (.of_this rfl rfl rfl)

theorem settles_tcpClose (c : Ctx) (now : Nat) : Settles c (tcpClose c now).2 := by
  unfold tcpClose
  cases c.this.tcpstate with
  | closed | listen | synsent => exact ⟨rfl, .inr ⟨rfl, rfl⟩, rfl⟩
  | established | synrecv | closewait => exact settles_sendFin c now _
  | finwait1 | finwait2 | closing | lastack | timewait => exact .refl c

theorem settles_closing (c : Ctx) (now : Nat) :
    Settles c (tcpClose { c with this := tcpSetstate c.this .closed } now).2 := by
  have hstate : Settles c { c with this := tcpSetstate c.this .closed } := .of_this rfl rfl rfl
  exact hstate.trans (settles_tcpClose _ now)

theorem settles_abort (env : Env) (c : Ctx) (eventstate : EventState) :
    Settles c (abort env c eventstate) := by
  have hstate : Settles c { c with this := { tcpSetstate c.this .closed with
      eventstate, status := { c.this.status with pollhup := true } } } := .of_this rfl rfl rfl
  exact hstate.trans (settles_tcpClose _ env.now)

theorem settles_parseoptions (c : Ctx) (packet : Packet) (opts : Nat → Byte) :
    Settles c { c with this := tcpParseoptions c.this packet opts } := by
  obtain ⟨m, t, f, heq⟩ := tcpParseoptions_eq c.this packet opts
  rw [heq]
  exact .of_this rfl rfl rfl

/-! ## The parts of `tcp_netpacket` -/

theorem settles_checkWindow (env : Env) (c : Ctx) (packet : Packet) :
    Settles c (ctxOf (checkWindow env c packet)) := by
  unfold checkWindow
  split
  · dsimp only [ctxOf]
    split
    · exact .refl c
    · exact settles_tcpSend c _ _ _
  · exact .refl c

theorem settles_checkRst (env : Env) (c : Ctx) (packet : Packet) :
    Settles c (ctxOf (checkRst env c packet)) := by
  unfold checkRst
  split
  · exact settles_abort env c _
  · exact .refl c

theorem settles_checkSyn (env : Env) (c : Ctx) (packet : Packet) :
    Settles c (ctxOf (checkSyn env c packet)) := by
  unfold checkSyn
  split
  · exact (settles_tcpSend c _ _ _).trans (settles_abort env _ _)
  · exact .refl c

theorem settles_ackFin (env : Env) (c : Ctx) (packet : Packet) :
    Settles c { c with this := ackFin env c.this packet } := by
  unfold ackFin
  split
  · split <;> exact .of_this rfl rfl rfl
  · split <;> exact .of_this rfl rfl rfl
  · exact .refl c

theorem settles_updateSend (c : Ctx) (packet : Packet) :
    Settles c { c with this := updateSend c.this packet } := by
  unfold updateSend
  dsimp only
  split <;> exact .of_this rfl rfl rfl

theorem settles_ackEstablished (env : Env) (c : Ctx) (packet : Packet) :
    Settles c (ctxOf (ackEstablished env c packet)) := by
  unfold ackEstablished
  split
  · exact (settles_updateSend c packet).trans (settles_ackFin env _ packet)
  · split
    · exact settles_tcpSend c _ _ _
    · exact settles_ackFin env c packet

theorem settles_checkAck (env : Env) (c : Ctx) (packet : Packet) :
    Settles c (ctxOf (checkAck env c packet)) := by
  unfold checkAck
  split
  · exact .refl c
  · cases c.this.tcpstate with
    | synrecv =>
      dsimp only
      split
      · refine Settles.trans ?_ (settles_ackEstablished env _ packet)
        exact ⟨rfl, .inl ⟨rfl, rfl⟩, rfl⟩
      · exact settles_sendReset c _
    | established | finwait1 | finwait2 | closewait | closing =>
      exact settles_ackEstablished env c packet
    | lastack =>
      dsimp only
      split
      · exact settles_closing c _
      · exact .refl c
    | timewait =>
      dsimp only
      split
      · exact .of_this rfl rfl rfl
      · exact .refl c
    | closed | listen | synsent => exact .refl c

theorem settles_receiveData (env : Env) (c : Ctx) (packet : Packet) :
    Settles c (ctxOf (receiveData env c packet)) := by
  unfold receiveData
  split
  · split
    · exact .refl c
    · refine Settles.trans (Settles.trans ?_ (settles_tcpSend _ _ _ _)) (.of_this rfl rfl rfl)
      exact .of_this rfl rfl rfl
  · exact .refl c

theorem settles_finState (env : Env) (c : Ctx) (packet : Packet) :
    Settles c { c with this := finState env c.this packet } := by
  unfold finState
  cases c.this.tcpstate with
  | synrecv | established | finwait1 =>
    dsimp only
    split <;> exact .of_this rfl rfl rfl
  | finwait2 | timewait => exact .of_this rfl rfl rfl
  | closed | listen | synsent | closewait | closing | lastack => exact .refl c

theorem settles_receiveFin (env : Env) (c : Ctx) (packet : Packet) :
    Settles c (ctxOf (receiveFin env c packet)) := by
  unfold receiveFin
  split
  · split
    · have hfin : Settles c { c with this := { finState env c.this packet with
          rcvnxt := packet.seq + 1 } } :=
        (settles_finState env c packet).trans (.of_this rfl rfl rfl)
      exact hfin.trans (settles_tcpSend _ _ _ _)
    · exact .refl c
  · exact .refl c

theorem settles_onSegment (env : Env) (c : Ctx) (packet : Packet) :
    Settles c (ctxOf (onSegment env c packet)) := by
  unfold onSegment
  refine (settles_checkWindow env c packet).bind fun c => ?_
  refine (settles_checkRst env c packet).bind fun c => ?_
  refine (settles_checkSyn env c packet).bind fun c => ?_
  refine (settles_checkAck env c packet).bind fun c => ?_
  refine (settles_receiveData env c packet).bind fun c => ?_
  exact settles_receiveFin env c packet

theorem settles_receiveSyn (c : Ctx) (packet : Packet) (acceptable : Bool) :
    Settles c { c with this := receiveSyn c.this packet acceptable } := by
  unfold receiveSyn
  dsimp only
  split <;> exact .of_this rfl rfl rfl

theorem settles_onSynack (env : Env) (c : Ctx) (packet : Packet) (acceptable : Bool) :
    Settles c (onSynack env c packet acceptable) := by
  have hsyn := settles_receiveSyn c packet acceptable
  unfold onSynack
  dsimp only
  split
  · have hopts := settles_parseoptions { c with this := receiveSyn c.this packet acceptable } packet
      env.opts
    refine Settles.trans (Settles.trans ?_ (settles_tcpSend _ _ _ _)) (.of_this rfl rfl rfl)
    exact (hsyn.trans hopts).trans (.of_this rfl rfl rfl)
  · refine Settles.trans ?_ (settles_tcpSend _ _ _ _)
    exact hsyn.trans (.of_this rfl rfl rfl)

theorem settles_onSynsent (env : Env) (c : Ctx) (packet : Packet) :
    Settles c (onSynsent env c packet) := by
  unfold onSynsent
  dsimp only
  split
  · exact settles_sendReset c _
  · split
    · split
      · refine Settles.trans ?_ (settles_tcpClose _ _)
        exact .of_this rfl rfl rfl
      · exact .refl c
    · split
      · exact settles_onSynack env c packet _
      · split
        · exact settles_sendReset c _
        · exact .refl c

/-! ## The functions -/

/-- A socket for a connection: it has an adapter and a parent. -/
structure Child (child : Socket) : Prop where
  adapter : ∃ a, child.adapter = some a
  parent : ∃ p, child.parent = some p
  live : child.freed = false

/-- A function leaves the resources alone or frees the socket; or it leaves the socket alone and
creates another one. -/
structure Handles (c c' : Ctx) : Prop where
  parent : c'.this.parent = c.this.parent
  owner : c'.this.freed = c.this.freed ∧ c'.this.adapter = c.this.adapter ∨
    c'.this.freed = true ∧ c'.this.adapter = none
  spawned : c'.spawned = c.spawned ∨ ∃ child, c'.spawned = some child ∧ Child child

theorem Settles.handles (h : Settles c c') : Handles c c' := ⟨h.parent, h.owner, .inl h.spawned⟩

theorem Settles.then_handles (h : Settles c c') (h' : Handles c' c'') : Handles c c'' where
  parent := h'.parent.trans h.parent
  owner := by
    rcases h'.owner with ⟨hfreed', hadapter'⟩ | hdone
    · rw [hfreed', hadapter']
      exact h.owner
    · exact .inr hdone
  spawned := by
    rcases h'.spawned with hs | hchild
    · exact .inl (hs.trans h.spawned)
    · exact .inr hchild

/-- A new socket sends `SYN` and `ACK`. -/
theorem child_synack {socket : Socket} (packet : Packet) (opts : Nat → Byte) (now : Nat) {a p : Nat}
    (ha : socket.adapter = some a) (hp : socket.parent = some p) (hl : socket.freed = false) :
    let r := tcpSend { this := tcpParseoptions socket packet opts } now
      { syn := true, ack := true } []
    Child (tcpSetstate { r.this with sndnxt := r.this.sndis + 1, snduna := r.this.sndis }
      .synrecv) := by
  obtain ⟨m, t, f, hopts⟩ := tcpParseoptions_eq socket packet opts
  obtain ⟨queue, hsend⟩ := tcpSend_this { this := tcpParseoptions socket packet opts } now
    { syn := true, ack := true } []
  dsimp only
  rw [hsend, hopts]
  exact ⟨⟨a, ha⟩, ⟨p, hp⟩, hl⟩

theorem handles_onListen (env : Env) (c : Ctx) (conn : Connection) (adapter : Nat)
    (packet : Packet) : Handles c (onListen env c conn adapter packet) := by
  have hthis := onListen_this env c conn adapter packet
  refine ⟨by rw [hthis], .inl ⟨by rw [hthis], by rw [hthis]⟩, ?_⟩
  unfold onListen
  split
  · exact .inl rfl
  · split
    · exact .inl rfl
    · split
      · exact .inr ⟨_, rfl, child_synack packet env.opts env.now rfl rfl rfl⟩
      · exact .inl rfl

theorem handles_tcpNetpacket (env : Env) (this : Socket) (src dest : BitVec 32) (buf : Nat → Byte)
    (length : Nat) : Handles { this } (tcpNetpacket env this src dest buf length) := by
  unfold tcpNetpacket
  dsimp only
  split
  · exact (Settles.refl _).handles
  · next adapter hadapter =>
    have hopts := settles_parseoptions { this } (loadPacket buf length) env.opts
    unfold onPacket
    split
    · exact hopts.then_handles (handles_onListen env _ _ adapter _)
    · exact (hopts.trans (settles_onSynsent env _ _)).handles
    · have h := hopts.trans (settles_onSegment env _ (loadPacket buf length))
      cases hseg : onSegment env _ (loadPacket buf length) with
      | ok c => exact (hseg ▸ h).handles
      | error c => exact (hseg ▸ h).handles

theorem settles_tcpQueueemit (c : Ctx) (now : Nat) (route : Option Nat) (entry : RetransmitEntry) :
    Settles c (tcpQueueemit c now route entry).2 := by
  unfold tcpQueueemit
  split
  · exact .refl c
  · split
    · exact .refl c
    · split
      · exact .of_this rfl rfl rfl
      · split
        · exact ⟨rfl, .inl ⟨rfl, rfl⟩, rfl⟩
        · exact .refl c

theorem settles_queueemitLoop (now : Nat) (route : Option Nat) (entries : List RetransmitEntry)
    (c : Ctx) : Settles c (queueemitLoop now route entries c).2 := by
  induction entries generalizing c with
  | nil => exact .refl c
  | cons entry entries ih => exact (settles_tcpQueueemit c now route entry).trans (ih _)

theorem settles_tcpTimer (c : Ctx) (now : Nat) (route : Option Nat) (connecttimeout : Nat) :
    Settles c (tcpTimer c now route connecttimeout) := by
  unfold tcpTimer
  split
  · exact settles_closing c now
  · split
    · exact .refl c
    · unfold tcpRetransmitall
      split
      · exact .refl c
      · exact (settles_queueemitLoop now route c.this.retransmitqueue c).trans
          (.of_this rfl rfl rfl)

theorem settles_connectWoken (c : Ctx) (now : Nat) : Settles c (connectWoken c now).2 := by
  unfold connectWoken
  split
  · exact .of_this rfl rfl rfl
  · exact .refl c
  · exact settles_closing c now

theorem settles_tcpConnect (env : ConnectEnv) (c : Ctx) (remote : BitVec 32)
    (remoteport : BitVec 16) {a : Nat} {ip : BitVec 32} (hroute : env.route = .ok (a, ip))
    (ha : c.this.adapter = some a) : Settles c (tcpConnect env c remote remoteport).2 := by
  unfold tcpConnect
  split
  · exact .refl c
  · split
    · exact .refl c
    · rw [hroute]
      dsimp only
      split
      · exact .of_this rfl rfl ha.symm
      · split
        · refine Settles.trans (Settles.trans ?_ (settles_tcpSend _ _ _ _)) (.of_this rfl rfl rfl)
          exact .of_this rfl rfl ha.symm
        · refine Settles.trans (Settles.trans ?_ (settles_tcpSend _ _ _ _)) (settles_closing _ env.now)
          exact .of_this rfl rfl ha.symm

/-- `tcp_connect` refuses a socket that is connected, or about to be. -/
def refusesConnect (this : Socket) : Bool :=
  (this.state = .connected && this.tcpstate = .established) || this.tcpstate = .synsent

/-- A socket that gets as far as sending its segment is freed if it cannot be sent. -/
theorem tcpConnect_freed (env : ConnectEnv) {c : Ctx} (remote : BitVec 32)
    (remoteport : BitVec 16) {a : Nat} {ip : BitVec 32} (hroute : env.route = .ok (a, ip))
    (hopen : refusesConnect c.this = false) (hport : env.port ≠ 0) (hlive : c.this.freed = false) :
    (tcpConnect env c remote remoteport).2.this.freed = !env.sends := by
  simp only [refusesConnect, Bool.or_eq_false_iff, Bool.and_eq_false_iff,
    decide_eq_false_iff_not] at hopen
  unfold tcpConnect
  rw [if_neg (by tauto), if_neg hopen.2, hroute]
  dsimp only
  rw [if_neg hport]
  cases env.sends with
  | true =>
    simp [tcpSend_freed, tcpSetstate, hlive]
  | false => rfl

end Lyre.Tcp
