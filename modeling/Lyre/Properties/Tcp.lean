import Lyre.Properties.TcpFrame

/-!
# What a segment does to the receive buffer

Every part of `tcp_netpacket` but one leaves the buffer alone, and that one appends the data of
the segment, wherever in the stream it belongs. `taken` says when, and `afterData` is the socket
with the data. The rest of what a segment does is a `Frame`.
-/

namespace Lyre.Tcp

variable {env : Env} {c c' : Ctx} {this : Socket} {packet : Packet} {now : Nat}

/-! ## The checks -/

/-- The acknowledgement leads to a state in which data is received. -/
def ackReceives (this : Socket) (packet : Packet) : Bool :=
  receiving this.tcpstate && packet.ack ≤ this.sndnxt ||
    this.tcpstate = .synrecv && this.snduna ≤ packet.ack && packet.ack ≤ this.sndnxt

/-- The segment passes the checks that come before its data, and there is room for it. -/
def taken (this : Socket) (packet : Packet) : Bool :=
  acceptable this packet && !packet.header.flags.rst && !packet.header.flags.syn &&
    packet.header.flags.ack && ackReceives this packet && packet.len != 0 &&
    this.rcvbuf.pos + packet.len ≤ this.rcvbuf.size

/-- What becomes of the buffer. -/
def received (this : Socket) (packet : Packet) : Stream :=
  if taken this packet then { this.rcvbuf with buf := this.rcvbuf.buf ++ packet.data }
  else this.rcvbuf

/-- What becomes of the window. -/
def windowLeft (this : Socket) (packet : Packet) : BitVec 32 :=
  if taken this packet then this.rcvwnd - BitVec.ofNat 32 packet.len else this.rcvwnd

/-- The data of the segment is in the buffer, if it is taken. -/
def afterData (c : Ctx) (packet : Packet) : Ctx :=
  { c with this := { c.this with
    rcvbuf := received c.this packet
    rcvwnd := windowLeft c.this packet } }

/-- A part of `tcp_netpacket` that checks something leads on if `P` holds, with nothing sent, and
otherwise the segment is dropped. -/
def Checks (c : Ctx) (P : Ctx → Prop) (Q : Prop) (r : Except Ctx Ctx) : Prop :=
  (∃ c', r = .ok c' ∧ c'.sent = c.sent ∧ P c') ∨ ∃ c', r = .error c' ∧ Q

theorem checkWindow_cases (env : Env) (c : Ctx) (packet : Packet) :
    Checks c (fun c' => c' = c ∧ (synchronized c.this.tcpstate → acceptable c.this packet))
      (acceptable c.this packet = false) (checkWindow env c packet) := by
  unfold checkWindow
  split
  · next h => exact .inr ⟨_, rfl, h.2⟩
  · next h =>
    refine .inl ⟨c, rfl, rfl, rfl, fun hs => ?_⟩
    by_contra hacc
    exact h ⟨hs, Bool.not_eq_true _ ▸ hacc⟩

theorem checkRst_cases (env : Env) (c : Ctx) (packet : Packet) :
    Checks c (fun c' => c' = c ∧ (synchronized c.this.tcpstate → packet.header.flags.rst = false))
      (packet.header.flags.rst = true) (checkRst env c packet) := by
  unfold checkRst
  split
  · next h => exact .inr ⟨_, rfl, h.2⟩
  · next h => exact .inl ⟨c, rfl, rfl, rfl, fun hs => Bool.not_eq_true _ ▸ fun hr => h ⟨hs, hr⟩⟩

theorem checkSyn_cases (env : Env) (c : Ctx) (packet : Packet) :
    Checks c (fun c' => c' = c ∧ (synchronized c.this.tcpstate → packet.header.flags.syn = false))
      (packet.header.flags.syn = true) (checkSyn env c packet) := by
  unfold checkSyn
  split
  · next h => exact .inr ⟨_, rfl, h.2⟩
  · next h => exact .inl ⟨c, rfl, rfl, rfl, fun hs => Bool.not_eq_true _ ▸ fun hr => h ⟨hs, hr⟩⟩

theorem updateSend_tcpstate (this : Socket) (packet : Packet) :
    (updateSend this packet).tcpstate = this.tcpstate := by
  unfold updateSend
  dsimp only
  split <;> rfl

theorem receiving_ackFin (env : Env) (this : Socket) (packet : Packet) :
    receiving (ackFin env this packet).tcpstate = receiving this.tcpstate := by
  unfold ackFin
  split
  · next h =>
    split
    · rw [h]
      rfl
    · rfl
  · next h =>
    split
    · rw [h]
      rfl
    · rfl
  · rfl

theorem ackEstablished_cases (env : Env) (c : Ctx) (packet : Packet) :
    Checks c (fun c' => packet.ack ≤ c.this.sndnxt ∧
        receiving c'.this.tcpstate = receiving c.this.tcpstate)
      (¬ packet.ack ≤ c.this.sndnxt) (ackEstablished env c packet) := by
  unfold ackEstablished
  split
  · next h =>
    refine .inl ⟨_, rfl, rfl, h.2, ?_⟩
    dsimp only
    rw [receiving_ackFin, updateSend_tcpstate]
  · split
    · next h => exact .inr ⟨_, rfl, BitVec.not_le.mpr h⟩
    · next h => exact .inl ⟨_, rfl, rfl, BitVec.not_lt.mp h, receiving_ackFin env c.this packet⟩

/-- What the check of the acknowledgement has to say about data. -/
def AckCases (c : Ctx) (packet : Packet) (r : Except Ctx Ctx) : Prop :=
  Checks c (fun c' => packet.header.flags.ack = true ∧
      receiving c'.this.tcpstate = ackReceives c.this packet)
    ((packet.header.flags.ack && ackReceives c.this packet) = false) r

theorem ackReceives_of_ne (h : this.tcpstate ≠ .synrecv) :
    ackReceives this packet = (receiving this.tcpstate && decide (packet.ack ≤ this.sndnxt)) := by
  unfold ackReceives
  rw [decide_eq_false h, Bool.false_and, Bool.false_and, Bool.or_false]

/-- Neither data nor our `SYN` is waited for. -/
theorem ackReceives_of_idle (hrec : receiving this.tcpstate = false)
    (hne : this.tcpstate ≠ .synrecv) : ackReceives this packet = false := by
  rw [ackReceives_of_ne hne, hrec, Bool.false_and]

theorem ackEstablished_ackCases (hack : packet.header.flags.ack = true)
    (h : c.this.tcpstate ≠ .synrecv) : AckCases c packet (ackEstablished env c packet) := by
  unfold AckCases
  rw [ackReceives_of_ne h]
  rcases ackEstablished_cases env c packet with ⟨c', hc, hsent, hle, hrec⟩ | ⟨c', hc, hle⟩
  · exact .inl ⟨c', hc, hsent, hack, by rw [hrec, decide_eq_true hle, Bool.and_true]⟩
  · exact .inr ⟨c', hc, by rw [decide_eq_false hle, Bool.and_false, Bool.and_false]⟩

/-- The acknowledgement of our `SYN`. -/
theorem ackEstablished_synrecv (hack : packet.header.flags.ack = true)
    (hst : c.this.tcpstate = .synrecv)
    (hin : c.this.snduna ≤ packet.ack ∧ packet.ack ≤ c.this.sndnxt)
    (hsent : c'.sent = c.sent) (hnxt : c'.this.sndnxt = c.this.sndnxt)
    (hst' : c'.this.tcpstate = .established) :
    AckCases c packet (ackEstablished env c' packet) := by
  rcases ackEstablished_cases env c' packet with ⟨d, hd, hsent', -, hrec⟩ | ⟨d, hd, hle⟩
  · refine .inl ⟨d, hd, hsent'.trans hsent, hack, ?_⟩
    unfold ackReceives
    rw [hrec, hst, hst', decide_eq_true hin.1, decide_eq_true hin.2]
    rfl
  · exact absurd (hnxt ▸ hin.2) hle

theorem checkAck_cases (env : Env) (c : Ctx) (packet : Packet) :
    AckCases c packet (checkAck env c packet) := by
  unfold checkAck
  split
  · next h => exact .inr ⟨_, rfl, by rw [eq_false_of_ne_true h, Bool.false_and]⟩
  · next h =>
    have hack : packet.header.flags.ack = true := Decidable.not_not.mp h
    cases hst : c.this.tcpstate with
    | synrecv =>
      dsimp only
      split
      · next hin => exact ackEstablished_synrecv hack hst hin rfl rfl rfl
      · next hin =>
        refine .inr ⟨_, rfl, ?_⟩
        unfold ackReceives
        rw [hst, Bool.and_assoc, ← Bool.decide_and, decide_eq_false hin, Bool.and_false,
          Bool.or_false]
        exact Bool.and_false _
    | established | finwait1 | finwait2 | closewait | closing =>
      exact ackEstablished_ackCases hack (by rw [hst]; decide)
    | lastack =>
      have hno : ackReceives c.this packet = false :=
        ackReceives_of_idle (by rw [hst]; rfl) (by rw [hst]; decide)
      dsimp only
      split
      · exact .inr ⟨_, rfl, by rw [hno, Bool.and_false]⟩
      · exact .inr ⟨_, rfl, by rw [hno, Bool.and_false]⟩
    | timewait =>
      have hno : ackReceives c.this packet = false :=
        ackReceives_of_idle (by rw [hst]; rfl) (by rw [hst]; decide)
      dsimp only
      split
      · exact .inl ⟨_, rfl, rfl, hack, hno ▸ congrArg receiving hst⟩
      · exact .inl ⟨_, rfl, rfl, hack, hno ▸ congrArg receiving hst⟩
    | closed | listen | synsent =>
      have hno : ackReceives c.this packet = false :=
        ackReceives_of_idle (by rw [hst]; rfl) (by rw [hst]; decide)
      exact .inl ⟨_, rfl, rfl, hack, hno ▸ congrArg receiving hst⟩

/-! ## The data -/

theorem afterData_of_not (h : taken c.this packet = false) : afterData c packet = c := by
  unfold afterData received windowLeft
  rw [h]
  rfl

theorem receiveData_cases (env : Env) (c : Ctx) (packet : Packet) :
    (receiving c.this.tcpstate ∧ packet.len ≠ 0 ∧
        c.this.rcvbuf.pos + packet.len ≤ c.this.rcvbuf.size ∧
        Frame { c with this := { c.this with
            rcvbuf := { c.this.rcvbuf with buf := c.this.rcvbuf.buf ++ packet.data }
            rcvwnd := c.this.rcvwnd - BitVec.ofNat 32 packet.len } }
          (ctxOf (receiveData env c packet))) ∨
      ¬ (receiving c.this.tcpstate ∧ packet.len ≠ 0 ∧
        c.this.rcvbuf.pos + packet.len ≤ c.this.rcvbuf.size) ∧
        ctxOf (receiveData env c packet) = c := by
  unfold receiveData
  by_cases h : receiving c.this.tcpstate ∧ packet.len ≠ 0
  · rw [if_pos h]
    by_cases hroom : c.this.rcvbuf.pos + packet.len ≤ c.this.rcvbuf.size
    · have hwrite : tcpStreamwrite c.this.rcvbuf packet.data =
          some { c.this.rcvbuf with buf := c.this.rcvbuf.buf ++ packet.data } :=
        if_neg (Nat.not_lt.mpr hroom)
      rw [hwrite]
      refine .inl ⟨h.1, h.2, hroom, ?_⟩
      refine Frame.trans (Frame.trans ?_ (frame_sendAck _ _)) (.of_this rfl rfl rfl rfl (.refl _))
      exact .of_this rfl rfl rfl rfl (.refl _)
    · have hwrite : tcpStreamwrite c.this.rcvbuf packet.data = none :=
        if_pos (Nat.not_le.mp hroom)
      rw [hwrite]
      exact .inr ⟨fun hall => hroom hall.2.2, rfl⟩
  · rw [if_neg h]
    exact .inr ⟨fun hall => h ⟨hall.1, hall.2.1⟩, rfl⟩

/-- `FIN` is looked at after the data. -/
theorem frame_receiveData_receiveFin (env : Env) (c : Ctx) (packet : Packet) :
    Frame (ctxOf (receiveData env c packet))
      (ctxOf (receiveData env c packet >>= fun c => receiveFin env c packet)) := by
  cases receiveData env c packet with
  | ok c' => exact frame_receiveFin env c' packet
  | error c' => exact .refl c'

theorem synchronized_of_ackReceives (h : ackReceives this packet = true) :
    synchronized this.tcpstate = true := by
  cases hst : this.tcpstate with
  | closed | listen | synsent =>
    rw [ackReceives_of_idle (by rw [hst]; rfl) (by rw [hst]; decide)] at h
    cases h
  | _ => rfl

/-- What is behind the check of the acknowledgement, if the segment passes all checks. -/
theorem frame_afterChecks (hsent : c'.sent = c.sent) (hframe : Frame c c')
    (htaken : taken c.this packet = true ↔ receiving c'.this.tcpstate ∧ packet.len ≠ 0 ∧
      c'.this.rcvbuf.pos + packet.len ≤ c'.this.rcvbuf.size) :
    Frame (afterData c packet)
      (ctxOf (receiveData env c' packet >>= fun c => receiveFin env c packet)) := by
  refine Frame.trans ?_ (frame_receiveData_receiveFin env c' packet)
  rcases receiveData_cases env c' packet with ⟨hrec, hlen, hroom, hdata⟩ | ⟨hno, hdata⟩
  · have htrue := htaken.mpr ⟨hrec, hlen, hroom⟩
    refine Frame.trans ?_ hdata
    refine ⟨⟨?_, ?_, hframe.sndwnd, hframe.moves, ?_, hframe.spawned⟩, hframe.sndnxt⟩
    · simp [afterData, received, htrue, hframe.rcvbuf]
    · simp [afterData, windowLeft, htrue, hframe.rcvwnd]
    · change Answers _ c.sent c'.sent
      rw [hsent]
      exact .refl _ _
  · rw [hdata, afterData_of_not (Bool.eq_false_iff.mpr fun h => hno (htaken.mp h))]
    exact hframe

theorem frame_dropped {r : Except Ctx Ctx} {f : Ctx → Except Ctx Ctx} {d : Ctx}
    (hframe : Frame c (ctxOf r)) (hr : r = .error d) (htaken : taken c.this packet = false) :
    Frame (afterData c packet) (ctxOf (r >>= f)) := by
  rw [afterData_of_not htaken, hr, error_bind, ← hr]
  exact hframe

/-- **A segment brings its data, and otherwise it is a frame.** -/
theorem frame_onSegment (env : Env) (c : Ctx) (packet : Packet) :
    Frame (afterData c packet) (ctxOf (onSegment env c packet)) := by
  unfold onSegment
  rcases checkWindow_cases env c packet with ⟨d, hw, -, rfl, hacc⟩ | ⟨d, hw, hacc⟩
  · rw [hw, ok_bind]
    rcases checkRst_cases env d packet with ⟨e, hr, -, rfl, hrst⟩ | ⟨e, hr, hrst⟩
    · rw [hr, ok_bind]
      rcases checkSyn_cases env e packet with ⟨c, hs, -, rfl, hsyn⟩ | ⟨f, hs, hsyn⟩
      · rw [hs, ok_bind]
        have hframe := frame_checkAck env c packet
        rcases checkAck_cases env c packet with ⟨c', ha, hsent, hack, hrec⟩ | ⟨c', ha, hno⟩
        · rw [ha] at hframe ⊢
          change Frame c c' at hframe
          refine frame_afterChecks hsent hframe ?_
          rw [hframe.rcvbuf, hrec]
          unfold taken
          by_cases hrec' : ackReceives c.this packet = true
          · have hsync := synchronized_of_ackReceives hrec'
            simp [hacc hsync, hrst hsync, hsyn hsync, hack, hrec']
          · simp [hrec']
        · refine frame_dropped hframe ha ?_
          unfold taken
          rw [Bool.and_assoc _ packet.header.flags.ack, hno]
          simp
      · exact frame_dropped (frame_checkSyn env e packet) hs (by simp [taken, hsyn])
    · exact frame_dropped (frame_checkRst env d packet) hr (by simp [taken, hrst])
  · exact frame_dropped (frame_checkWindow env c packet) hw (by simp [taken, hacc])

/-! ## `tcp_netpacket` -/

theorem taken_of_idle (hrec : receiving this.tcpstate = false) (hne : this.tcpstate ≠ .synrecv) :
    taken this packet = false := by
  simp [taken, ackReceives_of_idle hrec hne]

theorem frame_onPacket (env : Env) (conn : Connection) (adapter : Nat) (packet : Packet)
    (h : c.this.tcpstate ≠ .listen) :
    Frame (afterData c packet) (onPacket env c conn adapter packet) := by
  have hseg := frame_onSegment env c packet
  unfold onPacket
  cases hst : c.this.tcpstate with
  | listen => exact absurd hst h
  | synsent =>
    rw [afterData_of_not (taken_of_idle (by rw [hst]; rfl) (by rw [hst]; decide))]
    exact frame_onSynsent env hst packet
  | _ => exact hseg

theorem onPacket_listen (env : Env) (conn : Connection) (adapter : Nat) (packet : Packet)
    (h : c.this.tcpstate = .listen) : (onPacket env c conn adapter packet).this = c.this := by
  unfold onPacket
  rw [h]
  exact onListen_this env c conn adapter packet

theorem onPacket_rcvbuf (env : Env) (c : Ctx) (conn : Connection) (adapter : Nat)
    (packet : Packet) :
    (onPacket env c conn adapter packet).this.rcvbuf = received c.this packet := by
  by_cases h : c.this.tcpstate = .listen
  · have hno : taken c.this packet = false :=
      taken_of_idle (by rw [h]; rfl) (by rw [h]; decide)
    rw [onPacket_listen env conn adapter packet h]
    unfold received
    rw [hno]
    rfl
  · exact (frame_onPacket env conn adapter packet h).rcvbuf

theorem received_parseoptions (this : Socket) (packet : Packet) (opts : Nat → Byte) :
    received (tcpParseoptions this packet opts) packet = received this packet := by
  obtain ⟨m, t, f, h⟩ := tcpParseoptions_eq this packet opts
  rw [h]
  rfl

/-- **What `tcp_netpacket` does to the receive buffer**, if there is an adapter to answer with. -/
theorem tcpNetpacket_rcvbuf (env : Env) (this : Socket) (src dest : BitVec 32)
    (buf : Nat → Byte) (length : Nat) :
    (tcpNetpacket env this src dest buf length).this.rcvbuf =
      if (this.adapter.or env.route).isSome then received this (loadPacket buf length)
      else this.rcvbuf := by
  unfold tcpNetpacket
  dsimp only
  cases this.adapter.or env.route with
  | none => rfl
  | some adapter =>
    dsimp only
    rw [onPacket_rcvbuf, received_parseoptions]
    rfl

theorem frame_tcpNetpacket (env : Env) (src dest : BitVec 32) (buf : Nat → Byte) (length : Nat)
    (h : this.tcpstate ≠ .listen) :
    Frame (if (this.adapter.or env.route).isSome then afterData { this } (loadPacket buf length)
      else { this }) (tcpNetpacket env this src dest buf length) := by
  unfold tcpNetpacket
  dsimp only
  cases this.adapter.or env.route with
  | none => exact .refl _
  | some adapter =>
    obtain ⟨m, t, f, hopt⟩ := tcpParseoptions_eq this (loadPacket buf length) env.opts
    rw [hopt]
    refine Frame.trans ?_ (frame_onPacket env _ adapter _ ?_)
    · exact ⟨⟨rfl, rfl, .inl rfl, .refl _, .refl _ _, rfl⟩, rfl⟩
    · exact h

theorem tcpNetpacket_listen (env : Env) (src dest : BitVec 32) (buf : Nat → Byte) (length : Nat)
    (h : this.tcpstate = .listen) :
    (tcpNetpacket env this src dest buf length).this.tcpstate = .listen := by
  unfold tcpNetpacket
  dsimp only
  cases this.adapter.or env.route with
  | none => exact h
  | some adapter =>
    obtain ⟨m, t, f, hopt⟩ := tcpParseoptions_eq this (loadPacket buf length) env.opts
    rw [hopt]
    dsimp only
    rw [onPacket_listen env _ adapter _ h]
    exact h

end Lyre.Tcp
