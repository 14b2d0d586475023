import Lyre.Properties.TcpOwner
import Lyre.Properties.TcpSequence

/-!
# `FIN` behind data

`receiveData` moves `rcvnxt` behind the data and the `FIN` of a segment, and `receiveFin` sets it to
the number behind the first one. So a `FIN` is acknowledged where it comes alone. Where it comes with
data, the acknowledgement that is sent last takes the data back.
-/

namespace Lyre.Tcp

open Infra.SequenceNumbers

variable {env : Env} {c c' : Ctx} {this : Socket} {packet : Packet} {now : Nat}

/-! ## The next number -/

theorem tcpSend_rcvnxt (c : Ctx) (now : Nat) (flags : Flags) (data : List Byte) :
    (tcpSend c now flags data).this.rcvnxt = c.this.rcvnxt := by
  obtain ⟨queue, hq⟩ := tcpSend_this c now flags data
  rw [hq]

theorem checkWindow_rcvnxt (env : Env) (c : Ctx) (packet : Packet) :
    (ctxOf (checkWindow env c packet)).this.rcvnxt = c.this.rcvnxt := by
  unfold checkWindow
  split
  · dsimp only [ctxOf]
    split
    · rfl
    · exact tcpSend_rcvnxt c _ _ _
  · rfl

theorem checkRst_rcvnxt (env : Env) (c : Ctx) (packet : Packet) :
    (ctxOf (checkRst env c packet)).this.rcvnxt = c.this.rcvnxt := by
  unfold checkRst
  split <;> rfl

theorem checkSyn_rcvnxt (env : Env) (c : Ctx) (packet : Packet) :
    (ctxOf (checkSyn env c packet)).this.rcvnxt = c.this.rcvnxt := by
  unfold checkSyn
  split
  · exact tcpSend_rcvnxt c _ _ _
  · rfl

theorem updateSend_rcvnxt (this : Socket) (packet : Packet) :
    (updateSend this packet).rcvnxt = this.rcvnxt := by
  unfold updateSend
  dsimp only
  split <;> rfl

theorem ackFin_rcvnxt (env : Env) (this : Socket) (packet : Packet) :
    (ackFin env this packet).rcvnxt = this.rcvnxt := by
  unfold ackFin
  split
  · split <;> rfl
  · split <;> rfl
  · rfl

theorem ackEstablished_rcvnxt (env : Env) (c : Ctx) (packet : Packet) :
    (ctxOf (ackEstablished env c packet)).this.rcvnxt = c.this.rcvnxt := by
  unfold ackEstablished
  split
  · exact (ackFin_rcvnxt env _ packet).trans (updateSend_rcvnxt c.this packet)
  · split
    · exact tcpSend_rcvnxt c _ _ _
    · exact ackFin_rcvnxt env c.this packet

theorem checkAck_of_receiving (env : Env) (packet : Packet) (h : receiving c.this.tcpstate = true) :
    checkAck env c packet =
      if packet.header.flags.ack then ackEstablished env c packet else .error c := by
  unfold checkAck
  rw [ite_not]
  cases hst : c.this.tcpstate <;> rw [hst] at h <;> first | rfl | cases h

theorem checkAck_rcvnxt (env : Env) (packet : Packet) (h : receiving c.this.tcpstate = true) :
    (ctxOf (checkAck env c packet)).this.rcvnxt = c.this.rcvnxt := by
  rw [checkAck_of_receiving env packet h]
  split
  · exact ackEstablished_rcvnxt env c packet
  · rfl

theorem dropped_rcvnxt {r : Except Ctx Ctx} {f : Ctx → Except Ctx Ctx} {d : Ctx}
    (hnxt : (ctxOf r).this.rcvnxt = c.this.rcvnxt) (hr : r = .error d) :
    (ctxOf (r >>= f)).this.rcvnxt = c.this.rcvnxt := by
  rw [hr] at hnxt ⊢
  exact hnxt

/-! ## The checks -/

/-- What a socket that receives data looks at before the data. -/
def passes (this : Socket) (packet : Packet) : Bool :=
  acceptable this packet && !packet.header.flags.rst && !packet.header.flags.syn &&
    packet.header.flags.ack && packet.ack ≤ this.sndnxt

theorem ackReceives_of_receiving (h : receiving this.tcpstate = true) :
    ackReceives this packet = decide (packet.ack ≤ this.sndnxt) := by
  have hne : this.tcpstate ≠ .synrecv := fun heq => by
    rw [heq] at h
    cases h
  rw [ackReceives_of_ne hne, h, Bool.true_and]

theorem synchronized_of_receiving (h : receiving this.tcpstate = true) :
    synchronized this.tcpstate = true := by
  cases hst : this.tcpstate with
  | closed | listen | synsent =>
    rw [hst] at h
    cases h
  | _ => rfl

theorem onSegment_of_passes (env : Env) (hst : receiving c.this.tcpstate = true)
    (h : passes c.this packet = true) :
    ∃ c', onSegment env c packet = (receiveData env c' packet >>= fun c => receiveFin env c packet) ∧
      receiving c'.this.tcpstate = true ∧ c'.this.rcvnxt = c.this.rcvnxt ∧
      c'.this.rcvbuf = c.this.rcvbuf := by
  have hsync := synchronized_of_receiving hst
  unfold passes at h
  simp only [Bool.and_eq_true, Bool.not_eq_true'] at h
  obtain ⟨⟨⟨⟨hacc, hrst⟩, hsyn⟩, hack⟩, hle⟩ := h
  have hwindow : checkWindow env c packet = .ok c := if_neg fun hc => by
    rw [hacc] at hc
    cases hc.2
  have hcrst : checkRst env c packet = .ok c := if_neg fun hc => by
    rw [hrst] at hc
    cases hc.2
  have hcsyn : checkSyn env c packet = .ok c := if_neg fun hc => by
    rw [hsyn] at hc
    cases hc.2
  have hframe := frame_checkAck env c packet
  have hnxt := checkAck_rcvnxt env packet hst
  unfold onSegment
  rw [hwindow, ok_bind, hcrst, ok_bind, hcsyn, ok_bind]
  rcases checkAck_cases env c packet with ⟨c', ha, -, -, hrec⟩ | ⟨c', ha, hno⟩
  · rw [ha] at hframe hnxt ⊢
    refine ⟨c', rfl, ?_, hnxt, hframe.rcvbuf⟩
    rw [hrec, ackReceives_of_receiving hst]
    exact hle
  · rw [ackReceives_of_receiving hst, hack, hle] at hno
    cases hno

theorem taken_of_not_passes (hst : receiving this.tcpstate = true)
    (h : passes this packet = false) : taken this packet = false := by
  unfold taken
  unfold passes at h
  rw [ackReceives_of_receiving hst, h]
  rfl

theorem onSegment_of_not_passes (env : Env) (hst : receiving c.this.tcpstate = true)
    (h : passes c.this packet = false) :
    (ctxOf (onSegment env c packet)).this.rcvnxt = c.this.rcvnxt ∧
      (ctxOf (onSegment env c packet)).this.rcvbuf = c.this.rcvbuf := by
  constructor
  · unfold onSegment
    rcases checkWindow_cases env c packet with ⟨d, hw, -, rfl, hacc⟩ | ⟨d, hw, -⟩
    · rw [hw, ok_bind]
      rcases checkRst_cases env d packet with ⟨e, hr, -, rfl, hrst⟩ | ⟨e, hr, -⟩
      · rw [hr, ok_bind]
        rcases checkSyn_cases env e packet with ⟨c, hs, -, rfl, hsyn⟩ | ⟨f, hs, -⟩
        · rw [hs, ok_bind]
          have hsync := synchronized_of_receiving hst
          have hnxt := checkAck_rcvnxt env packet hst
          rw [checkAck_of_receiving env packet hst] at hnxt ⊢
          split at hnxt
          · next hack =>
            rw [if_pos hack]
            rcases ackEstablished_cases env c packet with ⟨c', -, -, hle, -⟩ | ⟨c', ha, -⟩
            · exfalso
              simp [passes, hacc hsync, hrst hsync, hsyn hsync, hack, hle] at h
            · exact dropped_rcvnxt hnxt ha
          · next hack =>
            rw [if_neg hack]
            rfl
        · exact dropped_rcvnxt (checkSyn_rcvnxt env e packet) hs
      · exact dropped_rcvnxt (checkRst_rcvnxt env d packet) hr
    · exact dropped_rcvnxt (checkWindow_rcvnxt env c packet) hw
  · rw [(frame_onSegment env c packet).rcvbuf]
    change received c.this packet = c.this.rcvbuf
    unfold received
    rw [taken_of_not_passes hst h]
    rfl

/-! ## Data and `FIN` -/

/-- Behind `FIN`, the number is the one behind the first byte, and it is acknowledged. -/
theorem receiveFin_spec (env : Env) (hst : receiving c.this.tcpstate = true)
    (hfin : packet.header.flags.fin = true) :
    (ctxOf (receiveFin env c packet)).this.rcvnxt = packet.seq + 1 ∧
      ∃ seg, (ctxOf (receiveFin env c packet)).sent.getLast? = some seg ∧
        seg.flags.ack = true ∧ seg.ack = packet.seq + 1 := by
  unfold receiveFin
  rw [if_pos hfin, if_pos (synchronized_of_receiving hst)]
  refine ⟨tcpSend_rcvnxt _ _ _ _, _, List.getLast?_concat, rfl, ?_⟩
  rfl

/-- Data for which there is no room stops the segment, and otherwise the socket still receives. -/
theorem receiveData_spec (env : Env) (packet : Packet) (hst : receiving c.this.tcpstate = true) :
    (∃ c', receiveData env c packet = .ok c' ∧ receiving c'.this.tcpstate = true) ∨
      receiveData env c packet = .error c := by
  unfold receiveData
  split
  · cases tcpStreamwrite c.this.rcvbuf packet.data with
    | none => exact .inr rfl
    | some rcvbuf =>
      refine .inl ⟨_, rfl, ?_⟩
      obtain ⟨queue, hq⟩ := tcpSend_this
        { c with this := { c.this with
          rcvbuf
          rcvnxt := packet.seq + BitVec.ofNat 32 packet.seglen
          rcvwnd := c.this.rcvwnd - BitVec.ofNat 32 packet.len } } env.now { ack := true } []
      unfold sendAck
      dsimp only
      rw [hq]
      exact hst
  · exact .inl ⟨c, rfl, hst⟩

/-- The data is in the buffer, and it is acknowledged together with the `FIN`. -/
def Delivered (this : Socket) (packet : Packet) (c : Ctx) : Prop :=
  c.this.rcvbuf.buf = this.rcvbuf.buf ++ packet.data ∧
    c.this.rcvnxt = packet.seq + BitVec.ofNat 32 packet.len + 1 ∧
    ∃ seg, c.sent.getLast? = some seg ∧ seg.flags.ack = true ∧
      seg.ack = packet.seq + BitVec.ofNat 32 packet.len + 1

/-- Neither the number in front of the data nor the one behind its first byte is right where there
is data. -/
theorem next_ne {seq : BitVec 32} {len : Nat} (hlen : len ≠ 0) (hlt : len < 2 ^ 32) :
    seq + BitVec.ofNat 32 len + 1 ≠ seq + 1 := by
  intro h
  have hz : BitVec.ofNat 32 len = 0#32 := BitVec.add_right_eq_self.mp ((BitVec.add_left_inj 1).mp h)
  have hnat := congrArg BitVec.toNat hz
  rw [BitVec.toNat_ofNat, Nat.mod_eq_of_lt hlt] at hnat
  exact hlen hnat

theorem Delivered.data_eq (h : Delivered this packet c) (hbuf : c.this.rcvbuf = this.rcvbuf) :
    packet.data = [] := by
  have happ := h.1
  rw [hbuf] at happ
  exact List.self_eq_append_right.mp happ

theorem onSegment_fin_iff (env : Env) (hst : receiving c.this.tcpstate = true)
    (hseq : packet.seq = c.this.rcvnxt) (hfin : packet.header.flags.fin = true)
    (hlt : packet.len < 2 ^ 32) :
    Delivered c.this packet (ctxOf (onSegment env c packet)) ↔
      packet.data = [] ∧ passes c.this packet = true := by
  cases hpass : passes c.this packet with
  | false =>
    obtain ⟨hnxt, hbuf⟩ := onSegment_of_not_passes env hst hpass
    refine iff_of_false (fun h => ?_) fun h => Bool.false_ne_true h.2
    have hlen : packet.len = 0 := List.length_eq_zero_iff.mpr (h.data_eq hbuf)
    have hnxt' := h.2.1
    rw [hnxt, ← hseq, hlen, BitVec.add_zero] at hnxt'
    exact absurd (BitVec.add_right_eq_self.mp hnxt'.symm) (by decide)
  | true =>
    obtain ⟨c', heq, hst', hnxt, hbuf⟩ := onSegment_of_passes env hst hpass
    rw [heq, eq_self, and_true]
    constructor
    · intro h
      rcases receiveData_spec env packet hst' with ⟨d, hd, hstd⟩ | hd
      · rw [hd, ok_bind] at h
        by_contra hdata
        have hlen : packet.len ≠ 0 := fun hz => hdata (List.eq_nil_of_length_eq_zero hz)
        have hnxt' := h.2.1
        rw [(receiveFin_spec env hstd hfin).1] at hnxt'
        exact next_ne hlen hlt hnxt'.symm
      · rw [hd, error_bind] at h
        exact h.data_eq hbuf
    · intro hdata
      have hlen : packet.len = 0 := List.length_eq_zero_iff.mpr hdata
      have hd : receiveData env c' packet = .ok c' := if_neg fun hc => hc.2 hlen
      obtain ⟨hfinal, hsent⟩ := receiveFin_spec env hst' hfin
      rw [hd, ok_bind]
      unfold Delivered
      rw [hlen, BitVec.add_zero, hdata, List.append_nil]
      refine ⟨?_, hfinal, hsent⟩
      rw [(frame_receiveFin env c' packet).rcvbuf, hbuf]

/-- The window is not empty and does not wrap, the segment acknowledges nothing that was not sent,
and there is an adapter to answer with. -/
def Arrives (env : Env) (this : Socket) (packet : Packet) : Prop :=
  (this.rcvwnd ≠ 0 ∧ this.rcvnxt.toNat + this.rcvwnd.toNat < 2 ^ 32) ∧
    packet.header.flags.rst = false ∧ packet.header.flags.syn = false ∧
    packet.header.flags.ack = true ∧ packet.ack ≤ this.sndnxt ∧
    (this.adapter.or env.route).isSome = true

instance (env : Env) (this : Socket) (packet : Packet) : Decidable (Arrives env this packet) := by
  unfold Arrives
  infer_instance

theorem acceptable_next (hseq : packet.seq = this.rcvnxt) (hfin : packet.header.flags.fin = true) :
    acceptable this packet = true ↔
      this.rcvwnd ≠ 0 ∧ this.rcvnxt.toNat + this.rcvwnd.toNat < 2 ^ 32 := by
  have hlen : packet.seglen ≠ 0 := by
    unfold Packet.seglen
    rw [hfin]
    exact Nat.succ_ne_zero _
  have hin : this.rcvwnd ≠ 0 → InSpan this.rcvnxt this.rcvwnd packet.seq := by
    intro hwnd
    rw [hseq, InSpan, BitVec.sub_self]
    have hpos : this.rcvwnd.toNat ≠ 0 := fun hz => hwnd (BitVec.eq_of_toNat_eq hz)
    exact BitVec.lt_def.mpr (Nat.pos_of_ne_zero hpos)
  rw [acceptable_iff]
  unfold rfcWindow WindowUnwrapped
  rw [if_neg hlen]
  constructor
  · rintro ⟨⟨hwnd, -⟩, hz | ⟨hend, -⟩⟩
    · exact absurd hz hwnd
    · exact ⟨hwnd, hend⟩
  · rintro ⟨hwnd, hend⟩
    exact ⟨⟨hwnd, .inl (hin hwnd)⟩, .inr ⟨hend, .inl (hin hwnd)⟩⟩

theorem loadPacket_len_lt (buf : Nat → Byte) (length : Nat) :
    (loadPacket buf length).len < 2 ^ 32 := by
  unfold loadPacket Packet.len
  dsimp only
  rw [List.length_map, List.length_range]
  exact Nat.mod_lt _ (Nat.two_pow_pos 32)

theorem onPacket_of_receiving (env : Env) (conn : Connection) (adapter : Nat) (packet : Packet)
    (h : receiving c.this.tcpstate = true) :
    onPacket env c conn adapter packet = ctxOf (onSegment env c packet) := by
  unfold onPacket
  cases hst : c.this.tcpstate with
  | established | finwait1 | finwait2 => rfl
  | _ =>
    rw [hst] at h
    cases h

/-- The next segment with a `FIN` is received as it should be if it has no data and is not dropped,
and in no other case. -/
theorem tcpNetpacket_fin_iff (env : Env) (this : Socket) (src dest : BitVec 32) (buf : Nat → Byte)
    (length : Nat) (hst : receiving this.tcpstate = true)
    (hseq : (loadPacket buf length).seq = this.rcvnxt)
    (hfin : (loadPacket buf length).header.flags.fin = true) :
    Delivered this (loadPacket buf length) (tcpNetpacket env this src dest buf length) ↔
      (loadPacket buf length).data = [] ∧ Arrives env this (loadPacket buf length) := by
  have hlt := loadPacket_len_lt buf length
  unfold tcpNetpacket Arrives
  dsimp only
  generalize loadPacket buf length = packet at hseq hfin hlt ⊢
  cases this.adapter.or env.route with
  | none =>
    refine iff_of_false ?_ fun h => Bool.false_ne_true h.2.2.2.2.2.2
    rintro ⟨-, -, seg, hseg, -⟩
    cases hseg
  | some adapter =>
    obtain ⟨m, t, f, hopt⟩ := tcpParseoptions_eq this packet env.opts
    have hiff := onSegment_fin_iff (c := { this := tcpParseoptions this packet env.opts }) env
      (by rw [hopt]; exact hst) (by rw [hopt]; exact hseq) hfin hlt
    dsimp only
    rw [onPacket_of_receiving env _ adapter packet (by rw [hopt]; exact hst)]
    rw [hopt] at hiff ⊢
    refine hiff.trans (and_congr_right fun _ => ?_)
    change passes this packet = true ↔ _
    unfold passes
    simp only [Bool.and_eq_true, Bool.not_eq_true', decide_eq_true_eq, acceptable_next hseq hfin]
    simp only [and_assoc, Option.isSome_some, and_true]

/-- A connection that waits for byte 1000. -/
def waiting : Socket :=
  { socketCreateTcp with
    state := .connected, adapter := some 0, tcpstate := .established, rcvnxt := 1000
    rcvwnd := 0xffff }

def quietEnv : Env := ⟨0, 0, none, fun _ => 0, 0⟩

/-- The bytes of a segment with number 1000, `FIN` and `ACK`. -/
def finSegment (data : List Byte) : Nat → Byte := fun k =>
  ([0, 80, 0xc0, 0, 0, 0, 0x03, 0xe8, 0, 0, 0, 0, 0x50, 0x11, 0x20, 0, 0, 0, 0, 0] ++ data).getD k 0

theorem tcpNetpacket_fin_iff_waiting :
    Delivered waiting (loadPacket (finSegment []) 0)
        (tcpNetpacket quietEnv waiting 0 0 (finSegment []) 0) ↔
      (loadPacket (finSegment []) 0).data = [] ∧
        Arrives quietEnv waiting (loadPacket (finSegment []) 0) :=
  tcpNetpacket_fin_iff quietEnv waiting 0 0 (finSegment []) 0 (by decide) (by decide) (by decide)

/-- A segment with one byte and `FIN` is acknowledged with 1001 in the end. -/
theorem fin_takes_back :
    ¬ Delivered waiting (loadPacket (finSegment [0x61]) 1)
      (tcpNetpacket quietEnv waiting 0 0 (finSegment [0x61]) 1) := by
  rintro ⟨-, hnxt, -⟩
  revert hnxt
  decide

end Lyre.Tcp
