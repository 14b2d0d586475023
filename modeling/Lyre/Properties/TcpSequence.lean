import Lyre.Properties.Tcp
import Lyre.Spec.Rfc793

/-!
# Sequence numbers that wrap

The tests of `tcp_netpacket` are those of RFC 793 as long as the numbers that they compare have not
gone past 0 from one to the next. Beyond that, each of them has its own way to be wrong: a window
that wraps has no numbers in it, an acknowledgement of something sent across 0 is taken for one
of something not sent, and the others take the newer number for the older one.
-/

namespace Lyre.Tcp

open Infra.SequenceNumbers

variable {env : Env} {c : Ctx} {this : Socket} {packet : Packet}

/-! ## The tests of the code are its tests -/

theorem onSynackBy_plain (acceptable : Bool) :
    onSynackBy plainTest env c packet acceptable = onSynack env c packet acceptable := by
  simp only [onSynackBy, onSynack, plainTest, decide_eq_true_eq]

theorem onSynsentBy_plain : onSynsentBy plainTest env c packet = onSynsent env c packet := by
  simp only [onSynsentBy, onSynsent, onSynackBy_plain, plainTest, decide_eq_true_eq]

theorem updateSendBy_plain : updateSendBy plainTest this packet = updateSend this packet := by
  simp only [updateSendBy, updateSend, plainTest, decide_eq_true_eq]

theorem ackEstablishedBy_plain :
    ackEstablishedBy plainTest env c packet = ackEstablished env c packet := by
  simp only [ackEstablishedBy, ackEstablished, updateSendBy_plain, plainTest, decide_eq_true_eq]

theorem checkAckBy_plain : checkAckBy plainTest env c packet = checkAck env c packet := by
  unfold checkAckBy checkAck
  cases c.this.tcpstate <;> simp only [ackEstablishedBy_plain, plainTest, decide_eq_true_eq]

theorem onSegmentBy_plain : onSegmentBy plainTest env c packet = onSegment env c packet := by
  simp only [onSegmentBy, onSegment, checkAckBy_plain]
  rfl

theorem onPacketBy_plain (conn : Connection) (adapter : Nat) :
    onPacketBy plainTest env c conn adapter packet = onPacket env c conn adapter packet := by
  unfold onPacketBy onPacket
  rewrite [onSegmentBy_plain, onSynsentBy_plain]
  cases c.this.tcpstate <;> cases onSegment env c packet <;> rfl

/-- With the tests of the code, `netpacketBy` is `tcp_netpacket`. -/
theorem netpacketBy_plain (env : Env) (this : Socket) (src dest : BitVec 32) (buf : Nat → Byte)
    (length : Nat) :
    netpacketBy plainTest env this src dest buf length =
      tcpNetpacket env this src dest buf length := by
  unfold netpacketBy tcpNetpacket
  cases this.adapter.or env.route with
  | none => rfl
  | some adapter => exact onPacketBy_plain _ adapter

/-! ## The tests -/

/-- The end of a window lies behind its begin, and a segment that begins before the window does not
reach beyond 0. -/
def WindowUnwrapped (this : Socket) (packet : Packet) : Prop :=
  this.rcvnxt.toNat + this.rcvwnd.toNat < 2 ^ 32 ∧
    (InSpan this.rcvnxt this.rcvwnd packet.seq ∨ packet.seq.toNat + packet.seglen ≤ 2 ^ 32)

/-- The numbers that a test compares do not pass 0, or it does not matter. -/
def Unwrapped (this : Socket) (packet : Packet) : Test → Prop
  | .window => rfcWindow this packet → this.rcvwnd = 0 ∨ WindowUnwrapped this packet
  | .unasked => Passed this.sndis packet.ack this.sndnxt → this.sndis ≤ this.sndnxt
  | .acceptable | .handshake =>
    Between this.snduna packet.ack this.sndnxt → this.snduna ≤ this.sndnxt
  | .acked => Near this.sndis this.snduna
  | .fresh => Passed this.snduna packet.ack this.sndnxt → this.snduna ≤ this.sndnxt
  | .unsent => Near this.sndnxt packet.ack
  | .newer =>
    Near this.sndwl1 packet.seq ∧ (this.sndwl1 = packet.seq → Near this.sndwl2 packet.ack)

theorem plain_last_iff {seq nxt wnd : BitVec 32} {n : Nat} :
    nxt.toNat ≤ seq.toNat + n ∧ seq.toNat + n < (nxt + wnd).toNat ↔
      InSpan nxt wnd (seq + BitVec.ofNat 32 n) ∧ nxt.toNat + wnd.toNat < 2 ^ 32 ∧
        seq.toNat + n < 2 ^ 32 := by
  have hend := (nxt + wnd).isLt
  have hlast : (seq + BitVec.ofNat 32 n).toNat = (seq.toNat + n) % 2 ^ 32 := by
    rw [BitVec.toNat_add, BitVec.toNat_ofNat, Nat.add_mod_mod]
  rw [← and_assoc, ← plain_window_iff, BitVec.le_def, BitVec.lt_def, hlast]
  constructor
  · rintro ⟨hle, hlt⟩
    rw [Nat.mod_eq_of_lt (by omega)]
    exact ⟨⟨hle, hlt⟩, by omega⟩
  · rintro ⟨⟨hle, hlt⟩, h⟩
    rw [Nat.mod_eq_of_lt h] at hle hlt
    exact ⟨hle, hlt⟩

theorem acceptable_iff :
    acceptable this packet = true ↔
      rfcWindow this packet ∧ (this.rcvwnd = 0 ∨ WindowUnwrapped this packet) := by
  unfold acceptable rfcWindow WindowUnwrapped
  dsimp only
  by_cases hlen : packet.seglen = 0
  · by_cases hwnd : this.rcvwnd = 0
    · simp only [if_pos hlen, if_pos hwnd, decide_eq_true_eq]
      exact (and_iff_left (.inl hwnd)).symm
    · simp only [if_pos hlen, if_neg hwnd, decide_eq_true_eq, or_iff_right hwnd]
      rw [plain_window_iff]
      exact ⟨fun h => ⟨h.1, h.2, .inl h.1⟩, fun h => ⟨h.1, h.2.1⟩⟩
  · by_cases hwnd : this.rcvwnd = 0
    · simp only [if_neg hlen, if_pos hwnd]
      exact iff_of_false Bool.false_ne_true fun h => h.1.1 hwnd
    · simp only [if_neg hlen, if_neg hwnd, decide_eq_true_eq, or_iff_right hwnd]
      rw [plain_window_iff, Nat.add_sub_assoc (by omega), plain_last_iff]
      constructor
      · rintro (⟨hin, hend⟩ | ⟨hin, hend, hlast⟩)
        · exact ⟨⟨hwnd, .inl hin⟩, hend, .inl hin⟩
        · exact ⟨⟨hwnd, .inr hin⟩, hend, .inr (by omega)⟩
      · rintro ⟨⟨-, hin | hin⟩, hend, h⟩
        · exact .inl ⟨hin, hend⟩
        · rcases h with h | h
          · exact .inl ⟨h, hend⟩
          · exact .inr ⟨hin, hend, by omega⟩

theorem plain_eq_rfc_iff (this : Socket) (packet : Packet) (t : Test) :
    plainTest this packet t = rfcTest this packet t ↔ Unwrapped this packet t := by
  rw [Bool.eq_iff_iff]
  cases t with
  | window =>
    change (acceptable this packet = true ↔ decide (rfcWindow this packet) = true) ↔ _
    rw [acceptable_iff, decide_eq_true_eq]
    exact and_iff_left_iff_imp
  | unasked =>
    have hnot : packet.ack ≤ this.sndis ∨ this.sndnxt < packet.ack ↔
        ¬ (this.sndis < packet.ack ∧ packet.ack ≤ this.sndnxt) := by
      rw [not_and_or, BitVec.not_lt, BitVec.not_le]
    simp only [plainTest, rfcTest, Unwrapped, decide_eq_true_eq]
    rw [hnot, plain_passed_iff, not_iff_not]
    exact and_iff_left_iff_imp
  | acceptable | handshake =>
    simp only [plainTest, rfcTest, Unwrapped, decide_eq_true_eq]
    rw [plain_between_iff]
    exact and_iff_left_iff_imp
  | fresh =>
    simp only [plainTest, rfcTest, Unwrapped, decide_eq_true_eq]
    rw [plain_passed_iff]
    exact and_iff_left_iff_imp
  | acked | unsent =>
    simp only [plainTest, rfcTest, Unwrapped, decide_eq_true_eq]
    exact plain_lt_iff (by decide)
  | newer =>
    simp only [plainTest, rfcTest, Unwrapped, decide_eq_true_eq]
    rw [← plain_lt_iff (by decide), ← plain_le_iff (by decide)]
    rcases eq_or_ne this.sndwl1 packet.seq with heq | hne
    · rw [heq]
      simp [Precedes]
    · simp [hne]

/-- `tcp_netpacket` makes eight tests, and each of them is the one of RFC 793 exactly where its
numbers do not wrap. -/
theorem tests_iff (env : Env) (this : Socket) (src dest : BitVec 32) (buf : Nat → Byte)
    (length : Nat) :
    tcpNetpacket env this src dest buf length =
      netpacketBy plainTest env this src dest buf length ∧
    ∀ (this : Socket) (packet : Packet) (t : Test),
      plainTest this packet t = rfcTest this packet t ↔ Unwrapped this packet t :=
  ⟨(netpacketBy_plain env this src dest buf length).symm, plain_eq_rfc_iff⟩

/-- A socket whose window begins just below 0. -/
def wrapping : Socket :=
  { socketCreateTcp with tcpstate := .established, rcvnxt := 0xfffffff0, rcvwnd := 0xffff }

/-- The byte that it has to receive next. -/
def nextByte : Packet where
  header := ⟨0x5000, 0xc0, bswap32 0xfffffff0, 0, 5, { ack := true }, 0x20⟩
  data := [0x61]

/-- The byte is in the window, and it is refused. -/
theorem window_wraps : plainTest wrapping nextByte .window ≠ rfcTest wrapping nextByte .window := by
  decide

/-! ## Where nothing wraps -/

/-- The tests that are made for a socket and a packet are those of RFC 793. -/
def Agrees (this : Socket) (packet : Packet) : Prop :=
  ∀ t ≠ .acked, Unwrapped this packet t

theorem Agrees.eq (h : Agrees this packet) {t : Test} (ht : t ≠ .acked) :
    rfcTest this packet t = plainTest this packet t :=
  ((plain_eq_rfc_iff this packet t).mpr (h t ht)).symm

theorem Agrees.congr {this' : Socket} (h : Agrees this packet)
    (hwl : this'.sndwl1 = this.sndwl1 ∧ this'.sndwl2 = this.sndwl2)
    (hrcv : this'.rcvnxt = this.rcvnxt ∧ this'.rcvwnd = this.rcvwnd)
    (hsnd : this'.snduna = this.snduna ∧ this'.sndnxt = this.sndnxt ∧ this'.sndis = this.sndis) :
    Agrees this' packet := by
  intro t ht
  have hu := h t ht
  unfold Unwrapped rfcWindow WindowUnwrapped at hu ⊢
  rw [hwl.1, hwl.2, hrcv.1, hrcv.2, hsnd.1, hsnd.2.1, hsnd.2.2]
  exact hu

theorem Checks.bind_congr {P : Ctx → Prop} {Q : Prop} {r : Except Ctx Ctx}
    {f g : Ctx → Except Ctx Ctx} (hr : Checks c (fun c' => c' = c ∧ P c') Q r) (h : f c = g c) : r >>= f = r >>= g := by
  rcases hr with ⟨c', rfl, -, rfl, -⟩ | ⟨e, rfl, -⟩
  · exact h
  · rfl

end Lyre.Tcp
