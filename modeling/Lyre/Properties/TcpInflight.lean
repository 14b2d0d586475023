import Lyre.Properties.TcpWindow
import Lyre.Properties.TcpWrite

/-!
# The window of the other side

The other side says in a field of two bytes how much it takes. The code swaps four bytes of it, and
so `sndwnd` has the window in its upper half. It says no to data in one case only: if what is in
flight has that very length.

`Peer` is a socket with the window that has been advertised last, and `log` says for every segment
with data how much is in flight with it, and how much may be.
-/

namespace Lyre.Tcp

open Infra

variable {env : WriteEnv} {fuel : Nat} {c c' : Ctx} {rest buf : List Byte} {o : Sending}
  {sock : Socket}

/-! ## The window -/

/-- The segment acknowledges something that has been sent, and it is not dropped before. -/
def acceptableAck (this : Socket) (packet : Packet) : Bool :=
  match this.tcpstate with
  | .synsent =>
    packet.header.flags.syn && packet.header.flags.ack && !packet.header.flags.rst &&
      this.snduna ≤ packet.ack && this.sndis < packet.ack && packet.ack ≤ this.sndnxt
  | .synrecv | .established | .finwait1 | .finwait2 | .closewait | .closing =>
    acceptable this packet && !packet.header.flags.rst && !packet.header.flags.syn &&
      packet.header.flags.ack && this.snduna < packet.ack && packet.ack ≤ this.sndnxt
  | _ => false

/-- The window that has been advertised last, after a segment. -/
def advertised (this : Socket) (adv : BitVec 16) (arrival : Arrival) : BitVec 16 :=
  let packet := loadPacket arrival.buf arrival.length
  if (this.adapter.or arrival.env.route).isSome && acceptableAck this packet then
    bswap16 packet.header.winsize
  else adv

structure Peer where
  sock : Socket
  adv : BitVec 16
  /-- For each segment with data: what is in flight with it, and what may be. -/
  log : List (Nat × Nat)
  deriving DecidableEq, Repr

inductive PeerEvent where
  | segment (arrival : Arrival)
  /-- A pass of the loop in `tcp_write` or `tcp_sendmsg`. -/
  | write (env : WriteEnv) (fuel : Nat) (buf : List Byte)

/-- The bytes in flight after a segment. -/
def flight (snduna : BitVec 32) (seg : Segment) : Nat :=
  (seg.seq - snduna).toNat + seg.data.length

def Peer.logged (s : Peer) (segs : List Segment) : List (Nat × Nat) :=
  (segs.filter (·.data != [])).map fun seg => (flight s.sock.snduna seg, s.adv.toNat)

/-- A pass that does not return is no step. -/
def Peer.next (s : Peer) : PeerEvent → Option Peer
  | .segment arrival =>
    some { s with sock := arrive s.sock arrival, adv := advertised s.sock s.adv arrival }
  | .write env fuel buf =>
    (writeEntry env fuel { this := s.sock } buf).map fun r =>
      { s with sock := r.2.this, log := s.log ++ s.logged r.2.sent }

/-- The states in which data is sent. -/
def writable (this : Socket) : Bool :=
  this.tcpstate = .established || this.tcpstate = .closewait

/-- The bytes of a pass fit into the window with what is in flight, or `sndwnd` is used up. -/
def InWindow (s : Peer) : PeerEvent → Prop
  | .segment _ => True
  | .write _ _ buf => writable s.sock → buf ≠ [] →
    s.sock.cap = 0 ∨ s.sock.inflight + buf.length ≤ s.adv.toNat

instance (s : Peer) : ∀ event, Decidable (InWindow s event)
  | .segment _ => inferInstanceAs (Decidable True)
  | .write .. => inferInstanceAs (Decidable (_ → _ → _))

/-! ## Bytes in flight -/

theorem toNat_next (seq una : BitVec 32) {n : Nat} (h : (seq - una).toNat + n < 2 ^ 32) :
    (seq + BitVec.ofNat 32 n - una).toNat = (seq - una).toNat + n := by
  have heq : seq + BitVec.ofNat 32 n - una = (seq - una) + BitVec.ofNat 32 n := by bv_omega
  rw [heq, BitVec.toNat_add, BitVec.toNat_ofNat, Nat.mod_eq_of_lt (show n < 2 ^ 32 by omega),
    Nat.mod_eq_of_lt h]

theorem payload_cons (seg : Segment) (segs : List Segment) :
    payload (seg :: segs) = seg.data ++ payload segs := rfl

theorem Consecutive.flight_le (una : BitVec 32) : ∀ {seq : BitVec 32} {segs : List Segment},
    Consecutive seq segs → (seq - una).toNat + (payload segs).length < 2 ^ 32 →
    ∀ seg ∈ segs, flight una seg ≤ (seq - una).toNat + (payload segs).length
  | seq, seg :: segs, h, hlt, seg', hmem => by
    rw [payload_cons, List.length_append] at hlt ⊢
    rcases List.mem_cons.mp hmem with rfl | hmem
    · rw [flight, h.1]
      omega
    · have hnext := toNat_next seq una (n := seg.data.length) (by omega)
      have hle := h.2.flight_le una (by omega) seg' hmem
      omega

theorem Consecutive.le_of_flight {una : BitVec 32} {bound : Nat} (hbound : bound < 2 ^ 32) :
    ∀ {seq : BitVec 32} {segs : List Segment}, Consecutive seq segs → payload segs ≠ [] →
    (∀ seg ∈ segs, seg.data ≠ [] → flight una seg ≤ bound) →
    (seq - una).toNat + (payload segs).length ≤ bound
  | seq, [], _, hne, _ => absurd rfl hne
  | seq, seg :: segs, h, hne, hle => by
    have htail := fun s hs => hle s (List.mem_cons_of_mem seg hs)
    rw [payload_cons, List.length_append]
    by_cases hdata : seg.data = []
    · -- a segment without data leads to the same number
      have hcons : Consecutive seq segs := by
        have h2 := h.2
        rwa [hdata, List.length_nil, BitVec.add_zero] at h2
      rw [payload_cons, hdata, List.nil_append] at hne
      rw [hdata, List.length_nil, Nat.zero_add]
      exact hcons.le_of_flight hbound hne htail
    · have hhead := hle seg List.mem_cons_self hdata
      rw [flight, h.1] at hhead
      by_cases hrest : payload segs = []
      · rw [hrest, List.length_nil]
        omega
      · have hnext := toNat_next seq una (n := seg.data.length) (by omega)
        have hall := h.2.le_of_flight hbound hrest htail
        omega

/-! ## A pass -/

theorem sendFailed_sent (env : WriteEnv) (c : Ctx) (data : List Byte) :
    (sendFailed env c data).sent = c.sent ++ [⟨c.this.sndnxt, c.this.rcvnxt,
      { psh := true, ack := true }, c.this.rcvwnd.setWidth 16, data⟩] := by
  have hsend : (tcpSend c (env.now c.sent.length) { psh := true, ack := true } data).sent =
      c.sent ++ [⟨c.this.sndnxt, c.this.rcvnxt, { psh := true, ack := true },
        c.this.rcvwnd.setWidth 16, data⟩] := by
    unfold tcpSend
    dsimp only
    split <;> rfl
  unfold sendFailed
  dsimp only
  split
  · exact hsend
  · exact hsend

theorem sendLoop_sent (h : sendLoop env fuel c rest = some (o, c')) :
    ∃ segs, c'.sent = c.sent ++ segs ∧ Consecutive c.this.sndnxt segs ∧ payload segs <+: rest := by
  have hnone : ∃ segs, c.sent = c.sent ++ segs ∧ Consecutive c.this.sndnxt segs ∧
      payload segs <+: rest := ⟨[], (List.append_nil _).symm, trivial, List.nil_prefix⟩
  induction fuel generalizing c rest with
  | zero =>
    obtain ⟨-, -, rfl⟩ := sendLoop_zero h
    exact hnone
  | succ fuel ih =>
    rcases sendLoop_cases h with ⟨rfl, rfl, rfl⟩ | ⟨-, -, rfl, rfl⟩ | ⟨n, -, rfl⟩ | ⟨-, h⟩
    · exact hnone
    · exact hnone
    · refine ⟨[_], sendFailed_sent env c _, ⟨rfl, trivial⟩, ?_⟩
      rw [payload_cons, show payload [] = [] from rfl, List.append_nil]
      exact List.take_prefix n rest
    · have hle := seglen_le_count c.this env.mtuSeg rest.length
      generalize c.this.seglen env.mtuSeg rest.length = n at *
      have hsends := sendBytes_sends env c hle
      obtain ⟨segs, hsent, hcons, hpay⟩ := hsends.sent
      obtain ⟨segs', hsent', hcons', t, ht⟩ :=
        ih h ⟨[], (List.append_nil _).symm, trivial, List.nil_prefix⟩
      rw [hsends.sndnxt, ← hpay] at hcons'
      refine ⟨segs ++ segs', ?_, hcons.append hcons', t, ?_⟩
      · rw [hsent', hsent, List.append_assoc]
      · rw [payload_append, List.append_assoc, ht, hpay, List.take_append_drop]

theorem sendLoop_full (hcap : c.this.cap = 0) (h : sendLoop env fuel c rest = some (o, c')) :
    c' = c := by
  cases fuel with
  | zero =>
    exact (sendLoop_zero h).2.2
  | succ fuel =>
    rw [sendLoop] at h
    split at h
    · exact (Prod.mk.inj (Option.some.inj h)).2.symm
    · rw [sendRound_eq, if_pos hcap] at h
      exact (Prod.mk.inj (Option.some.inj h)).2.symm

theorem keeps_sendLoop (h : sendLoop env fuel c rest = some (o, c')) : Keeps c c' := by
  induction fuel generalizing c rest with
  | zero =>
    obtain ⟨-, -, rfl⟩ := sendLoop_zero h
    exact .refl _
  | succ fuel ih =>
    rcases sendLoop_cases h with ⟨rfl, rfl, rfl⟩ | ⟨-, -, rfl, rfl⟩ | ⟨n, -, rfl⟩ | ⟨-, h⟩
    · exact .refl _
    · exact .refl _
    · have hsend := frame_tcpSend c (env.now c.sent.length) { psh := true, ack := true }
        (rest.take n)
      unfold sendFailed
      dsimp only
      split
      · exact (hsend.trans (frame_closing _ _)).toKeeps
      · exact hsend.toKeeps.trans (.of_this rfl rfl rfl (.closed _))
    · refine Keeps.trans ?_ (ih h)
      exact (frame_tcpSend c _ _ _).toKeeps.trans (.of_this rfl rfl rfl (.refl _))

theorem writeEntry_cases {r : Option (Except Errno Nat)}
    (h : writeEntry env fuel c buf = some (r, c')) :
    (writable c.this = true ∧ ∃ o, sendLoop env fuel c buf = some (o, c') ∧
        (o = .failed → r = some (.error .econnreset))) ∨
      (writable c.this = false ∧ c' = c) := by
  unfold writable
  unfold writeEntry at h
  cases hst : c.this.tcpstate with
  | established | closewait =>
    refine .inl ⟨rfl, ?_⟩
    rw [hst] at h
    dsimp only at h
    split at h
    · cases h
    · next hloop =>
      obtain ⟨-, rfl⟩ := Prod.mk.inj (Option.some.inj h)
      exact ⟨_, hloop, nofun⟩
    · next hloop =>
      obtain ⟨rfl, rfl⟩ := Prod.mk.inj (Option.some.inj h)
      exact ⟨_, hloop, fun _ => rfl⟩
    · next hloop =>
      obtain ⟨-, rfl⟩ := Prod.mk.inj (Option.some.inj h)
      exact ⟨_, hloop, nofun⟩
  | _ =>
    rw [hst] at h
    exact .inr ⟨rfl, (Prod.mk.inj (Option.some.inj h)).2.symm⟩

theorem keeps_writeEntry {r : Option (Except Errno Nat)}
    (h : writeEntry env fuel c buf = some (r, c')) : Keeps c c' := by
  rcases writeEntry_cases h with ⟨-, o, hloop, -⟩ | ⟨-, rfl⟩
  · exact keeps_sendLoop hloop
  · exact .refl _

theorem writeEntry_delivers {r : Option (Except Errno Nat)} (hw : writable sock = true)
    (h : writeEntry env fuel { this := sock } buf = some (r, c'))
    (hr : r ≠ some (.error .econnreset)) :
    Delivers sock.sndnxt (buf.take sock.cap) c'.sent := by
  rcases writeEntry_cases h with ⟨-, o, hloop, ho⟩ | ⟨hno, -⟩
  · have hsends : Sends { this := sock } c' (buf.take sock.cap) := by
      cases o with
      | done =>
        obtain ⟨hle, hsends⟩ := (sendLoop_spec hloop).1 rfl
        rwa [List.take_of_length_le hle]
      | blocked => exact ((sendLoop_spec hloop).2 rfl).2.1
      | failed => exact absurd (ho rfl) hr
    obtain ⟨segs, hsent, hdel⟩ := hsends.sent
    rw [List.nil_append] at hsent
    rw [hsent]
    exact hdel
  · rw [hw] at hno
    cases hno

/-! ## Runs -/

/-- A pass in the window leaves no more in flight than has been advertised. -/
theorem flight_le_of_inWindow {s : Peer} {r : Option (Except Errno Nat)}
    (h : writeEntry env fuel { this := s.sock } buf = some (r, c'))
    (hin : InWindow s (.write env fuel buf)) :
    ∀ seg ∈ c'.sent, seg.data ≠ [] → flight s.sock.snduna seg ≤ s.adv.toNat := by
  intro seg hmem hdata
  rcases writeEntry_cases h with ⟨hw, o, hloop, -⟩ | ⟨-, rfl⟩
  · obtain ⟨segs, hsent, hcons, hpre⟩ := sendLoop_sent hloop
    rw [List.nil_append] at hsent
    rw [hsent] at hmem
    have hlen := hpre.length_le
    have hbuf : buf ≠ [] := by
      rintro rfl
      have hnil : payload segs = [] := List.prefix_nil.mp hpre
      exact hdata (List.flatten_eq_nil_iff.mp hnil _ (List.mem_map_of_mem hmem))
    rcases hin hw hbuf with hcap | hle
    · have hsame := sendLoop_full (c := { this := s.sock }) hcap hloop
      rw [hsame] at hsent
      rw [← hsent] at hmem
      exact absurd hmem List.not_mem_nil
    · have hadv := s.adv.isLt
      change Consecutive s.sock.sndnxt segs at hcons
      unfold Socket.inflight at hle
      have hfl := hcons.flight_le s.sock.snduna (by omega) seg hmem
      omega
  · exact absurd hmem List.not_mem_nil

theorem bswap32_toNat (winsize : BitVec 16) :
    (bswap32 (winsize.setWidth 32)).toNat = (bswap16 winsize).toNat * 65536 := by
  have h0 : (winsize.setWidth 32).extractLsb' 0 8 = winsize.extractLsb' 0 8 := by
    ext i hi
    simp
    omega
  have h8 : (winsize.setWidth 32).extractLsb' 8 8 = winsize.extractLsb' 8 8 := by
    ext i hi
    simp
    omega
  have h16 : (winsize.setWidth 32).extractLsb' 16 8 = 0#8 := by
    ext i hi
    simp
  have h24 : (winsize.setWidth 32).extractLsb' 24 8 = 0#8 := by
    ext i hi
    simp
    exact fun _ => BitVec.getLsbD_of_ge _ _ (by omega)
  unfold bswap32 bswap16
  rw [h0, h8, h16, h24, BitVec.toNat_append, BitVec.toNat_append, BitVec.toNat_zero, Nat.or_zero,
    Nat.or_zero, Nat.shiftLeft_eq, Nat.shiftLeft_eq, Nat.mul_assoc]

/-- The window for sending is a multiple of 65536. -/
structure Scaled (sock : Socket) : Prop where
  sndwnd : sock.sndwnd.toNat % 65536 = 0
  ne_listen : sock.tcpstate ≠ .listen

theorem Scaled.keeps (h : Scaled c.this) (hk : Keeps c c') : Scaled c'.this := by
  refine ⟨?_, hk.moves.ne_listen h.ne_listen⟩
  rcases hk.sndwnd with heq | ⟨winsize, heq⟩
  · rw [heq]
    exact h.sndwnd
  · rw [heq, bswap32_toNat]
    exact Nat.mul_mod_left _ _

theorem Scaled.arrive (h : Scaled sock) (arrival : Arrival) : Scaled (arrive sock arrival) := by
  have hframe := (frame_tcpNetpacket arrival.env arrival.src arrival.dest arrival.buf
    arrival.length h.ne_listen).toKeeps
  split at hframe
  · exact Scaled.keeps (c := afterData { this := sock } _) ⟨h.sndwnd, h.ne_listen⟩ hframe
  · exact h.keeps hframe

theorem Scaled.next {s s' : Peer} {event : PeerEvent} (h : Scaled s.sock)
    (hs : s.next event = some s') : Scaled s'.sock := by
  cases event with
  | segment arrival =>
    obtain rfl := Option.some.inj hs
    exact h.arrive arrival
  | write env fuel buf =>
    obtain ⟨r, hentry, rfl⟩ := Option.map_eq_some_iff.mp hs
    exact Scaled.keeps (c := { this := s.sock }) h (keeps_writeEntry hentry)

/-- What is in flight and the space in the window add up to a multiple of 65536. -/
theorem Scaled.sum (h : Scaled sock) (hcap : sock.cap ≠ 0) :
    65536 ≤ sock.inflight + sock.cap := by
  have hwnd := h.sndwnd
  unfold Socket.cap at hcap ⊢
  unfold Socket.inflight
  generalize sock.sndnxt - sock.snduna = inflight at hcap ⊢
  have hlt := inflight.isLt
  rw [BitVec.toNat_sub] at hcap ⊢
  omega

/-- A pass that keeps to the window is one that `InWindow` allows. -/
theorem inWindow_of_flight_le {s : Peer} {r : Option (Except Errno Nat)} (h : Scaled s.sock)
    (hw : writable s.sock = true)
    (hentry : writeEntry env fuel { this := s.sock } buf = some (r, c'))
    (hr : r ≠ some (.error .econnreset))
    (hle : ∀ seg ∈ c'.sent, seg.data ≠ [] → flight s.sock.snduna seg ≤ s.adv.toNat) :
    InWindow s (.write env fuel buf) := by
  intro _ hbuf
  by_cases hcap : s.sock.cap = 0
  · exact .inl hcap
  · obtain ⟨hcons, hpay⟩ := writeEntry_delivers hw hentry hr
    have hadv := s.adv.isLt
    have hpos := List.length_pos_iff.mpr hbuf
    have hne : payload c'.sent ≠ [] := by
      rw [hpay, ne_eq, List.take_eq_nil_iff, not_or]
      exact ⟨hcap, hbuf⟩
    have hall := hcons.le_of_flight (by omega) hne hle
    rw [hpay, List.length_take] at hall
    have hsum := h.sum hcap
    unfold Socket.inflight at hsum ⊢
    exact .inr (by omega)

theorem mem_logged {s : Peer} {segs : List Segment} {r : Nat × Nat} (h : r ∈ s.logged segs) :
    ∃ seg ∈ segs, seg.data ≠ [] ∧ r = (flight s.sock.snduna seg, s.adv.toNat) := by
  obtain ⟨seg, hmem, rfl⟩ := List.mem_map.mp h
  obtain ⟨hmem, hdata⟩ := List.mem_filter.mp hmem
  exact ⟨seg, hmem, bne_iff_ne.mp hdata, rfl⟩

theorem next_log {s s' : Peer} {event : PeerEvent} (h : ∀ r ∈ s.log, r.1 ≤ r.2)
    (hin : InWindow s event) (hs : s.next event = some s') : ∀ r ∈ s'.log, r.1 ≤ r.2 := by
  cases event with
  | segment arrival =>
    obtain rfl := Option.some.inj hs
    exact h
  | write env fuel buf =>
    obtain ⟨⟨r, c'⟩, hentry, rfl⟩ := Option.map_eq_some_iff.mp hs
    intro p hp
    rcases List.mem_append.mp hp with hp | hp
    · exact h p hp
    · obtain ⟨seg, hmem, hdata, rfl⟩ := mem_logged hp
      exact flight_le_of_inWindow hentry hin seg hmem hdata

/--
**No segment with data leaves more in flight than the other side has advertised**, in every run
whose passes are all in the window. In each state that is reached, a pass that sends its segments
keeps to the window only if `InWindow` says so.
-/
theorem inflight_le (h₀ : Opened sock) (hwnd : sock.sndwnd = 0) :
    (∀ s, Reach (fun s event s' => Peer.next s event = some s') InWindow ⟨sock, 0, []⟩ s →
      ∀ r ∈ s.log, r.1 ≤ r.2) ∧
    ∀ s, Reach (fun s event s' => Peer.next s event = some s') anyStep ⟨sock, 0, []⟩ s →
      ∀ env fuel buf r c', writable s.sock →
        writeEntry env fuel { this := s.sock } buf = some (r, c') →
        r ≠ some (.error .econnreset) →
        ((∀ seg ∈ c'.sent, seg.data ≠ [] → flight s.sock.snduna seg ≤ s.adv.toNat) ↔
          InWindow s (.write env fuel buf)) := by
  constructor
  · intro s hr
    exact hr.invariant (I := fun s => ∀ r ∈ s.log, r.1 ≤ r.2)
      (fun _ hmem => absurd hmem List.not_mem_nil) fun _ _ _ h hin hs => next_log h hin hs
  · intro s hr env fuel buf r c' hw hentry hne
    have hscaled : Scaled s.sock := by
      refine hr.invariant (I := fun s => Scaled s.sock) ⟨?_, h₀.balanced.ne_listen⟩
        fun _ _ _ h _ hs => h.next hs
      rw [hwnd]
      rfl
    exact ⟨inWindow_of_flight_le hscaled hw hentry hne, flight_le_of_inWindow hentry⟩

/-- The other side answers, and takes one byte; then the process writes. -/
def samplePeerEvents (buf : List Byte) : List PeerEvent :=
  [.segment ⟨sampleEnv, 2, 1, sampleBytes 1000 501 0x12 [], 0⟩, .write sampleWriteEnv 9 buf]

/-- One byte is written. -/
theorem inflight_le_sample : ∃ s,
    Reach (fun s event s' => Peer.next s event = some s') InWindow
      ⟨sampleConnecting.this, 0, []⟩ s ∧ s.log = [(1, 1)] ∧ ∀ r ∈ s.log, r.1 ≤ r.2 := by
  have hrun : (runIf Peer.next (fun s event => decide (InWindow s event)) (samplePeerEvents [7])
      ⟨sampleConnecting.this, 0, []⟩).map Peer.log = some [(1, 1)] := by decide +kernel
  obtain ⟨s, hs, hlog⟩ := Option.map_eq_some_iff.mp hrun
  have hreach : Reach (fun s event s' => Peer.next s event = some s') InWindow
      ⟨sampleConnecting.this, 0, []⟩ s :=
    (Reach.of_runIf .refl hs).mono fun _ _ => of_decide_eq_true
  exact ⟨s, hreach, hlog, (inflight_le sampleConnecting_opened rfl).1 s hreach⟩

/-- Two bytes are written, and both of them are sent. -/
theorem inflight_exceeds : ¬ ∀ (sock : Socket) (s : Peer), Opened sock → sock.sndwnd = 0 →
    Reach (fun s event s' => Peer.next s event = some s') anyStep ⟨sock, 0, []⟩ s →
    ∀ r ∈ s.log, r.1 ≤ r.2 := by
  intro hall
  have hrun : (runAll Peer.next (samplePeerEvents [7, 8])
      ⟨sampleConnecting.this, 0, []⟩).map Peer.log = some [(2, 1)] := by decide +kernel
  obtain ⟨s, hs, hlog⟩ := Option.map_eq_some_iff.mp hrun
  have hreach : Reach (fun s event s' => Peer.next s event = some s') anyStep
      ⟨sampleConnecting.this, 0, []⟩ s := Reach.of_runAll .refl (fun _ _ => trivial) hs
  have hle := hall sampleConnecting.this s sampleConnecting_opened rfl hreach
  rw [hlog] at hle
  exact absurd (hle (2, 1) List.mem_cons_self) (by decide)

end Lyre.Tcp
