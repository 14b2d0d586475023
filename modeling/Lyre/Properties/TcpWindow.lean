import Lyre.Properties.TcpRuns

/-!
# The window for receiving

The window is what is left of the receive buffer. `tcp_netpacket` and the functions that read
change the two in different places, and in the same measure.
-/

namespace Lyre.Tcp

open Infra

variable {c c' : Ctx} {this sock s : Socket} {packet : Packet}

/-- The socket has been opened: by `tcp_connect`, which waits for an answer now, or for a `SYN`.
`syscall_connect` takes sockets that have never been connected, so that the buffer is as
`socket_create_tcp` leaves it. -/
inductive Opened : Socket → Prop
  | connect {env : ConnectEnv} {c c' : Ctx} {remote : BitVec 32} {remoteport : BitVec 16}
    (hbuf : c.this.rcvbuf = socketCreateTcp.rcvbuf)
    (h : tcpConnect env c remote remoteport = (none, c')) : Opened c'.this
  | syn {env : Env} {this child : Socket} {src dest : BitVec 32} {buf : Nat → Byte} {length : Nat}
    (h : (tcpNetpacket env this src dest buf length).spawned = some child) : Opened child

/-! ## The invariant -/

structure Balanced (s : Socket) : Prop where
  sum : s.rcvwnd.toNat + s.rcvbuf.pos = s.rcvbuf.size
  /-- The window of a segment has 16 bits. -/
  fits : s.rcvbuf.size < 2 ^ 16
  ne_listen : s.tcpstate ≠ .listen

/-- The segment announces what is left of the buffer. -/
def Exact (s : Socket) (seg : Segment) : Prop :=
  (∃ seq, seg = resetSegment seq) ∨ seg.window.toNat = s.rcvwnd.toNat

theorem Balanced.exact (h : Balanced s) {seg : Segment} (hseg : Announces s.rcvwnd seg) :
    Exact s seg := by
  rcases hseg with hreset | hwindow
  · exact .inl hreset
  · have hsum := h.sum
    have hfits := h.fits
    refine .inr ?_
    rw [hwindow, BitVec.toNat_setWidth, Nat.mod_eq_of_lt (by omega)]

theorem Balanced.keeps (h : Balanced c.this) (hk : Keeps c c') (hsent : c.sent = []) :
    Balanced c'.this ∧ ∀ seg ∈ c'.sent, Exact c'.this seg := by
  have hbal : Balanced c'.this := by
    refine ⟨?_, ?_, hk.moves.ne_listen h.ne_listen⟩
    · rw [hk.rcvwnd, hk.rcvbuf]
      exact h.sum
    · rw [hk.rcvbuf]
      exact h.fits
  refine ⟨hbal, fun seg hseg => hbal.exact ?_⟩
  obtain ⟨segs, hsegs, hall⟩ := hk.answers
  rw [hsent, List.nil_append] at hsegs
  rw [hk.rcvwnd]
  exact hall seg (hsegs ▸ hseg)

theorem Balanced.taken_le (h : Balanced s) (htaken : taken s packet = true) :
    packet.len ≤ s.rcvwnd.toNat := by
  have hroom : s.rcvbuf.pos + packet.len ≤ s.rcvbuf.size := by
    unfold taken at htaken
    exact of_decide_eq_true (Bool.and_eq_true_iff.mp htaken).2
  have hsum := h.sum
  omega

theorem Balanced.afterData (h : Balanced c.this) : Balanced (afterData c packet).this := by
  cases htaken : taken c.this packet with
  | false =>
    rw [afterData_of_not htaken]
    exact h
  | true =>
    have hle := h.taken_le htaken
    refine ⟨?_, ?_, h.ne_listen⟩
    · have hsum := h.sum
      simp only [Tcp.afterData, received, windowLeft, htaken, if_true, Stream.pos,
        List.length_append]
      rw [BitVec.toNat_sub_of_le]
      · unfold Stream.pos at hsum
        rw [BitVec.toNat_ofNat, Nat.mod_eq_of_lt (by omega)]
        unfold Packet.len at hle ⊢
        omega
      · rw [BitVec.le_def, BitVec.toNat_ofNat]
        exact Nat.le_trans (Nat.mod_le _ _) hle
    · simp only [Tcp.afterData, received, htaken, if_true]
      exact h.fits

theorem Balanced.drained (h : Balanced this) (hd : Drained this s) : Balanced s := by
  obtain ⟨n, hn, status, rfl⟩ := hd
  have hsum := h.sum
  have hfits := h.fits
  refine ⟨?_, hfits, h.ne_listen⟩
  simp only [Stream.pos, List.length_drop] at hn hsum ⊢
  rw [BitVec.toNat_add, BitVec.toNat_ofNat, Nat.mod_eq_of_lt (show n < 2 ^ 32 by omega),
    Nat.mod_eq_of_lt (by omega)]
  omega

theorem Balanced.handle (h : Balanced s) (event : Event) :
    Balanced (handle s event).this ∧ ∀ seg ∈ (handle s event).sent, Exact (handle s event).this seg := by
  cases event with
  | segment env src dest buf length =>
    have hframe := (frame_tcpNetpacket env src dest buf length h.ne_listen).toKeeps
    split at hframe
    · exact (Balanced.afterData (c := { this := s }) h).keeps hframe rfl
    · exact h.keeps hframe rfl
  | close now => exact h.keeps (keeps_tcpClose { this := s } now) rfl
  | timer now route connecttimeout =>
    exact h.keeps (keeps_tcpTimer { this := s } now route connecttimeout) rfl
  | woken now => exact h.keeps (keeps_connectWoken { this := s } now) rfl
  | read nonblock count =>
    exact ⟨h.drained (drained_tcpRead s nonblock count), fun _ hmem => absurd hmem List.not_mem_nil⟩
  | recvmsg nonblock dontwait named lens =>
    exact ⟨h.drained (drained_tcpRecvmsg s nonblock dontwait named lens),
      fun _ hmem => absurd hmem List.not_mem_nil⟩
  | send now mtuSeg rest => exact h.keeps (keeps_send s now mtuSeg rest) rfl

/-! ## Sockets that have been opened -/

theorem balanced_of_fresh (hbuf : s.rcvbuf = socketCreateTcp.rcvbuf)
    (hwnd : s.rcvwnd = BitVec.ofNat 32 tcpBufferSize) (hst : s.tcpstate ≠ .listen) :
    Balanced s := by
  refine ⟨?_, ?_, hst⟩
  · rw [hbuf, hwnd]
    rfl
  · rw [hbuf]
    decide

theorem balanced_tcpConnect {env : ConnectEnv} {remote : BitVec 32} {remoteport : BitVec 16}
    (hbuf : c.this.rcvbuf = socketCreateTcp.rcvbuf)
    (h : tcpConnect env c remote remoteport = (none, c')) : Balanced c'.this := by
  unfold tcpConnect at h
  split at h
  · cases h
  · split at h
    · cases h
    · split at h
      · cases h
      · split at h
        · cases h
        · dsimp only at h
          split at h
          · obtain rfl := congrArg Prod.snd h
            refine balanced_of_fresh ((frame_tcpSend _ _ _ _).rcvbuf.trans hbuf)
              ((frame_tcpSend _ _ _ _).rcvwnd.trans ?_) ((frame_tcpSend _ _ _ _).moves.ne_listen ?_)
            · exact congrArg (fun b => BitVec.ofNat 32 b.size) hbuf
            · exact show TcpState.synsent ≠ .listen by decide
          · cases h

theorem balanced_onListen {env : Env} {conn : Connection} {adapter : Nat} {child : Socket}
    (hc : c.spawned = none) (h : (onListen env c conn adapter packet).spawned = some child) :
    Balanced child := by
  unfold onListen at h
  split at h
  · rw [hc] at h
    cases h
  · split at h
    · rw [show (sendReset c packet.ack).spawned = c.spawned from rfl, hc] at h
      cases h
    · split at h
      · obtain rfl := Option.some.inj h
        obtain ⟨m, t, f, hopt⟩ := tcpParseoptions_eq { socketCreateTcp with
          parent := some env.self
          adapter := some adapter
          conn
          rcvwnd := BitVec.ofNat 32 tcpBufferSize
          rcvnxt := packet.seq + 1
          rcvis := packet.seq
          sndis := env.random } packet env.opts
        rw [hopt]
        exact balanced_of_fresh (frame_tcpSend _ _ _ _).rcvbuf (frame_tcpSend _ _ _ _).rcvwnd
          (show TcpState.synrecv ≠ .listen by decide)
      · rw [hc] at h
        cases h

theorem balanced_spawned {env : Env} {child : Socket} {src dest : BitVec 32} {buf : Nat → Byte}
    {length : Nat} (h : (tcpNetpacket env this src dest buf length).spawned = some child) :
    Balanced child := by
  by_cases hst : this.tcpstate = .listen
  · unfold tcpNetpacket at h
    dsimp only at h
    split at h
    · cases h
    · obtain ⟨m, t, f, hopt⟩ := tcpParseoptions_eq this (loadPacket buf length) env.opts
      rw [hopt] at h
      unfold onPacket at h
      dsimp only at h
      rw [hst] at h
      exact balanced_onListen rfl h
  · have hspawned := (frame_tcpNetpacket env src dest buf length hst).spawned
    rw [h] at hspawned
    split at hspawned <;> cases hspawned

theorem Opened.balanced (h : Opened s) : Balanced s := by
  cases h with
  | connect hbuf h => exact balanced_tcpConnect hbuf h
  | syn h => exact balanced_spawned h

/--
**The window is what is left of the buffer** in every run of a socket that has been opened: data
that is taken never exceeds it, what is sent announces it, and data is refused if and only if there
is more than it allows.
-/
theorem window_exact (h₀ : Opened sock)
    (hr : Reach (fun s event s' => (handle s event).this = s') anyStep sock s) :
    s.rcvwnd.toNat + s.rcvbuf.pos = s.rcvbuf.size ∧
      (∀ packet, taken s packet → packet.len ≤ s.rcvwnd.toNat) ∧
      (∀ event, ∀ seg ∈ (handle s event).sent, (∃ seq, seg = resetSegment seq) ∨
        seg.window.toNat = (handle s event).this.rcvwnd.toNat) ∧
      ∀ data, tcpStreamwrite s.rcvbuf data = none ↔ s.rcvwnd.toNat < data.length := by
  have hbal : Balanced s := by
    refine hr.invariant (I := Balanced) h₀.balanced fun _ event _ hs _ hstep => ?_
    obtain rfl := hstep
    exact (hs.handle event).1
  refine ⟨hbal.sum, fun _ => hbal.taken_le, fun event => (hbal.handle event).2, fun data => ?_⟩
  have hsum := hbal.sum
  unfold tcpStreamwrite
  constructor
  · intro h
    split at h
    · omega
    · cases h
  · intro h
    exact if_pos (by omega)

/-- A socket that connects; its first sequence number is 500. -/
def sampleConnecting : Ctx :=
  (tcpConnect ⟨0, .ok (0, 1), 5, 500, true⟩ { this := socketCreateTcp } 2 80).2

theorem sampleConnecting_opened : Opened sampleConnecting.this := by
  have h : tcpConnect ⟨0, .ok (0, 1), 5, 500, true⟩ { this := socketCreateTcp } 2 80 =
      (none, sampleConnecting) := rfl
  exact .connect rfl h

/-- The segment has the flags of the byte, and its numbers have 16 bits. -/
def sampleBytes (seq ack : BitVec 16) (flags : Byte) (data : List Byte) (k : Nat) : Byte :=
  ([0, 80, 0, 81, 0, 0, seq.extractLsb' 8 8, seq.extractLsb' 0 8, 0, 0, ack.extractLsb' 8 8,
    ack.extractLsb' 0 8, 0x50, flags, 0, 1, 0, 0, 0, 0] ++ data).getD k 0

/-- The other side answers and sends three bytes, of which two are read, and then it closes. -/
def sampleEvents : List Event :=
  [.segment sampleEnv 2 1 (sampleBytes 1000 501 0x12 []) 0,
    .segment sampleEnv 2 1 (sampleBytes 1001 501 0x10 [7, 8, 9]) 3,
    .read true 2,
    .segment sampleEnv 2 1 (sampleBytes 1004 501 0x11 []) 0]

theorem window_exact_sample : ∃ s,
    Reach (fun s event s' => (handle s event).this = s') anyStep sampleConnecting.this s ∧
    s.tcpstate = .closewait ∧ s.rcvbuf.buf = [9] ∧
    s.rcvwnd.toNat + s.rcvbuf.pos = s.rcvbuf.size := by
  have hreach : Reach (fun s event s' => (handle s event).this = s') anyStep sampleConnecting.this
      (sampleEvents.foldl (fun s event => (handle s event).this) sampleConnecting.this) :=
    Reach.foldl sampleEvents (fun _ _ _ => trivial) .refl
  refine ⟨_, hreach, by decide +kernel, by decide +kernel, ?_⟩
  exact (window_exact sampleConnecting_opened hreach).1

end Lyre.Tcp
