import Lyre.Infra.Run
import Lyre.Properties.Inet

/-!
# The ports that are handed out

`net_allocport` sets the bit of the port it returns: bit `k` stands for the port
`NET_PORTRANGESTART + k`. `net_releaseport` clears the bit with the number of the port, which stands
for another port or for none. `udp_bind` stores a port it is asked for without looking at the bits,
and the bits that `net_allocport` looks at are more than there are ports.

* `next_netPortbitmap`: what a call makes of the bits.
* `KeepsPorts`: the calls that do no harm.
* `ports_right`: with such calls a port that is handed out is in the range and free, and a release
  changes no other port, whatever the order of the calls.
-/

namespace Lyre.Inet

open Net Infra

variable {s s' : State} {n a k : Nat} {bitmap : Bitmap}

/-! ## The bitmap -/

/-- The number of ports that can be handed out. -/
def portCount : Nat := portRangeEnd + 1 - portRangeStart

/-- The port is marked as handed out. -/
def taken (bitmap : Bitmap) (port : BitVec 16) : Bool :=
  bitmapTest bitmap (port.toNat - portRangeStart)

theorem allocBits_some {i : Nat} : ∀ {m bit : Nat}, allocBits bitmap i m bit = some k →
    bitmapTest bitmap k = false
  | 0, _, h => by simp [allocBits] at h
  | m + 1, bit, h => by
    unfold allocBits at h
    split at h
    · next hfree => exact Option.some.inj h ▸ hfree
    · exact allocBits_some h

theorem allocBytes_some : ∀ {m i : Nat}, allocBytes bitmap m i = some k →
    bitmapTest bitmap k = false
  | 0, _, h => by simp [allocBytes] at h
  | m + 1, i, h => by
    unfold allocBytes at h
    split at h
    · exact allocBytes_some h
    · split at h
      · next hbits => exact Option.some.inj h ▸ allocBits_some hbits
      · exact allocBytes_some h

theorem freeBit_some (h : freeBit bitmap = some k) : bitmapTest bitmap k = false :=
  allocBytes_some h

/-- A port that is returned stands for the bit that is set, if this is among the bits of ports. -/
theorem netAllocport_port (hk : ∀ k, freeBit bitmap = some k → k ≤ portCount)
    (h : (netAllocport bitmap).1 ≠ 0) :
    ∃ k, freeBit bitmap = some k ∧ k < portCount ∧
      (netAllocport bitmap).1.toNat = portRangeStart + k ∧
      (netAllocport bitmap).2 = bitmapSet bitmap k := by
  unfold netAllocport at h ⊢
  cases hfree : freeBit bitmap with
  | none =>
    rw [hfree] at h
    exact absurd rfl h
  | some k =>
    rw [hfree] at h
    have hle := hk k hfree
    simp only [portCount, portRangeStart, portRangeEnd] at hle h ⊢
    have hne : k ≠ 16384 := by
      rintro rfl
      exact h (by decide)
    refine ⟨k, rfl, by omega, ?_, rfl⟩
    rw [BitVec.toNat_ofNat]
    omega

/-- A bit that stands for a port is not cleared. -/
def KeepsBits (bitmap bitmap' : Bitmap) : Prop :=
  ∀ k < portCount, bitmapTest bitmap k = true → bitmapTest bitmap' k = true

theorem KeepsBits.alloc (bitmap : Bitmap) : KeepsBits bitmap (netAllocport bitmap).2 := by
  intro k _ hk
  unfold netAllocport
  split
  · rw [bitmapTest_bitmapSet, hk, Bool.or_true]
  · exact hk

theorem KeepsBits.release {port : BitVec 16}
    (h : port.toNat < portCount → bitmapTest bitmap port.toNat = false) :
    KeepsBits bitmap (netReleaseport bitmap port) := by
  intro k hk hset
  have hne : port.toNat ≠ k := by
    rintro rfl
    rw [h hk] at hset
    exact Bool.noConfusion hset
  rw [netReleaseport, bitmapTest_bitmapReset, hset]
  simp [hne]

/-! ## What a call does to the bitmap -/

/-- `tcp_connect` gets as far as looking at the port. -/
def looksAtPort (s : State) (n : Nat) (env : ConnectEnv) (remote : BitVec 32) : Bool :=
  !Tcp.refusesConnect (s.tcp n).this &&
    (routeAdapter env.adapters (s.tcp n).this.adapter remote).isSome && env.lookup

/-- The calls that come to `net_allocport`. -/
def Step.allocates (s : State) : Step → Bool
  | .allocport => true
  | .udpBind adapters _ addr => acceptsBind adapters addr && addr.port = 0
  | .udpSend n => (s.udp n).port = 0
  | .tcpConnect n env remote _ => looksAtPort s n env remote && (s.tcp n).port = 0
  | _ => false

/-- The port that a call releases. -/
def Step.releases (s : State) : Step → Option (BitVec 16)
  | .releaseport port => some port
  | .udpUnref n => if (s.udp n).refcount - 1 = 0 then some (bswap16 (s.udp n).port) else none
  | .tcpConnect n env remote _ =>
    if (looksAtPort s n env remote && findsPort s n && !env.sends) ∧ (s.tcp n).this.parent = none then
      some (bswap16 (takePort (s.tcp n).port s.netPortbitmap).1)
    else none
  | c =>
    match c.runs s with
    | some (n, f) =>
      if closes s n f ∧ (s.tcp n).this.parent = none then some (bswap16 (s.tcp n).port) else none
    | none => none

/-- The bitmap after a port is released, if there is one. -/
def releaseOption (bitmap : Bitmap) : Option (BitVec 16) → Bitmap
  | some port => netReleaseport bitmap port
  | none => bitmap

theorem Ran.netPortbitmap {b : Bool} (hr : Ran s n b s') :
    s'.netPortbitmap = releaseOption s.netPortbitmap
      (if b ∧ (s.tcp n).this.parent = none then some (bswap16 (s.tcp n).port) else none) := by
  cases hr with
  | kept this => rw [if_neg (by simp)]; rfl
  | released this hp =>
    rw [tcpReleased_eq]
    simp only [setThis_tcp, hp, true_and]
    split <;> rfl

theorem spawn_netPortbitmap {child : Tcp.Socket} :
    (tcpSpawn s child).netPortbitmap = s.netPortbitmap := by
  unfold tcpSpawn
  dsimp only
  split <;> rfl

theorem Handled.netPortbitmap {b : Bool} (h : Handled s n b s') :
    s'.netPortbitmap = releaseOption s.netPortbitmap
      (if b ∧ (s.tcp n).this.parent = none then some (bswap16 (s.tcp n).port) else none) := by
  cases h with
  | ran hr => exact hr.netPortbitmap
  | spawned hr hc => rw [spawn_netPortbitmap, hr.netPortbitmap]

theorem takePort_bitmap (port : BitVec 16) (bitmap : Bitmap) :
    (takePort port bitmap).2 = if port = 0 then (netAllocport bitmap).2 else bitmap := by
  unfold takePort
  split <;> rfl

theorem tcpTakePort_bitmap (s : State) (n : Nat) :
    (tcpTakePort s n).netPortbitmap = (takePort (s.tcp n).port s.netPortbitmap).2 := by
  rw [takePort_bitmap]
  by_cases h : (s.tcp n).port = 0
  · rw [if_pos h]
    by_cases hn : (netAllocport s.netPortbitmap).1 = 0
    · rw [tcpTakePort_of_none h hn]
    · rw [tcpTakePort_of_free h hn]
  · rw [if_neg h, tcpTakePort_of_port h]

/-- The port afterwards. The rest of the socket stays, but for its connection. -/
theorem tcpTakePort_tcp (s : State) (n : Nat) :
    ∃ conn, (tcpTakePort s n).tcp n = { s.tcp n with
      this := { (s.tcp n).this with conn }
      port := (takePort (s.tcp n).port s.netPortbitmap).1 } := by
  by_cases h : (s.tcp n).port = 0
  · by_cases hn : (netAllocport s.netPortbitmap).1 = 0
    · rw [tcpTakePort_of_none h hn]
      have hzero : bswap16 (netAllocport s.netPortbitmap).1 = (s.tcp n).port := by
        rw [hn, h]
        decide
      refine ⟨(s.tcp n).this.conn, ?_⟩
      rw [takePort, if_pos h]
      dsimp only
      rw [hzero]
    · rw [tcpTakePort_of_free h hn]
      refine ⟨⟨(s.tcp n).localaddr, inaddrAny, bswap16 (netAllocport s.netPortbitmap).1, 0⟩, ?_⟩
      rw [takePort, if_pos h]
      exact setTcp_tcp _
  · rw [tcpTakePort_of_port h]
    exact ⟨(s.tcp n).this.conn, by rw [takePort, if_neg h]⟩

theorem tcpTakePort_others (s : State) (n : Nat) :
    (tcpTakePort s n).udp = s.udp ∧ ∀ m ≠ n, (tcpTakePort s n).tcp m = s.tcp m := by
  by_cases h : (s.tcp n).port = 0
  · by_cases hn : (netAllocport s.netPortbitmap).1 = 0
    · rw [tcpTakePort_of_none h hn]
      exact ⟨rfl, fun _ _ => rfl⟩
    · rw [tcpTakePort_of_free h hn]
      exact ⟨rfl, fun m hm => setTcp_other _ hm⟩
  · rw [tcpTakePort_of_port h]
    exact ⟨rfl, fun _ _ => rfl⟩

theorem tcpConnect_bitmap (s : State) (n : Nat) (env : ConnectEnv) (remote : BitVec 32)
    (remoteport : BitVec 16) :
    (tcpConnect s n env remote remoteport).netPortbitmap
      = releaseOption
        (if (Step.tcpConnect n env remote remoteport).allocates s
          then (netAllocport s.netPortbitmap).2 else s.netPortbitmap)
        ((Step.tcpConnect n env remote remoteport).releases s) := by
  have hcases := tcpConnect_cases s n env remote remoteport
  generalize tcpConnect s n env remote remoteport = s' at hcases
  cases hcases with
  | refused h =>
    have hno : looksAtPort s n env remote = false := by
      rcases h with h | h <;> simp [looksAtPort, h]
    simp [Step.allocates, Step.releases, hno, releaseOption]
  | unknown a hopen hr hl =>
    have hno : looksAtPort s n env remote = false := by simp [looksAtPort, hl]
    have hsame := sameTables_setAdapter s (.tcp n) (some a)
    simp [Step.allocates, Step.releases, hno, releaseOption, hsame.netPortbitmap]
  | portless a hopen hr hl hp =>
    have hyes : looksAtPort s n env remote = true := by simp [looksAtPort, hopen, hr, hl]
    have hsame := sameTables_setAdapter s (.tcp n) (some a)
    rw [tcpTakePort_bitmap, hsame.tcp_port, hsame.netPortbitmap, takePort_bitmap]
    simp [Step.allocates, Step.releases, hyes, hp, releaseOption]
  | registered a hopen hr hl hp =>
    have hyes : looksAtPort s n env remote = true := by simp [looksAtPort, hopen, hr, hl]
    have hsame := sameTables_setAdapter s (.tcp n) (some a)
    obtain ⟨conn, htcp⟩ := tcpTakePort_tcp (s.setAdapter (.tcp n) (some a)) n
    have hbitmap := tcpTakePort_bitmap (s.setAdapter (.tcp n) (some a)) n
    obtain ⟨v, hv⟩ := hsame.tcp n
    rw [hsame.tcp_port, hsame.netPortbitmap] at hbitmap htcp
    rw [hv] at htcp
    have hport : ((tcpTakePort (s.setAdapter (.tcp n) (some a)) n).tcp n).port ≠ 0 := by
      intro hc
      rw [tcpTakePort_port, findsPort_setAdapter, hp] at hc
      exact Bool.noConfusion hc
    obtain ⟨b, hb, hsends⟩ := handled_register (tcpTakePort (s.setAdapter (.tcp n) (some a)) n) n a
      env remote remoteport
    have hclosed := hsends (by rw [htcp]; exact hopen) hport
    have hbind := sameTables_bind (tcpTakePort (s.setAdapter (.tcp n) (some a)) n) a (.tcp n)
    obtain ⟨w, hw⟩ := hbind.tcp n
    have hconn : (connecting (tcpTakePort (s.setAdapter (.tcp n) (some a)) n) n a).tcp n
        = { (tcpTakePort (s.setAdapter (.tcp n) (some a)) n).tcp n with
          this := { ((tcpTakePort (s.setAdapter (.tcp n) (some a)) n).tcp n).this with
            adapter := w } } := hw
    rw [hb.netPortbitmap, hconn, htcp, hclosed]
    have hbit : (connecting (tcpTakePort (s.setAdapter (.tcp n) (some a)) n) n a).netPortbitmap
        = (takePort (s.tcp n).port s.netPortbitmap).2 := hbind.netPortbitmap.trans hbitmap
    rw [hbit, takePort_bitmap]
    simp [Step.allocates, Step.releases, hyes, hp]

theorem udpBind_bitmap (adapters : List Adapter) (s : State) (n : Nat) (addr : SockaddrIn) :
    (udpBind adapters s n addr).2.netPortbitmap
      = if acceptsBind adapters addr && addr.port = 0 then (netAllocport s.netPortbitmap).2
        else s.netPortbitmap := by
  have hcases := udpBind_cases adapters s n addr
  generalize udpBind adapters s n addr = r at hcases
  have hset : ∀ {s₁ : State}, s₁.netPortbitmap = s.netPortbitmap →
      (udpSetport s₁ n addr).netPortbitmap
        = if addr.port = 0 then (netAllocport s.netPortbitmap).2 else s.netPortbitmap := by
    intro s₁ h₁
    refine Eq.trans ?_ (takePort_bitmap addr.port s.netPortbitmap)
    rw [← h₁]
    rfl
  cases hcases with
  | refused h => simp [h]
  | portless s₁ h hb =>
    have hbitmap := hset (sameTables_bindAdapter hb).netPortbitmap
    rw [(sameTables_unbindAdapter _ _).netPortbitmap, hbitmap]
    simp [h]
  | bound s₁ h hb =>
    refine (hset (sameTables_bindAdapter hb).netPortbitmap).trans ?_
    simp [h]

theorem udpSend_bitmap (s : State) (n : Nat) :
    (udpSend s n).netPortbitmap
      = if (s.udp n).port = 0 then (netAllocport s.netPortbitmap).2 else s.netPortbitmap := by
  unfold udpSend udpAcquireport
  dsimp only
  by_cases h : (s.udp n).port = 0
  · rw [if_pos h, if_pos h]
    split
    · rfl
    · split <;> rfl
  · rw [if_neg h, if_neg h]

theorem udpUnref_bitmap (s : State) (n : Nat) :
    (udpUnref s n).netPortbitmap = releaseOption s.netPortbitmap
      (if (s.udp n).refcount - 1 = 0 then some (bswap16 (s.udp n).port) else none) := by
  have hsame := sameTables_unbindAdapter
    (s.setUdp n { s.udp n with refcount := (s.udp n).refcount - 1 }) (.udp n)
  unfold udpUnref
  simp only [setUdp_udp]
  split
  · rw [hsame.netPortbitmap, hsame.udp_port, setUdp_udp]
    rfl
  · rfl

theorem tcpBind_same (adapters : List Adapter) (s : State) (n : Nat) (addr : SockaddrIn) :
    (tcpBound (tcpBind adapters s n addr) n).netPortbitmap = s.netPortbitmap ∧
      (∀ m, ((tcpBound (tcpBind adapters s n addr) n).tcp m).port = (s.tcp m).port) ∧
      ∀ m, ∃ adapter, (tcpBound (tcpBind adapters s n addr) n).udp m
        = { s.udp m with adapter } := by
  have hcases := tcpBind_cases adapters s n addr
  generalize tcpBind adapters s n addr = r at hcases
  cases hcases with
  | refused h => exact ⟨rfl, fun _ => rfl, fun _ => ⟨_, rfl⟩⟩
  | portless s₁ h hb =>
    have hsame := sameTables_bindAdapter hb
    have hunbind := sameTables_unbindAdapter
      (s₁.setTcp n { s₁.tcp n with localaddr := addr.addr }) (.tcp n)
    refine ⟨hunbind.netPortbitmap.trans hsame.netPortbitmap, fun m => ?_, fun m => ?_⟩
    · refine (hunbind.tcp_port m).trans (Eq.trans ?_ (hsame.tcp_port m))
      by_cases hm : m = n
      · subst hm; simp
      · rw [setTcp_other _ hm]
    · obtain ⟨v, hv⟩ := hunbind.udp m
      obtain ⟨w, hw⟩ := hsame.udp m
      exact ⟨v, hv.trans (by rw [show (s₁.setTcp n _).udp m = s₁.udp m from rfl, hw])⟩
  | bound s₁ h hb hp =>
    have hsame := sameTables_bindAdapter hb
    refine ⟨hsame.netPortbitmap, fun m => ?_, hsame.udp⟩
    refine Eq.trans ?_ (hsame.tcp_port m)
    simp only [tcpBound, if_true]
    by_cases hm : m = n
    · subst hm; simp
    · rw [setThis_other _ hm]
      exact congrArg TcpSock.port (setTcp_other _ hm)

theorem runsTcp_bitmap {c : Step} (h : c.runsTcp = true) (s : State) :
    (next s c).netPortbitmap = releaseOption
      (if c.allocates s then (netAllocport s.netPortbitmap).2 else s.netPortbitmap)
      (c.releases s) := by
  have halloc : c.allocates s = false := by
    cases c <;> first | rfl | exact Bool.noConfusion h
  have hreleases : c.releases s = match c.runs s with
      | some (n, f) =>
        if closes s n f ∧ (s.tcp n).this.parent = none then some (bswap16 (s.tcp n).port) else none
      | none => none := by
    cases c <;> first | rfl | exact Bool.noConfusion h
  rw [halloc, hreleases]
  rcases next_runs h s with ⟨hnone, heq⟩ | ⟨n, f, hsome, hf⟩
  · rw [heq, hnone]
    rfl
  · rw [hf.netPortbitmap, hsome]
    rfl

/-- **The bits after a call**: a port may be handed out, and one may be released. -/
theorem next_netPortbitmap (s : State) (c : Step) :
    (next s c).netPortbitmap = releaseOption
      (if c.allocates s then (netAllocport s.netPortbitmap).2 else s.netPortbitmap)
      (c.releases s) := by
  cases c with
  | createUdp | createTcp | udpRef n | tcpListen n | allocport | releaseport port => rfl
  | udpBind adapters n addr => exact udpBind_bitmap adapters s n addr
  | udpSend n =>
    refine (udpSend_bitmap s n).trans ?_
    simp [Step.allocates, Step.releases, Step.runs, releaseOption]
  | udpUnref n => exact udpUnref_bitmap s n
  | tcpBind adapters n addr => exact (tcpBind_same adapters s n addr).1
  | tcpConnect n env remote remoteport => exact tcpConnect_bitmap s n env remote remoteport
  | setBindToDevice id a => exact (sameTables_bind s a id).netPortbitmap
  | unbindall a => exact (sameTables_unbindall s a).netPortbitmap
  | connectWoken | segment | timer | tcpClose => exact runsTcp_bitmap rfl s

/-! ## What a call does to the ports of sockets -/

theorem tcpSpawn_udp (s : State) (child : Tcp.Socket) : (tcpSpawn s child).udp = s.udp := by
  unfold tcpSpawn
  dsimp only
  split <;> rfl

theorem tcpSpawn_port (s : State) (child : Tcp.Socket) (m : Nat) :
    ((tcpSpawn s child).tcp m).port = if m = s.tcpCount then 0 else (s.tcp m).port := by
  unfold tcpSpawn
  dsimp only
  by_cases hm : m = s.tcpCount
  · subst hm
    split <;> simp [netBindsocket, State.setAdapter]
  · split <;> simp [netBindsocket, State.setAdapter, setTcp_other _ hm, setThis_other _ hm, hm]

/-- The function of TCP leaves the ports alone; a socket that it creates has none. -/
theorem Handled.ports {b : Bool} (h : Handled s n b s') :
    s'.udp = s.udp ∧ ∀ m, (s'.tcp m).port = 0 ∨ (s'.tcp m).port = (s.tcp m).port := by
  have hran : ∀ {b s₁}, Ran s n b s₁ →
      s₁.udp = s.udp ∧ ∀ m, (s₁.tcp m).port = (s.tcp m).port := by
    intro b s₁ hr
    have hset : ∀ (this : Tcp.Socket) (m : Nat), ((s.setThis n this).tcp m).port = (s.tcp m).port := by
      intro this m
      by_cases hm : m = n
      · subst hm; simp
      · rw [setThis_other _ hm]
    cases hr with
    | kept this => exact ⟨rfl, hset this⟩
    | released this =>
      rw [tcpReleased_eq]
      have hdet := sameTables_detached (s.setThis n this) n (s.tcp n).this.adapter
      refine ⟨?_, fun m => (hdet.tcp_port m).trans (hset this m)⟩
      cases (s.tcp n).this.adapter <;> rfl
  cases h with
  | ran hr => exact ⟨(hran hr).1, fun m => .inr ((hran hr).2 m)⟩
  | spawned hr hc =>
    obtain ⟨hudp, htcp⟩ := hran hr
    refine ⟨(tcpSpawn_udp _ _).trans hudp, fun m => ?_⟩
    rw [tcpSpawn_port]
    split
    · exact .inl rfl
    · exact .inr (htcp m)

/-- The port of a UDP socket after a call: none, one that was asked for, the one before, or one that
has just been handed out. -/
inductive UdpPort (s : State) (c : Step) (v v' : UdpSock) : Prop
  | none (h : v'.port = 0)
  | asked (h : v'.explicit = true)
  | same (hp : v'.port = v.port) (he : v'.explicit = v.explicit)
  | handed (h : c.allocates s = true) (hp : v'.port = bswap16 (netAllocport s.netPortbitmap).1)

theorem UdpPort.of_same {c : Step} (h : SameTables s s') (m : Nat) :
    UdpPort s c (s.udp m) (s'.udp m) :=
  .same (h.udp_port m) (h.udp_explicit m)

theorem udpBind_port (adapters : List Adapter) (s : State) (n : Nat) (addr : SockaddrIn) (m : Nat) :
    UdpPort s (.udpBind adapters n addr) (s.udp m) ((udpBind adapters s n addr).2.udp m) := by
  have hcases := udpBind_cases adapters s n addr
  generalize udpBind adapters s n addr = r at hcases
  have hset : ∀ {s₁ s₂ : State}, acceptsBind adapters addr = true →
      bindAdapter adapters s (.udp n) addr.addr = some s₁ →
      (∀ m, (s₂.udp m).port = ((udpSetport s₁ n addr).udp m).port ∧
        (s₂.udp m).explicit = ((udpSetport s₁ n addr).udp m).explicit) →
      UdpPort s (.udpBind adapters n addr) (s.udp m) (s₂.udp m) := by
    intro s₁ s₂ haccepts hb hsame
    have hs₁ := sameTables_bindAdapter hb
    obtain ⟨hport, hexplicit⟩ := hsame m
    by_cases hm : m = n
    · subst hm
      by_cases hzero : addr.port = 0
      · refine .handed (by simp [Step.allocates, haccepts, hzero]) ?_
        rw [hport]
        simp [udpSetport, takePort, hzero, hs₁.netPortbitmap]
      · refine .asked ?_
        rw [hexplicit]
        simpa [udpSetport] using hzero
    · have hother : (udpSetport s₁ n addr).udp m = s₁.udp m := setUdp_other _ hm
      rw [hother] at hport hexplicit
      exact .same (hport.trans (hs₁.udp_port m)) (hexplicit.trans (hs₁.udp_explicit m))
  cases hcases with
  | refused => exact .same rfl rfl
  | portless s₁ h hb =>
    have hunbind := sameTables_unbindAdapter (udpSetport s₁ n addr) (.udp n)
    exact hset h hb fun m => ⟨hunbind.udp_port m, hunbind.udp_explicit m⟩
  | bound s₁ h hb =>
    refine hset h hb fun m => ?_
    by_cases hm : m = n
    · subst hm
      simp
    · exact ⟨congrArg UdpSock.port (setUdp_other _ hm), congrArg UdpSock.explicit (setUdp_other _ hm)⟩

theorem udpSend_port (s : State) (n m : Nat) :
    UdpPort s (.udpSend n) (s.udp m) ((udpSend s n).udp m) := by
  unfold udpSend
  by_cases h : (s.udp n).port = 0
  · have hcases : ∀ s₂ : State,
        s₂.udp = ({ s with netPortbitmap := (takePort 0 s.netPortbitmap).2 : State }.setUdp n
          { s.udp n with port := (takePort 0 s.netPortbitmap).1, explicit := false }).udp →
        UdpPort s (.udpSend n) (s.udp m) (s₂.udp m) := by
      intro s₂ hs₂
      rw [hs₂]
      by_cases hm : m = n
      · subst hm
        exact .handed (by simp [Step.allocates, h]) (by simp [takePort])
      · rw [setUdp_other _ hm]
        exact .same rfl rfl
    rw [if_pos h]
    dsimp only
    split
    · exact hcases _ rfl
    · unfold udpAcquireport
      split <;> exact hcases _ rfl
  · rw [if_neg h]
    exact .same rfl rfl

theorem udpUnref_port (s : State) (n m : Nat) :
    UdpPort s (.udpUnref n) (s.udp m) ((udpUnref s n).udp m) := by
  have hset : ((s.setUdp n { s.udp n with refcount := (s.udp n).refcount - 1 }).udp m).port
        = (s.udp m).port ∧
      ((s.setUdp n { s.udp n with refcount := (s.udp n).refcount - 1 }).udp m).explicit
        = (s.udp m).explicit := by
    by_cases hm : m = n
    · subst hm; simp
    · rw [setUdp_other _ hm]
      exact ⟨rfl, rfl⟩
  unfold udpUnref
  dsimp only
  split
  · have hsame := sameTables_unbindAdapter
      (s.setUdp n { s.udp n with refcount := (s.udp n).refcount - 1 }) (.udp n)
    exact .same ((hsame.udp_port m).trans hset.1) ((hsame.udp_explicit m).trans hset.2)
  · exact .same hset.1 hset.2

/-- The socket that `tcp_connect` finds without a port is handed one. -/
theorem tcpTakePort_ports (s : State) (n : Nat) (a : Nat) (env : ConnectEnv) (remote : BitVec 32)
    (remoteport : BitVec 16) (hlooks : looksAtPort s n env remote = true) :
    (tcpTakePort (s.setAdapter (.tcp n) (some a)) n).udp = s.udp ∧
      ∀ m, ((tcpTakePort (s.setAdapter (.tcp n) (some a)) n).tcp m).port = (s.tcp m).port ∨
        ((Step.tcpConnect n env remote remoteport).allocates s = true ∧
          ((tcpTakePort (s.setAdapter (.tcp n) (some a)) n).tcp m).port
            = bswap16 (netAllocport s.netPortbitmap).1) := by
  have hsame := sameTables_setAdapter s (.tcp n) (some a)
  obtain ⟨hudp, htcp⟩ := tcpTakePort_others (s.setAdapter (.tcp n) (some a)) n
  refine ⟨hudp, fun m => ?_⟩
  by_cases hm : m = n
  · subst hm
    obtain ⟨conn, htake⟩ := tcpTakePort_tcp (s.setAdapter (.tcp m) (some a)) m
    rw [hsame.tcp_port, hsame.netPortbitmap] at htake
    by_cases hport : (s.tcp m).port = 0
    · refine .inr ⟨by simp [Step.allocates, hlooks, hport], ?_⟩
      simp [htake, takePort, hport]
    · left
      rw [htake]
      dsimp only
      rw [takePort, if_neg hport]
  · left
    rw [htcp m hm]
    exact hsame.tcp_port m

/-- `tcp_connect` may hand out a port to its socket. -/
theorem tcpConnect_ports (s : State) (n : Nat) (env : ConnectEnv) (remote : BitVec 32)
    (remoteport : BitVec 16) :
    (tcpConnect s n env remote remoteport).udp = s.udp ∧
      ∀ m, ((tcpConnect s n env remote remoteport).tcp m).port = 0 ∨
        ((tcpConnect s n env remote remoteport).tcp m).port = (s.tcp m).port ∨
        ((Step.tcpConnect n env remote remoteport).allocates s = true ∧
          ((tcpConnect s n env remote remoteport).tcp m).port
            = bswap16 (netAllocport s.netPortbitmap).1) := by
  have hcases := tcpConnect_cases s n env remote remoteport
  generalize tcpConnect s n env remote remoteport = s' at hcases
  cases hcases with
  | refused => exact ⟨rfl, fun _ => .inr (.inl rfl)⟩
  | unknown a hopen hr hl =>
    exact ⟨rfl, fun m => .inr (.inl ((sameTables_setAdapter s (.tcp n) (some a)).tcp_port m))⟩
  | portless a hopen hr hl hp =>
    obtain ⟨hudp, htcp⟩ := tcpTakePort_ports s n a env remote remoteport
      (by simp [looksAtPort, hopen, hr, hl])
    exact ⟨hudp, fun m => .inr (htcp m)⟩
  | registered a hopen hr hl hp =>
    obtain ⟨hudp, htcp⟩ := tcpTakePort_ports s n a env remote remoteport
      (by simp [looksAtPort, hopen, hr, hl])
    obtain ⟨b, hb, _⟩ := handled_register (tcpTakePort (s.setAdapter (.tcp n) (some a)) n) n a env
      remote remoteport
    obtain ⟨hudp', htcp'⟩ := hb.ports
    have hbind := sameTables_bind (tcpTakePort (s.setAdapter (.tcp n) (some a)) n) a (.tcp n)
    refine ⟨hudp'.trans hudp, fun m => ?_⟩
    rcases htcp' m with hzero | hsame
    · exact .inl hzero
    · rw [hsame, show ((connecting _ n a).tcp m).port = _ from hbind.tcp_port m]
      exact .inr (htcp m)

theorem runsTcp_ports {c : Step} (h : c.runsTcp = true) (s : State) :
    (next s c).udp = s.udp ∧
      ∀ m, ((next s c).tcp m).port = 0 ∨ ((next s c).tcp m).port = (s.tcp m).port := by
  rcases next_handled h s with heq | ⟨n, b, hb⟩
  · rw [heq]
    exact ⟨rfl, fun _ => .inr rfl⟩
  · exact hb.ports

theorem next_udp_port (s : State) (c : Step) (m : Nat) :
    UdpPort s c (s.udp m) ((next s c).udp m) := by
  cases c with
  | createTcp | tcpListen n | allocport | releaseport port => exact .same rfl rfl
  | createUdp =>
    by_cases hm : m = s.udpCount
    · subst hm
      exact .none (by simp [next, udpSock])
    · rw [show (next s .createUdp).udp m = s.udp m from setUdp_other _ hm]
      exact .same rfl rfl
  | udpRef n =>
    by_cases hm : m = n
    · subst hm
      exact .same (by simp [next]) (by simp [next])
    · rw [show (next s (.udpRef n)).udp m = s.udp m from setUdp_other _ hm]
      exact .same rfl rfl
  | udpBind adapters n addr => exact udpBind_port adapters s n addr m
  | udpSend n => exact udpSend_port s n m
  | udpUnref n => exact udpUnref_port s n m
  | tcpBind adapters n addr =>
    obtain ⟨v, hv⟩ := (tcpBind_same adapters s n addr).2.2 m
    rw [show (next s (.tcpBind adapters n addr)).udp m = { s.udp m with adapter := v } from hv]
    exact .same rfl rfl
  | tcpConnect n env remote remoteport =>
    rw [show (next s (.tcpConnect n env remote remoteport)).udp = s.udp from
      (tcpConnect_ports s n env remote remoteport).1]
    exact .same rfl rfl
  | setBindToDevice id a => exact .of_same (sameTables_bind s a id) m
  | unbindall a => exact .of_same (sameTables_unbindall s a) m
  | connectWoken | segment | timer | tcpClose =>
    rw [(runsTcp_ports rfl s).1]
    exact .same rfl rfl

theorem udpBind_tcp (adapters : List Adapter) (s : State) (n : Nat) (addr : SockaddrIn) (m : Nat) :
    ((udpBind adapters s n addr).2.tcp m).port = (s.tcp m).port := by
  have hcases := udpBind_cases adapters s n addr
  generalize udpBind adapters s n addr = r at hcases
  cases hcases with
  | refused => rfl
  | portless s₁ h hb =>
    rw [(sameTables_unbindAdapter _ (.udp n)).tcp_port m]
    exact (sameTables_bindAdapter hb).tcp_port m
  | bound s₁ h hb => exact (sameTables_bindAdapter hb).tcp_port m

theorem next_tcp_port (s : State) (c : Step) (m : Nat) :
    ((next s c).tcp m).port = 0 ∨ ((next s c).tcp m).port = (s.tcp m).port ∨
      (c.allocates s = true ∧
        ((next s c).tcp m).port = bswap16 (netAllocport s.netPortbitmap).1) := by
  cases c with
  | createUdp | udpRef n | allocport | releaseport port => exact .inr (.inl rfl)
  | createTcp =>
    by_cases hm : m = s.tcpCount
    · subst hm
      exact .inl (by simp [next, tcpSock])
    · exact .inr (.inl (congrArg TcpSock.port (setTcp_other _ hm)))
  | udpBind adapters n addr => exact .inr (.inl (udpBind_tcp adapters s n addr m))
  | udpSend n =>
    refine .inr (.inl ?_)
    simp only [next, udpSend, udpAcquireport]
    split
    · split
      · rfl
      · split <;> rfl
    · rfl
  | udpUnref n =>
    refine .inr (.inl ?_)
    simp only [next, udpUnref]
    split
    · exact (sameTables_unbindAdapter _ (.udp n)).tcp_port m
    · rfl
  | tcpBind adapters n addr => exact .inr (.inl ((tcpBind_same adapters s n addr).2.1 m))
  | tcpListen n =>
    by_cases hm : m = n
    · subst hm
      exact .inr (.inl (by simp [next]))
    · exact .inr (.inl (congrArg TcpSock.port (setThis_other _ hm)))
  | tcpConnect n env remote remoteport =>
    exact (tcpConnect_ports s n env remote remoteport).2 m
  | setBindToDevice id a => exact .inr (.inl ((sameTables_bind s a id).tcp_port m))
  | unbindall a => exact .inr (.inl ((sameTables_unbindall s a).tcp_port m))
  | connectWoken | segment | timer | tcpClose =>
    refine Or.imp_right .inl ((runsTcp_ports ?_ s).2 m)
    rfl

/-! ## Runs -/

/-- The port has been handed out. -/
def Handed (bitmap : Bitmap) (port : BitVec 16) : Prop :=
  portRangeStart ≤ port.toNat ∧ taken bitmap port = true

/-- Every port of a socket that it did not ask for has been handed out. -/
structure Ports (s : State) : Prop where
  udp : ∀ n, (s.udp n).explicit = false → (s.udp n).port ≠ 0 →
    Handed s.netPortbitmap (bswap16 (s.udp n).port)
  tcp : ∀ n, (s.tcp n).port ≠ 0 → Handed s.netPortbitmap (bswap16 (s.tcp n).port)

/-- A socket that is alive has the port, in the order of bytes of the processor. -/
def Owns (s : State) (port : BitVec 16) : SockId → Prop
  | .udp n => n < s.udpCount ∧ 0 < (s.udp n).refcount ∧ bswap16 (s.udp n).port = port
  | .tcp n => n < s.tcpCount ∧ (s.tcp n).this.freed = false ∧ bswap16 (s.tcp n).port = port

/-- The socket that releases its port was given it, or nobody knows. -/
def Step.releasesHanded (s : State) : Step → Bool
  | .udpUnref n => !(s.udp n).explicit
  | _ => true

/-- The calls that do no harm. The first bit that is clear belongs to a port, and no socket has asked
for this port. A port that is released has no bit that is still set, and no other port has the bit
with its number. -/
structure KeepsPorts (s : State) (c : Step) : Prop where
  bit : c.allocates s = true → ∀ k, freeBit s.netPortbitmap = some k → k ≤ portCount
  asked : c.allocates s = true → ∀ k, freeBit s.netPortbitmap = some k → ∀ n < s.udpCount,
    0 < (s.udp n).refcount → (s.udp n).explicit = true →
    (bswap16 (s.udp n).port).toNat ≠ portRangeStart + k
  keeps : c.allocates s = true → c.releases s = none
  other : ∀ port, c.releases s = some port → port.toNat < portCount →
    bitmapTest s.netPortbitmap port.toNat = false
  handed : ∀ port, c.releases s = some port → c.releasesHanded s = true →
    portRangeStart ≤ port.toNat → taken s.netPortbitmap port = false

/-- What a call should do with ports. -/
structure PortsRight (s : State) (c : Step) : Prop where
  /-- A port that is handed out is in the range. -/
  range : c.allocates s = true → (netAllocport s.netPortbitmap).1 ≠ 0 →
    portRangeStart ≤ (netAllocport s.netPortbitmap).1.toNat ∧
      (netAllocport s.netPortbitmap).1.toNat ≤ portRangeEnd
  /-- No socket has it. -/
  fresh : c.allocates s = true → (netAllocport s.netPortbitmap).1 ≠ 0 →
    ∀ id, ¬ Owns s (netAllocport s.netPortbitmap).1 id
  /-- A port that is released by its owner can be handed out again. -/
  again : ∀ port, c.releases s = some port → c.releasesHanded s = true →
    portRangeStart ≤ port.toNat → taken (next s c).netPortbitmap port = false
  /-- A release changes no other port. -/
  others : ∀ port, c.releases s = some port → ∀ port', port' ≠ port →
    portRangeStart ≤ port'.toNat →
    taken (next s c).netPortbitmap port' = taken s.netPortbitmap port'

theorem Ports.start : Ports start where
  udp := fun _ _ h => absurd rfl h
  tcp := fun _ h => absurd rfl h

theorem KeepsPorts.keepsBits {c : Step} (h : KeepsPorts s c) :
    KeepsBits s.netPortbitmap (next s c).netPortbitmap := by
  rw [next_netPortbitmap]
  by_cases hc : c.allocates s = true
  · rw [if_pos hc, h.keeps hc]
    exact .alloc _
  · rw [if_neg hc]
    cases hr : c.releases s with
    | none => exact fun _ _ h => h
    | some port => exact .release (h.other port hr)

theorem Handed.keep {port : BitVec 16} {bitmap' : Bitmap} (h : Handed bitmap port)
    (hk : KeepsBits bitmap bitmap') : Handed bitmap' port := by
  refine ⟨h.1, hk _ ?_ h.2⟩
  have := port.isLt
  have := h.1
  simp only [portCount, portRangeEnd, portRangeStart] at this ⊢
  omega

theorem KeepsPorts.handedOut {c : Step} (h : KeepsPorts s c) (hc : c.allocates s = true)
    (hp : (netAllocport s.netPortbitmap).1 ≠ 0) :
    Handed (next s c).netPortbitmap (netAllocport s.netPortbitmap).1 := by
  obtain ⟨k, hfree, hk, hport, hset⟩ := netAllocport_port (h.bit hc) hp
  rw [next_netPortbitmap, if_pos hc, h.keeps hc]
  refine ⟨by omega, ?_⟩
  have : (netAllocport s.netPortbitmap).1.toNat - portRangeStart = k := by omega
  rw [taken, this]
  simp [releaseOption, hset]

theorem Ports.next {c : Step} (h : Ports s) (hok : KeepsPorts s c) : Ports (Inet.next s c) where
  udp := by
    intro n hexplicit hport
    cases next_udp_port s c n with
    | none hzero => exact absurd hzero hport
    | asked hasked =>
      rw [hasked] at hexplicit
      exact Bool.noConfusion hexplicit
    | same hp he =>
      rw [hp] at hport ⊢
      exact (h.udp n (he ▸ hexplicit) hport).keep hok.keepsBits
    | handed hc hp =>
      rw [hp] at hport ⊢
      rw [bswap16_bswap16]
      exact hok.handedOut hc fun hzero => hport (bswap16_eq_zero.mpr hzero)
  tcp := by
    intro n hport
    rcases next_tcp_port s c n with hzero | hp | ⟨hc, hp⟩
    · exact absurd hzero hport
    · rw [hp] at hport ⊢
      exact (h.tcp n hport).keep hok.keepsBits
    · rw [hp] at hport ⊢
      rw [bswap16_bswap16]
      exact hok.handedOut hc fun hzero => hport (bswap16_eq_zero.mpr hzero)

/-- The bit of a port that a socket has been given is set, so it is not found again. -/
theorem Ports.fresh {c : Step} (h : Ports s) (hok : KeepsPorts s c) (hc : c.allocates s = true)
    (hp : (netAllocport s.netPortbitmap).1 ≠ 0) (id : SockId) :
    ¬ Owns s (netAllocport s.netPortbitmap).1 id := by
  obtain ⟨k, hfree, hk, hport, _⟩ := netAllocport_port (hok.bit hc) hp
  have hnot : ¬ Handed s.netPortbitmap (netAllocport s.netPortbitmap).1 := by
    rintro ⟨_, htaken⟩
    have : (netAllocport s.netPortbitmap).1.toNat - portRangeStart = k := by omega
    rw [taken, this, freeBit_some hfree] at htaken
    exact Bool.noConfusion htaken
  cases id with
  | udp n =>
    rintro ⟨hn, hlive, heq⟩
    cases hexplicit : (s.udp n).explicit with
    | true => exact hok.asked hc k hfree n hn hlive hexplicit (heq ▸ hport)
    | false =>
      refine hnot (heq ▸ h.udp n hexplicit fun hzero => hp ?_)
      rw [← heq]
      exact bswap16_eq_zero.mpr hzero
  | tcp n =>
    rintro ⟨_, _, heq⟩
    refine hnot (heq ▸ h.tcp n fun hzero => hp ?_)
    rw [← heq]
    exact bswap16_eq_zero.mpr hzero

theorem KeepsPorts.released {c : Step} (h : KeepsPorts s c) {port : BitVec 16}
    (hr : c.releases s = some port) :
    (Inet.next s c).netPortbitmap = netReleaseport s.netPortbitmap port := by
  have hc : ¬ c.allocates s = true := by
    intro hc
    rw [h.keeps hc] at hr
    cases hr
  rw [next_netPortbitmap, if_neg hc, hr]
  rfl

theorem Ports.right {c : Step} (h : Ports s) (hok : KeepsPorts s c) : PortsRight s c where
  range := by
    intro hc hp
    obtain ⟨k, _, hk, hport, _⟩ := netAllocport_port (hok.bit hc) hp
    simp only [portCount] at hk
    omega
  fresh := h.fresh hok
  again := by
    intro port hr hhanded hrange
    rw [hok.released hr, taken, netReleaseport, bitmapTest_bitmapReset,
      show bitmapTest s.netPortbitmap (port.toNat - portRangeStart) = false from
        hok.handed port hr hhanded hrange, Bool.and_false]
  others := by
    intro port hr port' hne hrange
    rw [hok.released hr, taken, taken, netReleaseport, bitmapTest_bitmapReset]
    by_cases hbit : port.toNat = port'.toNat - portRangeStart
    · -- the bit with the number of the port is the one of another port
      have hlt : port.toNat < portCount := by
        have := port'.isLt
        simp only [portCount, portRangeEnd, portRangeStart] at hbit ⊢
        omega
      have hclear := hok.other port hr hlt
      rw [hbit] at hclear
      rw [hclear, Bool.and_false]
    · simp [hbit]

/-- **Ports are handed out and released as they should be**, in every run of calls that keep to
`KeepsPorts`. -/
theorem ports_right {c : Step} (hr : Reach Steps KeepsPorts start s) (hok : KeepsPorts s c) :
    PortsRight s c := by
  have hports : Ports s := by
    refine hr.invariant .start fun s c s' h hok hs => ?_
    obtain ⟨_, rfl⟩ := hs
    exact h.next hok
  exact hports.right hok

theorem KeepsPorts.of_quiet {c : Step} (ha : c.allocates s = false) (hr : c.releases s = none) :
    KeepsPorts s c where
  bit := fun h => absurd h (by simp [ha])
  asked := fun h => absurd h (by simp [ha])
  keeps := fun _ => hr
  other := fun port h => absurd h (by simp [hr])
  handed := fun port h => absurd h (by simp [hr])

theorem ports_right_two :
    ∃ s c, Reach Steps KeepsPorts start s ∧ KeepsPorts s c ∧ c.allocates s = true ∧
      (netAllocport s.netPortbitmap).1 = 49152 ∧ Owns s 5000 (.udp 0) ∧ PortsRight s c := by
  let bind : Step := .udpBind [] 0 ⟨true, bswap16 5000, inaddrAny⟩
  let bindAny : Step := .udpBind [] 1 ⟨true, 0, inaddrAny⟩
  have hfirst : Reach Steps KeepsPorts start (next start .createUdp) :=
    .tail (a := Step.createUdp) .refl (.of_quiet rfl rfl) ⟨by rintro _ ⟨⟩, rfl⟩
  have hbound := hfirst.tail (a := bind) (.of_quiet (by decide +kernel) rfl)
    ⟨by rintro _ ⟨⟩; decide +kernel, rfl⟩
  have hsecond := hbound.tail (a := Step.createUdp) (.of_quiet rfl rfl) ⟨by rintro _ ⟨⟩, rfl⟩
  have hfree : freeBit (next (next (next start .createUdp) bind) .createUdp).netPortbitmap
      = some 0 := by decide +kernel
  have hports : ∀ n < 2,
      (bswap16 ((next (next (next start .createUdp) bind) .createUdp).udp n).port).toNat
        ≠ portRangeStart := by decide +kernel
  have hok : KeepsPorts (next (next (next start .createUdp) bind) .createUdp) bindAny :=
    { bit := by
        intro _ k hk
        obtain rfl : 0 = k := Option.some.inj (hfree.symm.trans hk)
        decide
      asked := by
        intro _ k hk n hn _ _
        obtain rfl : 0 = k := Option.some.inj (hfree.symm.trans hk)
        exact hports n hn
      keeps := fun _ => rfl
      other := fun port h => absurd h (by simp [bindAny, Step.releases, Step.runs])
      handed := fun port h => absurd h (by simp [bindAny, Step.releases, Step.runs]) }
  exact ⟨_, bindAny, hsecond, hok, by decide +kernel, by decide +kernel,
    ⟨by decide +kernel, by decide +kernel, by decide +kernel⟩, ports_right hsecond hok⟩

/-- A port that a socket has asked for is handed out to another one. A port that is released is still
marked, and a socket without a port releases the first port of the range, which has an owner. -/
theorem ports_wrong :
    ∃ s₁ s₂ s₃, Reach Steps anyStep start s₁ ∧ Reach Steps anyStep start s₂ ∧
      Reach Steps anyStep start s₃ ∧
      Owns s₁ (netAllocport s₁.netPortbitmap).1 (.udp 0) ∧
      ((Step.udpUnref 0).releases s₂ = some 49152 ∧
        taken (next s₂ (.udpUnref 0)).netPortbitmap 49152 = true) ∧
      ((Step.udpUnref 1).releases s₃ = some 0 ∧ Owns s₃ 49152 (.udp 0) ∧
        taken s₃.netPortbitmap 49152 = true ∧
        taken (next s₃ (.udpUnref 1)).netPortbitmap 49152 = false) := by
  let bind (port : BitVec 16) : Step := .udpBind [] 0 ⟨true, bswap16 port, inaddrAny⟩
  have hcreated : Reach Steps anyStep start (next start .createUdp) :=
    .tail (a := Step.createUdp) .refl trivial ⟨by rintro _ ⟨⟩, rfl⟩
  have hasked := hcreated.tail (a := bind 49152) trivial ⟨by rintro _ ⟨⟩; decide +kernel, rfl⟩
  have hhanded := hcreated.tail (a := bind 0) trivial ⟨by rintro _ ⟨⟩; decide +kernel, rfl⟩
  have htwo := hhanded.tail (a := Step.createUdp) trivial ⟨by rintro _ ⟨⟩, rfl⟩
  refine ⟨_, _, _, hasked, hhanded, htwo, ?_, ?_, ?_⟩
  · exact ⟨by decide +kernel, by decide +kernel, by decide +kernel⟩
  · decide +kernel
  · exact ⟨by decide +kernel, ⟨by decide +kernel, by decide +kernel, by decide +kernel⟩,
      by decide +kernel, by decide +kernel⟩

end Lyre.Inet
