import Lyre.Infra.Run
import Lyre.Properties.Inet

/-!
# The vector `tcp_sockets`

`tcp_close` takes a socket out of `tcp_sockets` once before it frees it. So the vector must hold
every socket at most once, and no socket that is freed (`Registered`). A socket enters when it is
bound, when it connects and when a segment creates it. `tcp_connect` registers a socket that has no
port twice.

* `RegistersOnce`: the calls that register no socket that is registered already or freed.
* `tcpSockets_sound`: with such calls the vector is as it should be, whatever the order of the calls.
-/

namespace Lyre.Inet

open Net Infra

variable {s s' : State} {n : Nat}

structure Registered (s : State) : Prop where
  nodup : s.tcpSockets.Nodup
  live : ∀ n ∈ s.tcpSockets, (s.tcp n).this.freed = false
  known : ∀ n ∈ s.tcpSockets, n < s.tcpCount

theorem Registered.congr (h : Registered s) (ht : s'.tcpSockets = s.tcpSockets)
    (hc : s.tcpCount ≤ s'.tcpCount)
    (hf : ∀ n ∈ s.tcpSockets, (s'.tcp n).this.freed = (s.tcp n).this.freed) : Registered s' where
  nodup := ht ▸ h.nodup
  live := by
    intro n hn
    rw [ht] at hn
    rw [hf n hn]
    exact h.live n hn
  known := by
    intro n hn
    rw [ht] at hn
    exact Nat.lt_of_lt_of_le (h.known n hn) hc

theorem Registered.same (h : Registered s) (hs : SameTables s s') : Registered s' :=
  h.congr hs.tcpSockets (Nat.le_of_eq hs.tcpCount.symm) fun n _ => hs.tcp_freed n

theorem Registered.push (h : Registered s) (hn : n ∉ s.tcpSockets)
    (hf : (s.tcp n).this.freed = false) (hc : n < s.tcpCount) :
    Registered { s with tcpSockets := s.tcpSockets ++ [n] } where
  nodup := List.concat_eq_append ▸ h.nodup.concat hn
  live := by
    intro m hm
    rcases List.mem_append.mp hm with hm | hm
    · exact h.live m hm
    · exact List.mem_singleton.mp hm ▸ hf
  known := by
    intro m hm
    rcases List.mem_append.mp hm with hm | hm
    · exact h.known m hm
    · exact List.mem_singleton.mp hm ▸ hc

theorem Registered.setTcp (h : Registered s) {v : TcpSock}
    (hf : v.this.freed = (s.tcp n).this.freed) : Registered (s.setTcp n v) := by
  refine h.congr rfl (Nat.le_refl _) fun m _ => ?_
  by_cases hm : m = n
  · subst hm; simp [hf]
  · rw [setTcp_other _ hm]

/-! ## Closing and creating -/

theorem Registered.released (h : Registered s) {this : Tcp.Socket} (adapter : Option Nat) :
    Registered (tcpReleased (s.setThis n this) n adapter) := by
  rw [tcpReleased_eq]
  have hsame := sameTables_detached (s.setThis n this) n adapter
  have hne : ∀ m ∈ s.tcpSockets.erase n, m ≠ n ∧ m ∈ s.tcpSockets := fun m hm =>
    h.nodup.mem_erase_iff.mp hm
  exact
    { nodup := h.nodup.erase n
      live := by
        intro m hm
        obtain ⟨hmn, hm⟩ := hne m hm
        refine (hsame.tcp_freed m).trans ?_
        rw [setThis_other _ hmn]
        exact h.live m hm
      known := by
        intro m hm
        refine Nat.lt_of_lt_of_eq ?_ hsame.tcpCount.symm
        exact h.known m (hne m hm).2 }

theorem Registered.ran (h : Registered s) {b : Bool} (hr : Ran s n b s') : Registered s' := by
  cases hr with
  | kept this _ hf => exact h.setTcp hf
  | released this => exact h.released _

theorem Registered.spawn (h : Registered s) {child : Tcp.Socket} (hc : Tcp.Child child) :
    Registered (tcpSpawn s child) := by
  obtain ⟨a, ha⟩ := hc.adapter
  have hnew : s.tcpCount ∉ s.tcpSockets := fun hin => Nat.lt_irrefl _ (h.known _ hin)
  have hs : Registered ({ s with tcpCount := s.tcpCount + 1 : State }.setTcp s.tcpCount
      { this := { child with adapter := none }, port := 0, localaddr := 0, bound := false }) := by
    refine h.congr rfl (Nat.le_succ _) fun m hm => ?_
    have : m ≠ s.tcpCount := fun hc => hnew (hc ▸ hm)
    rw [setTcp_other _ this]
  have hb := sameTables_bind ({ s with tcpCount := s.tcpCount + 1 : State }.setTcp s.tcpCount
    { this := { child with adapter := none }, port := 0, localaddr := 0, bound := false }) a
    (.tcp s.tcpCount)
  unfold tcpSpawn
  simp only [ha]
  refine (hs.same hb).push ?_ ?_ ?_
  · rw [hb.tcpSockets]
    exact hnew
  · rw [hb.tcp_freed]
    simpa using hc.live
  · rw [hb.tcpCount]
    exact Nat.lt_succ_self _

theorem Registered.handled (h : Registered s) {b : Bool} (hr : Handled s n b s') : Registered s' := by
  cases hr with
  | ran hr => exact h.ran hr
  | spawned hr hc => exact (h.ran hr).spawn hc

theorem Registered.settled (h : Registered s) (hs : s' = s ∨ ∃ n b, Handled s n b s') :
    Registered s' := by
  rcases hs with rfl | ⟨n, b, hn⟩
  · exact h
  · exact h.handled hn

/-! ## Runs -/

/-- The call registers no socket that is registered already, or freed. -/
def RegistersOnce (s : State) : Step → Prop
  | .tcpBind adapters n addr =>
    acceptsBind adapters addr = true → (s.tcp n).port ≠ 0 →
      n ∉ s.tcpSockets ∧ (s.tcp n).this.freed = false
  | .tcpConnect n env remote _ =>
    Tcp.refusesConnect (s.tcp n).this = false →
      (routeAdapter env.adapters (s.tcp n).this.adapter remote).isSome → env.lookup = true →
      findsPort s n = true →
      (s.tcp n).port ≠ 0 ∧ n ∉ s.tcpSockets ∧ (s.tcp n).this.freed = false
  | _ => True

theorem Registered.tcpBind (h : Registered s) {adapters : List Adapter} {addr : SockaddrIn}
    (hn : n < s.tcpCount) (hok : RegistersOnce s (.tcpBind adapters n addr)) :
    Registered (tcpBound (Inet.tcpBind adapters s n addr) n) := by
  have hcases := tcpBind_cases adapters s n addr
  generalize Inet.tcpBind adapters s n addr = r at hcases
  cases hcases with
  | refused => exact h
  | portless s₁ _ hb =>
    have hset := (h.same (sameTables_bindAdapter hb)).setTcp (n := n)
      (v := { s₁.tcp n with localaddr := addr.addr }) rfl
    exact hset.same (sameTables_unbindAdapter _ _)
  | bound s₁ haccepts hb hport =>
    obtain ⟨hnew, hlive⟩ := hok haccepts hport
    have hsame := sameTables_bindAdapter hb
    have hlive₁ : (s₁.tcp n).this.freed = false := (hsame.tcp_freed n).trans hlive
    have hset := (h.same hsame).setTcp (n := n) (v := { s₁.tcp n with
      this := { (s₁.tcp n).this with conn := ⟨addr.addr, inaddrAny, (s.tcp n).port, 0⟩ }
      localaddr := addr.addr
      bound := true }) rfl
    have hpush := hset.push (n := n) (hsame.tcpSockets ▸ hnew) (by simpa using hlive₁)
      (Nat.lt_of_lt_of_eq hn hsame.tcpCount.symm)
    rw [show (s₁.setTcp n _).tcpSockets = s.tcpSockets from hsame.tcpSockets] at hpush
    exact hpush.setTcp rfl

theorem Registered.register (h : Registered s) {env : ConnectEnv} {remote : BitVec 32}
    {remoteport : BitVec 16} {a : Nat} (hn : n < s.tcpCount) (hnew : n ∉ s.tcpSockets)
    (hlive : (s.tcp n).this.freed = false) :
    Registered (tcpRegister s n a env remote remoteport) := by
  have hsame := sameTables_bind s a (.tcp n)
  have hpush := (h.same hsame).push (n := n) (hsame.tcpSockets ▸ hnew)
    ((hsame.tcp_freed n).trans hlive) (Nat.lt_of_lt_of_eq hn hsame.tcpCount.symm)
  rw [hsame.tcpSockets] at hpush
  obtain ⟨b, hb, _⟩ := handled_register s n a env remote remoteport
  exact hpush.handled hb

theorem Registered.tcpConnect (h : Registered s) {env : ConnectEnv} {remote : BitVec 32}
    {remoteport : BitVec 16} (hn : n < s.tcpCount)
    (hok : RegistersOnce s (.tcpConnect n env remote remoteport)) :
    Registered (Inet.tcpConnect s n env remote remoteport) := by
  have hcases := tcpConnect_cases s n env remote remoteport
  generalize Inet.tcpConnect s n env remote remoteport = s' at hcases
  cases hcases with
  | refused => exact h
  | unknown a => exact h.same (sameTables_setAdapter s _ _)
  | portless a hopen hr hl hp =>
    have hsame := sameTables_setAdapter s (.tcp n) (some a)
    simp only [findsPort, ne_eq, decide_not, Bool.or_eq_false_iff, Bool.not_eq_eq_eq_not,
      Bool.not_false, decide_eq_true_eq] at hp
    rw [tcpTakePort_of_none (hsame.tcp_port n ▸ hp.1) (hsame.netPortbitmap ▸ hp.2)]
    exact (h.same hsame).congr rfl (Nat.le_refl _) fun _ _ => rfl
  | registered a hopen hr hl hp =>
    obtain ⟨hport, hnew, hlive⟩ := hok hopen (by simp [hr]) hl hp
    have hsame := sameTables_setAdapter s (.tcp n) (some a)
    rw [tcpTakePort_of_port (hsame.tcp_port n ▸ hport)]
    exact (h.same hsame).register (Nat.lt_of_lt_of_eq hn hsame.tcpCount.symm)
      (hsame.tcpSockets ▸ hnew) ((hsame.tcp_freed n).trans hlive)

theorem Registered.udpBind (h : Registered s) (adapters : List Adapter) (n : Nat)
    (addr : SockaddrIn) : Registered (Inet.udpBind adapters s n addr).2 := by
  have hcases := udpBind_cases adapters s n addr
  generalize Inet.udpBind adapters s n addr = r at hcases
  cases hcases with
  | refused => exact h
  | portless s₁ _ hb =>
    have hset : Registered (udpSetport s₁ n addr) :=
      (h.same (sameTables_bindAdapter hb)).congr rfl (Nat.le_refl _) fun _ _ => rfl
    exact hset.same (sameTables_unbindAdapter _ _)
  | bound s₁ _ hb =>
    exact (h.same (sameTables_bindAdapter hb)).congr rfl (Nat.le_refl _) fun _ _ => rfl

theorem Registered.udpSend (h : Registered s) (n : Nat) : Registered (Inet.udpSend s n) := by
  unfold Inet.udpSend udpAcquireport
  dsimp only
  split
  · split
    · exact h.congr rfl (Nat.le_refl _) fun _ _ => rfl
    · split <;> exact h.congr rfl (Nat.le_refl _) fun _ _ => rfl
  · exact h

theorem Registered.udpUnref (h : Registered s) (n : Nat) : Registered (Inet.udpUnref s n) := by
  have hset : Registered (s.setUdp n { s.udp n with refcount := (s.udp n).refcount - 1 }) :=
    h.congr rfl (Nat.le_refl _) fun _ _ => rfl
  unfold Inet.udpUnref
  dsimp only
  split
  · exact (hset.same (sameTables_unbindAdapter _ (.udp n))).congr rfl (Nat.le_refl _) fun _ _ => rfl
  · exact hset

theorem Registered.next (h : Registered s) {c : Step} (hp : Possible s c)
    (hok : RegistersOnce s c) : Registered (Inet.next s c) := by
  cases c with
  | createUdp | udpRef n | allocport | releaseport port =>
    exact h.congr rfl (Nat.le_refl _) fun _ _ => rfl
  | createTcp =>
    refine h.congr rfl (Nat.le_succ _) fun m hm => ?_
    have hne : m ≠ s.tcpCount := Nat.ne_of_lt (h.known m hm)
    exact congrArg (fun v => v.this.freed) (setTcp_other _ hne)
  | udpBind adapters n addr => exact h.udpBind adapters n addr
  | udpSend n => exact h.udpSend n
  | udpUnref n => exact h.udpUnref n
  | tcpBind adapters n addr => exact h.tcpBind (by simpa [State.exists] using (hp _ rfl).1) hok
  | tcpListen n =>
    obtain ⟨state, tcpstate, heq⟩ := tcpListening_eq (s.tcp n).this
    have hkept : (tcpListening (s.tcp n).this).freed = (s.tcp n).this.freed := by rw [heq]
    exact h.setTcp hkept
  | tcpConnect n env remote remoteport =>
    exact h.tcpConnect (by simpa [State.exists] using (hp _ rfl).1) hok
  | connectWoken | segment | timer | tcpClose => exact h.settled (next_handled rfl s)
  | setBindToDevice id a => exact h.same (sameTables_bind s a id)
  | unbindall a => exact h.same (sameTables_unbindall s a)

/-- **A socket is in `tcp_sockets` at most once, and no socket that is freed**, in every run of calls
that register no socket twice. -/
theorem tcpSockets_sound {s₀ s : State} (h₀ : Registered s₀)
    (hr : Reach Steps RegistersOnce s₀ s) :
    s.tcpSockets.Nodup ∧ ∀ n ∈ s.tcpSockets, (s.tcp n).this.freed = false := by
  have hreg : Registered s := by
    refine hr.invariant h₀ fun s c s' h hok hs => ?_
    obtain ⟨hp, rfl⟩ := hs
    exact h.next hp hok
  exact ⟨hreg.nodup, hreg.live⟩

/-- A socket that has a port, before it listens. -/
def portedSocket : State := { start with
  tcp := fun _ => { tcpSock with port := 0x5000 }
  tcpCount := 1 }

/-- `SYN` from port 1025 for the port of `portedSocket`. -/
def synHeader : Nat → Byte := fun i => [4, 1, 0, 0x50, 0, 0, 0, 1, 0, 0, 0, 0, 0x50, 2].getD i 0

/-- Its addresses. -/
def synAddresses : InetHeader :=
  ⟨5, 4, 0, 0, 0, 0, 0, 64, 6, 0, 0x0302000a, 0x0f02000a⟩

/-- What the kernel has for a segment. -/
def segmentEnv : Nat → Tcp.Env := fun n => ⟨0, n, some 0, fun _ => 0, 7⟩

theorem registered_portedSocket : Registered portedSocket :=
  ⟨List.nodup_nil, fun _ hn => absurd hn List.not_mem_nil, fun _ hn => absurd hn List.not_mem_nil⟩

theorem tcpSockets_sound_listener :
    ∃ s, Reach Steps RegistersOnce portedSocket s ∧ s.tcpSockets = [0, 1] ∧
      s.tcpSockets.Nodup ∧ ∀ n ∈ s.tcpSockets, (s.tcp n).this.freed = false := by
  let bind : Step := .tcpBind [] 0 ⟨true, 0x5000, inaddrAny⟩
  let segment : Step := .segment segmentEnv synAddresses synHeader Tcp.headerSize
  have hbound : Reach Steps RegistersOnce portedSocket (next portedSocket bind) :=
    .tail (a := bind) .refl (fun _ _ => ⟨List.not_mem_nil, rfl⟩)
      ⟨by rintro _ ⟨⟩; decide +kernel, rfl⟩
  have hlistening := hbound.tail (a := Step.tcpListen 0) trivial
    ⟨by rintro _ ⟨⟩; decide +kernel, rfl⟩
  have hspawned := hlistening.tail (a := segment) trivial ⟨by rintro _ ⟨⟩, rfl⟩
  exact ⟨_, hspawned, by decide +kernel, tcpSockets_sound registered_portedSocket hspawned⟩

/-- A socket that connects is registered with its new port, and then once more. After the time is
out it is freed, but it is still in the vector. -/
theorem tcpSockets_twice :
    ∃ s s', Reach Steps anyStep start s ∧ Reach Steps anyStep start s' ∧ ¬ s.tcpSockets.Nodup ∧
      0 ∈ s'.tcpSockets ∧ (s'.tcp 0).this.freed = true := by
  let connect : Step := .tcpConnect 0 ⟨[ethernet], true, 0, 1, true⟩ 0x0302000a 0x5000
  have hcreated : Reach Steps anyStep start (next start .createTcp) :=
    .tail .refl trivial ⟨by rintro _ ⟨⟩, rfl⟩
  have hconnecting := hcreated.tail (a := connect) trivial ⟨by rintro _ ⟨⟩; decide +kernel, rfl⟩
  have hfreed := hconnecting.tail (a := Step.connectWoken 0 1) trivial
    ⟨by rintro _ ⟨⟩; decide +kernel, rfl⟩
  exact ⟨_, _, hconnecting, hfreed, by decide +kernel, by decide +kernel, by decide +kernel⟩

end Lyre.Inet

/-!
## From `bind` to the segments of a listening socket

`tcp_bind` registers the socket with the port in its field `port`, and not with the port of the
address it is given. `tcp_tryfindsocket` looks for the port of the segment.

* `Tcp.tcpTryfindsocket_some`, `Tcp.tcpTryfindsocket_isSome`: what the three passes can find, and
  that they find a socket that listens.
* `listener_found_iff`: a socket that is bound and listens gets the segments for its address and port
  exactly if it had this port before.
-/

namespace Lyre.Tcp

variable {sockets : List Socket} {conn : Connection}

theorem tcpGrabsocket_some {i : Nat} (h : tcpGrabsocket sockets conn = some i) :
    ∃ socket, sockets[i]? = some socket ∧ socket.conn = conn := by
  obtain ⟨hi, hconn, _⟩ := List.findIdx?_eq_some_iff_getElem.mp h
  exact ⟨_, List.getElem?_eq_getElem hi, by simpa using hconn⟩

theorem tcpGrabsocket_none (h : tcpGrabsocket sockets conn = none) :
    ∀ socket ∈ sockets, socket.conn ≠ conn := by
  intro socket hs
  simpa using List.findIdx?_eq_none_iff.mp h socket hs

theorem tcpTryfindsocket_some {i : Nat} (h : tcpTryfindsocket sockets conn = some i) :
    ∃ socket, sockets[i]? = some socket ∧ socket.conn.localport = conn.localport ∧
      (socket.conn = conn ∨ socket.conn.remote = 0 ∧ socket.conn.remoteport = 0) := by
  unfold tcpTryfindsocket at h
  split at h
  · next hfirst =>
    obtain ⟨socket, hi, heq⟩ := tcpGrabsocket_some hfirst
    obtain rfl := Option.some.inj h
    exact ⟨socket, hi, by rw [heq], .inl heq⟩
  · dsimp only at h
    split at h
    · next hsecond =>
      obtain ⟨socket, hi, heq⟩ := tcpGrabsocket_some hsecond
      obtain rfl := Option.some.inj h
      exact ⟨socket, hi, by rw [heq], .inr (by rw [heq]; exact ⟨rfl, rfl⟩)⟩
    · obtain ⟨socket, hi, heq⟩ := tcpGrabsocket_some h
      exact ⟨socket, hi, by rw [heq], .inr (by rw [heq]; exact ⟨rfl, rfl⟩)⟩

/-- A socket that listens at the address, or at any address, is found if nothing else is. -/
theorem tcpTryfindsocket_isSome (conn : Connection) {socket : Socket} (hs : socket ∈ sockets)
    (haddr : socket.conn.localAddr = 0 ∨ socket.conn.localAddr = conn.localAddr)
    (hrest : socket.conn = ⟨socket.conn.localAddr, 0, conn.localport, 0⟩) :
    ∃ i, tcpTryfindsocket sockets conn = some i := by
  unfold tcpTryfindsocket
  split
  · exact ⟨_, rfl⟩
  · dsimp only
    split
    · exact ⟨_, rfl⟩
    · next hsecond =>
      rw [← Option.isSome_iff_exists, Option.isSome_iff_ne_none]
      intro hthird
      rcases haddr with hany | haddr
      · rw [hany] at hrest
        exact tcpGrabsocket_none hthird socket hs hrest
      · rw [haddr] at hrest
        exact tcpGrabsocket_none hsecond socket hs hrest

end Lyre.Tcp

namespace Lyre.Inet

open Net

variable {adapters : List Adapter} {s : State} {n : Nat} {addr : SockaddrIn}

/-- The state after `bind` and `listen`. -/
def listening (adapters : List Adapter) (s : State) (n : Nat) (addr : SockaddrIn) : State :=
  next (next s (.tcpBind adapters n addr)) (.tcpListen n)

/-- The sockets in the vector. -/
def State.table (s : State) : List Tcp.Socket := s.tcpSockets.map fun n => (s.tcp n).this

/-- `bind` and `listen` succeed, and a segment for the address and the port is for this socket,
wherever it comes from. There may be connections in the vector by then, but none for this segment. -/
structure Listener (adapters : List Adapter) (s : State) (n : Nat) (addr : SockaddrIn) : Prop where
  binds : (tcpBind adapters s n addr).1 = true
  listens : (tcpListen ((next s (.tcpBind adapters n addr)).tcp n).this).1 = true
  found : ∀ (dest remote : BitVec 32) (remoteport : BitVec 16) (connections : List Tcp.Socket),
    addr.addr = inaddrAny ∨ addr.addr = dest →
    (∀ socket ∈ connections, socket.conn ≠ ⟨dest, remote, addr.port, remoteport⟩ ∧
      ¬ (socket.conn.remote = 0 ∧ socket.conn.remoteport = 0)) →
    ∃ i, Tcp.tcpTryfindsocket ((listening adapters s n addr).table ++ connections)
        ⟨dest, remote, addr.port, remoteport⟩ = some i ∧
      (listening adapters s n addr).tcpSockets[i]? = some n

/-- What `bind` and `listen` leave, for a socket that has a port. -/
theorem listening_bound (adapters : List Adapter) (haccepts : acceptsBind adapters addr = true)
    (hport : (s.tcp n).port ≠ 0) :
    (tcpBind adapters s n addr).1 = true ∧
      (tcpListen ((next s (.tcpBind adapters n addr)).tcp n).this).1 = true ∧
      (listening adapters s n addr).tcpSockets = s.tcpSockets ++ [n] ∧
      ((listening adapters s n addr).tcp n).this.conn
        = ⟨addr.addr, inaddrAny, (s.tcp n).port, 0⟩ ∧
      ∀ m ≠ n, ((listening adapters s n addr).tcp m).this.conn = (s.tcp m).this.conn := by
  have hcases := tcpBind_cases adapters s n addr
  generalize hr : tcpBind adapters s n addr = r at hcases
  cases hcases with
  | refused h =>
    rw [haccepts] at h
    exact Bool.noConfusion h
  | portless s₁ _ _ hp => exact absurd hp hport
  | bound s₁ _ hb _ =>
    have hsame := sameTables_bindAdapter hb
    have hbound : ((next s (.tcpBind adapters n addr)).tcp n).this.state = .bound ∧
        ((next s (.tcpBind adapters n addr)).tcp n).this.conn
          = ⟨addr.addr, inaddrAny, (s.tcp n).port, 0⟩ := by
      simp [next, tcpBound, hr]
    have htable : (next s (.tcpBind adapters n addr)).tcpSockets = s.tcpSockets ++ [n] := by
      simp only [next, tcpBound, hr, if_true]
      rfl
    have hothers : ∀ m ≠ n, ((next s (.tcpBind adapters n addr)).tcp m).this.conn
        = (s.tcp m).this.conn := by
      intro m hm
      obtain ⟨v, hv⟩ := hsame.tcp m
      simp only [next, tcpBound, hr, if_true]
      rw [setThis_other _ hm]
      refine (congrArg (fun v => v.this.conn) (setTcp_other _ hm)).trans ?_
      rw [hv]
    unfold listening
    generalize next s (.tcpBind adapters n addr) = s₂ at hbound htable hothers
    obtain ⟨state, tcpstate, heq⟩ := tcpListening_eq (s₂.tcp n).this
    refine ⟨rfl, by simp [tcpListen, hbound.1], htable, ?_, fun m hm => ?_⟩
    · simp only [next, setThis_tcp, heq]
      exact hbound.2
    · simp only [next, setThis_other _ hm]
      exact hothers m hm

/-- What the vector holds at an index, and the connection of the socket there. -/
theorem table_getElem? (s : State) (connections : List Tcp.Socket) {i : Nat} {socket : Tcp.Socket}
    (h : (s.table ++ connections)[i]? = some socket) :
    (∃ m, s.tcpSockets[i]? = some m ∧ socket = (s.tcp m).this) ∨ socket ∈ connections := by
  rcases Nat.lt_or_ge i s.table.length with hi | hi
  · rw [List.getElem?_append_left hi, State.table, List.getElem?_map] at h
    obtain ⟨m, hm, heq⟩ := Option.map_eq_some_iff.mp h
    exact .inl ⟨m, hm, heq.symm⟩
  · rw [List.getElem?_append_right hi] at h
    exact .inr (List.mem_of_getElem? h)

/-- **A socket that listens gets its segments exactly if it had the port before.** The port is not
used by a socket in the vector. -/
theorem listener_found_iff (haccepts : acceptsBind adapters addr = true) (hport : addr.port ≠ 0)
    (hunused : ∀ m ∈ s.tcpSockets, (s.tcp m).this.conn.localport ≠ addr.port) :
    Listener adapters s n addr ↔ (s.tcp n).port = addr.port := by
  constructor
  · intro h
    by_contra hne
    have hzero : (s.tcp n).port ≠ 0 := by
      intro hzero
      have hcases := tcpBind_cases adapters s n addr
      have hbinds := h.binds
      generalize tcpBind adapters s n addr = r at hcases hbinds
      cases hcases with
      | refused | portless => exact Bool.noConfusion hbinds
      | bound _ _ _ hp => exact hp hzero
    obtain ⟨_, _, htable, hconn, hothers⟩ := listening_bound adapters haccepts hzero
    obtain ⟨i, hfound, hn⟩ := h.found addr.addr 0 0 [] (.inr rfl) (by simp)
    obtain ⟨socket, hi, hlocal, _⟩ := Tcp.tcpTryfindsocket_some hfound
    rcases table_getElem? _ _ hi with ⟨m, hm, rfl⟩ | hnil
    · rw [hn] at hm
      obtain rfl := Option.some.inj hm
      rw [hconn] at hlocal
      exact hne hlocal
    · simp at hnil
  · intro hsame
    have hzero : (s.tcp n).port ≠ 0 := hsame ▸ hport
    obtain ⟨hbinds, hlistens, htable, hconn, hothers⟩ :=
      listening_bound adapters haccepts hzero
    refine ⟨hbinds, hlistens, fun dest remote remoteport connections haddr hconnections => ?_⟩
    have hmem : ((listening adapters s n addr).tcp n).this
        ∈ (listening adapters s n addr).table ++ connections := by
      refine List.mem_append_left _ (List.mem_map.mpr ⟨n, ?_, rfl⟩)
      simp [htable]
    obtain ⟨i, hi⟩ := Tcp.tcpTryfindsocket_isSome ⟨dest, remote, addr.port, remoteport⟩ hmem
      (by rw [hconn]; exact haddr) (by rw [hconn, hsame]; rfl)
    refine ⟨i, hi, ?_⟩
    obtain ⟨socket, hget, hlocal, hwhich⟩ := Tcp.tcpTryfindsocket_some hi
    rcases table_getElem? _ _ hget with ⟨m, hm, rfl⟩ | hin
    · -- every other socket in the vector has another port
      by_cases hmn : m = n
      · exact hmn ▸ hm
      · have hold : m ∈ s.tcpSockets := by
          have := List.mem_of_getElem? hm
          rw [htable, List.mem_append, List.mem_singleton] at this
          exact this.resolve_right hmn
        rw [hothers m hmn] at hlocal
        exact absurd hlocal (hunused m hold)
    · obtain ⟨hother, hspecific⟩ := hconnections socket hin
      exact absurd hwhich (by rintro (h | h); exacts [hother h, hspecific h])

theorem listener_found_iff_ported : Listener [ethernet] portedSocket 0 ⟨true, 0x5000, ethernet.ip⟩ :=
  (listener_found_iff (by decide +kernel) (by decide) (by simp [portedSocket, start])).mpr rfl

/-- A socket that has just been created has no port, and so it cannot be bound. -/
theorem listener_not_bound :
    acceptsBind [ethernet] ⟨true, 0x5000, ethernet.ip⟩ = true ∧
      (∀ m ∈ (next start .createTcp).tcpSockets,
        ((next start .createTcp).tcp m).this.conn.localport ≠ 0x5000) ∧
      (tcpBind [ethernet] (next start .createTcp) 0 ⟨true, 0x5000, ethernet.ip⟩).1 = false ∧
      ¬ Listener [ethernet] (next start .createTcp) 0 ⟨true, 0x5000, ethernet.ip⟩ := by
  have hfails : (tcpBind [ethernet] (next start .createTcp) 0 ⟨true, 0x5000, ethernet.ip⟩).1
      = false := by decide +kernel
  refine ⟨by decide +kernel, by decide +kernel, hfails, fun h => ?_⟩
  rw [h.binds] at hfails
  exact Bool.noConfusion hfails

end Lyre.Inet
