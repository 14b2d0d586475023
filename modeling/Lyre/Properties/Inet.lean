import Lyre.Ipc.Inet
import Lyre.Properties.TcpOwner
import Mathlib.Data.List.Nodup

/-!
# What the functions of `Lyre.Ipc.Inet` change

The fields that each function leaves alone, and what a function of TCP does to the tables
(`tcpRun_cases`).
-/

namespace Lyre.Inet

open Net

variable {s s' : State} {n a : Nat} {id : SockId}

/-! ## Updates -/

@[simp] theorem setUdp_udp (v : UdpSock) : (s.setUdp n v).udp n = v := Function.update_self ..
@[simp] theorem setTcp_tcp (v : TcpSock) : (s.setTcp n v).tcp n = v := Function.update_self ..
@[simp] theorem setThis_tcp (this : Tcp.Socket) :
    (s.setThis n this).tcp n = { s.tcp n with this } := Function.update_self ..

theorem setUdp_other (v : UdpSock) {m : Nat} (h : m ≠ n) : (s.setUdp n v).udp m = s.udp m :=
  Function.update_of_ne h ..

theorem setTcp_other (v : TcpSock) {m : Nat} (h : m ≠ n) : (s.setTcp n v).tcp m = s.tcp m :=
  Function.update_of_ne h ..

theorem setThis_other (this : Tcp.Socket) {m : Nat} (h : m ≠ n) :
    (s.setThis n this).tcp m = s.tcp m :=
  Function.update_of_ne h ..

@[simp] theorem setAdapter_adapter (v : Option Nat) : (s.setAdapter id v).adapter id = v := by
  cases id <;> simp [State.setAdapter, State.adapter]

theorem setAdapter_adapter_other (v : Option Nat) {id' : SockId} (h : id' ≠ id) :
    (s.setAdapter id v).adapter id' = s.adapter id' := by
  cases id with
  | udp n =>
    cases id' with
    | tcp m => rfl
    | udp m =>
      have hm : m ≠ n := fun hc => h (by rw [hc])
      simp [State.setAdapter, State.adapter, setUdp_other _ hm]
  | tcp n =>
    cases id' with
    | udp m => rfl
    | tcp m =>
      have hm : m ≠ n := fun hc => h (by rw [hc])
      simp [State.setAdapter, State.adapter, setThis_other _ hm]

@[simp] theorem setAdapter_boundsocks (v : Option Nat) :
    (s.setAdapter id v).boundsocks = s.boundsocks := by
  cases id <;> rfl

/-! ## The vectors of sockets and the bitmap -/

/-- The tables of the protocols and the ports stay as they are: only adapters change. -/
structure SameTables (s s' : State) : Prop where
  udpSockets : s'.udpSockets = s.udpSockets
  tcpSockets : s'.tcpSockets = s.tcpSockets
  udpCount : s'.udpCount = s.udpCount
  tcpCount : s'.tcpCount = s.tcpCount
  netPortbitmap : s'.netPortbitmap = s.netPortbitmap
  udp : ∀ n, ∃ adapter, s'.udp n = { s.udp n with adapter }
  tcp : ∀ n, ∃ adapter, s'.tcp n = { s.tcp n with this := { (s.tcp n).this with adapter } }

namespace SameTables

theorem refl (s : State) : SameTables s s :=
  ⟨rfl, rfl, rfl, rfl, rfl, fun _ => ⟨_, rfl⟩, fun _ => ⟨_, rfl⟩⟩

theorem trans {s'' : State} (h : SameTables s s') (h' : SameTables s' s'') : SameTables s s'' where
  udpSockets := h'.udpSockets.trans h.udpSockets
  tcpSockets := h'.tcpSockets.trans h.tcpSockets
  udpCount := h'.udpCount.trans h.udpCount
  tcpCount := h'.tcpCount.trans h.tcpCount
  netPortbitmap := h'.netPortbitmap.trans h.netPortbitmap
  udp := by
    intro n
    obtain ⟨a, ha⟩ := h.udp n
    obtain ⟨a', ha'⟩ := h'.udp n
    exact ⟨a', by rw [ha', ha]⟩
  tcp := by
    intro n
    obtain ⟨a, ha⟩ := h.tcp n
    obtain ⟨a', ha'⟩ := h'.tcp n
    exact ⟨a', by rw [ha', ha]⟩

theorem udp_port (h : SameTables s s') (n : Nat) : (s'.udp n).port = (s.udp n).port := by
  obtain ⟨_, ha⟩ := h.udp n
  rw [ha]

theorem udp_explicit (h : SameTables s s') (n : Nat) :
    (s'.udp n).explicit = (s.udp n).explicit := by
  obtain ⟨_, ha⟩ := h.udp n
  rw [ha]

theorem tcp_port (h : SameTables s s') (n : Nat) : (s'.tcp n).port = (s.tcp n).port := by
  obtain ⟨_, ha⟩ := h.tcp n
  rw [ha]

theorem tcp_freed (h : SameTables s s') (n : Nat) :
    (s'.tcp n).this.freed = (s.tcp n).this.freed := by
  obtain ⟨_, ha⟩ := h.tcp n
  rw [ha]

end SameTables

theorem sameTables_setAdapter (s : State) (id : SockId) (v : Option Nat) :
    SameTables s (s.setAdapter id v) := by
  cases id with
  | udp n =>
    refine ⟨rfl, rfl, rfl, rfl, rfl, fun m => ?_, fun _ => ⟨_, rfl⟩⟩
    by_cases hm : m = n
    · subst hm; exact ⟨v, by simp [State.setAdapter]⟩
    · exact ⟨(s.udp m).adapter, by simp [State.setAdapter, setUdp_other _ hm]⟩
  | tcp n =>
    refine ⟨rfl, rfl, rfl, rfl, rfl, fun _ => ⟨_, rfl⟩, fun m => ?_⟩
    by_cases hm : m = n
    · subst hm; exact ⟨v, by simp [State.setAdapter]⟩
    · exact ⟨(s.tcp m).this.adapter, by simp [State.setAdapter, setThis_other _ hm]⟩

theorem sameTables_boundsocks (s : State) (boundsocks : Nat → List SockId) :
    SameTables s { s with boundsocks } :=
  ⟨rfl, rfl, rfl, rfl, rfl, fun _ => ⟨_, rfl⟩, fun _ => ⟨_, rfl⟩⟩

theorem sameTables_bind (s : State) (a : Nat) (id : SockId) : SameTables s (netBindsocket s a id) :=
  (sameTables_setAdapter s id (some a)).trans (sameTables_boundsocks _ _)

theorem sameTables_unbind (s : State) (a : Nat) (id : SockId) :
    SameTables s (netUnbindsocket s a id) :=
  (sameTables_boundsocks s _).trans (sameTables_setAdapter _ id none)

theorem sameTables_unbindAdapter (s : State) (id : SockId) : SameTables s (unbindAdapter s id) := by
  unfold unbindAdapter
  split
  · exact sameTables_unbind s _ id
  · exact .refl s

theorem sameTables_unbindall (s : State) (a : Nat) : SameTables s (netUnbindall s a) := by
  have hfold : ∀ (ids : List SockId) (s : State),
      SameTables s (ids.foldl (fun s id => s.setAdapter id none) s) := by
    intro ids
    induction ids with
    | nil => exact fun s => .refl s
    | cons id ids ih => exact fun s => (sameTables_setAdapter s id none).trans (ih _)
  exact (hfold _ s).trans (sameTables_boundsocks _ _)

theorem sameTables_bindAdapter {adapters : List Adapter} {addr : BitVec 32}
    (h : bindAdapter adapters s id addr = some s') : SameTables s s' := by
  unfold bindAdapter at h
  split at h
  · obtain rfl := Option.some.inj h
    exact (sameTables_unbindAdapter s id).trans (sameTables_setAdapter _ id none)
  · split at h
    · obtain rfl := Option.some.inj h
      exact sameTables_bind s _ id
    · simp at h

/-! ## Closing -/

@[simp] theorem removeIfFound_eq (l : List Nat) (n : Nat) : removeIfFound l n = l.erase n := by
  unfold removeIfFound
  by_cases hn : n ∈ l
  · have hfind : vectorFind l n ≠ none := by
      simp only [vectorFind, ne_eq, List.findIdx?_eq_none_iff]
      intro hall
      simpa using hall n hn
    rw [if_pos hfind, vectorRemoveByValue_of_mem hn]
  · have hfind : vectorFind l n = none := by
      simp only [vectorFind, List.findIdx?_eq_none_iff]
      intro m hm
      have : m ≠ n := fun hc => hn (hc ▸ hm)
      simpa using this
    rw [if_neg (by simp [hfind]), List.erase_of_not_mem hn]

theorem sameTables_detached (s : State) (n : Nat) (adapter : Option Nat) :
    SameTables s (detached s n adapter) := by
  cases adapter with
  | none => exact .refl s
  | some a => exact sameTables_unbind s a _

/-- **The end of `tcp_close`**, part by part. -/
theorem tcpReleased_eq (s : State) (n : Nat) (adapter : Option Nat) :
    tcpReleased s n adapter = { detached s n adapter with
      tcpSockets := s.tcpSockets.erase n
      netPortbitmap :=
        if (s.tcp n).this.parent = none then
          netReleaseport s.netPortbitmap (bswap16 (s.tcp n).port)
        else s.netPortbitmap } := by
  have hsame := sameTables_detached s n adapter
  obtain ⟨v, hv⟩ := hsame.tcp n
  simp only [tcpReleased, removeIfFound_eq, hsame.tcpSockets, hsame.netPortbitmap, hv]

/-! ## Functions of TCP -/

/-- What a function of TCP does for a socket: it stays as it is, or it is freed. -/
inductive Ran (s : State) (n : Nat) : Bool → State → Prop
  | kept (this : Tcp.Socket) (hp : this.parent = (s.tcp n).this.parent)
      (hf : this.freed = (s.tcp n).this.freed) (ha : this.adapter = (s.tcp n).this.adapter) :
      Ran s n false (s.setThis n this)
  | released (this : Tcp.Socket) (hp : this.parent = (s.tcp n).this.parent)
      (hf : this.freed = true) (ha : this.adapter = none) :
      Ran s n true (tcpReleased (s.setThis n this) n (s.tcp n).this.adapter)

/-- A function of TCP runs for a socket, and may create another one. -/
inductive Handled (s : State) (n : Nat) : Bool → State → Prop
  | ran {b : Bool} {s₁ : State} (hr : Ran s n b s₁) : Handled s n b s₁
  | spawned {b : Bool} {s₁ : State} {child : Tcp.Socket} (hr : Ran s n b s₁)
      (hc : Tcp.Child child) : Handled s n b (tcpSpawn s₁ child)

/-- The function frees the socket. -/
def closes (s : State) (n : Nat) (f : Tcp.Socket → Tcp.Ctx) : Bool :=
  (f { (s.tcp n).this with freed := false }).this.freed

/-- **A function of TCP in the tables.** -/
theorem handled_tcpRun (s : State) (n : Nat) {f : Tcp.Socket → Tcp.Ctx}
    (hf : ∀ this : Tcp.Socket, this.adapter = (s.tcp n).this.adapter →
      Tcp.Handles { this } (f this)) : Handled s n (closes s n f) (tcpRun s n f) := by
  specialize hf { (s.tcp n).this with freed := false } rfl
  unfold tcpRun closes
  dsimp only
  generalize f _ = c at hf
  have hran : Ran s n c.this.freed (if c.this.freed then
      tcpReleased (s.setThis n { c.this with freed := (s.tcp n).this.freed || c.this.freed }) n
        (s.tcp n).this.adapter
      else s.setThis n { c.this with freed := (s.tcp n).this.freed || c.this.freed }) := by
    rcases hf.owner with ⟨hfreed, hadapter⟩ | ⟨hfreed, hadapter⟩
    · rw [hfreed, if_neg (by simp)]
      exact .kept _ hf.parent (by simp) hadapter
    · rw [hfreed, if_pos rfl]
      exact .released _ hf.parent (by simp) hadapter
  rcases hf.spawned with hnone | ⟨child, hsome, hchild⟩
  · simp only [hnone]
    exact .ran hran
  · simp only [hsome]
    exact .spawned hran hchild

/-- The socket that a function of TCP runs for in a call, and the function. -/
def Step.runs (s : State) : Step → Option (Nat × (Tcp.Socket → Tcp.Ctx))
  | .connectWoken n now => some (n, fun this => (Tcp.connectWoken { this } now).2)
  | .segment env inetheader data length =>
    (tcpReceiver s inetheader data).map fun n => (n, fun this =>
      Tcp.tcpNetpacket (env n) this inetheader.src inetheader.dest data
        (sub64 length Tcp.headerSize))
  | .timer n now route connecttimeout =>
    some (n, fun this => Tcp.tcpTimer { this } now route connecttimeout)
  | .tcpClose n now => some (n, fun this => (Tcp.tcpClose { this } now).2)
  | _ => none

/-- The calls in which a function of TCP runs for a socket that is there. -/
def Step.runsTcp : Step → Bool
  | .connectWoken .. | .segment .. | .timer .. | .tcpClose .. => true
  | _ => false

theorem next_runs {c : Step} (h : c.runsTcp = true) (s : State) :
    c.runs s = none ∧ next s c = s ∨
      ∃ n f, c.runs s = some (n, f) ∧ Handled s n (closes s n f) (next s c) := by
  cases c with
  | connectWoken n now =>
    exact .inr ⟨n, _, rfl, handled_tcpRun s n fun _ _ => (Tcp.settles_connectWoken _ now).handles⟩
  | segment env inetheader data length =>
    cases hn : tcpReceiver s inetheader data with
    | none => exact .inl ⟨by simp [Step.runs, hn], by simp [next, tcpSegment, hn]⟩
    | some n =>
      refine .inr ⟨n, _, by simp only [Step.runs, hn]; rfl, ?_⟩
      simp only [next, tcpSegment, hn]
      exact handled_tcpRun s n fun _ _ => Tcp.handles_tcpNetpacket _ _ _ _ _ _
  | timer n now route connecttimeout =>
    exact .inr ⟨n, _, rfl, handled_tcpRun s n fun _ _ =>
      (Tcp.settles_tcpTimer _ now route connecttimeout).handles⟩
  | tcpClose n now =>
    exact .inr ⟨n, _, rfl, handled_tcpRun s n fun _ _ => (Tcp.settles_tcpClose _ now).handles⟩
  | _ => exact Bool.noConfusion h

theorem next_handled {c : Step} (h : c.runsTcp = true) (s : State) :
    next s c = s ∨ ∃ n b, Handled s n b (next s c) := by
  rcases next_runs h s with ⟨_, heq⟩ | ⟨n, f, _, hf⟩
  · exact .inl heq
  · exact .inr ⟨n, _, hf⟩

/-- `tcp_listen` changes the states of the socket, and nothing else. -/
theorem tcpListening_eq (this : Tcp.Socket) :
    ∃ state tcpstate, tcpListening this = { this with state, tcpstate } := by
  unfold tcpListening tcpListen
  dsimp only
  split
  · exact ⟨_, _, rfl⟩
  · split
    · exact ⟨_, _, rfl⟩
    · exact ⟨_, _, rfl⟩

/-- The state in which `tcp_connect` sends its first segment: bound and registered. -/
def connecting (s : State) (n a : Nat) : State :=
  { netBindsocket s a (.tcp n) with tcpSockets := s.tcpSockets ++ [n] }

/-- `tcp_connect` frees the socket if its segment cannot be sent. -/
theorem handled_register (s : State) (n a : Nat) (env : ConnectEnv) (remote : BitVec 32)
    (remoteport : BitVec 16) :
    ∃ b, Handled (connecting s n a) n b (tcpRegister s n a env remote remoteport) ∧
      (Tcp.refusesConnect (s.tcp n).this = false → (s.tcp n).port ≠ 0 → b = !env.sends) := by
  have hset : ((connecting s n a).tcp n) = { s.tcp n with
      this := { (s.tcp n).this with adapter := some a } } :=
    setThis_tcp { (s.tcp n).this with adapter := some a }
  have htable := (sameTables_bind s a (.tcp n)).tcpSockets
  unfold tcpRegister
  dsimp only
  rw [htable]
  refine ⟨_, handled_tcpRun (connecting s n a) n fun this ha => ?_, fun hopen hport => ?_⟩
  · have hadapter : this.adapter = some a := by rw [ha, hset]
    exact (Tcp.settles_tcpConnect _ _ remote remoteport rfl hadapter).handles
  · unfold closes
    rw [hset]
    have hport' : ((netBindsocket s a (.tcp n)).tcp n).port ≠ 0 :=
      (sameTables_bind s a (.tcp n)).tcp_port n ▸ hport
    exact Tcp.tcpConnect_freed _ remote remoteport rfl hopen hport' rfl

/-! ## Binding -/

/-- The address is one that a socket can be bound to. -/
def acceptsBind (adapters : List Adapter) (addr : SockaddrIn) : Bool :=
  addr.inet && (addr.addr = inaddrAny ||
    (adapters.findIdx? fun adapter => adapter.ip = addr.addr).isSome)

theorem bindAdapter_isSome (adapters : List Adapter) (s : State) (id : SockId) (addr : BitVec 32) :
    (bindAdapter adapters s id addr).isSome
      = (addr = inaddrAny || (adapters.findIdx? fun adapter => adapter.ip = addr).isSome) := by
  unfold bindAdapter
  split
  · next h => simp [h]
  · next h =>
    cases adapters.findIdx? fun adapter => adapter.ip = addr <;> simp [h]

theorem acceptsBind_eq (adapters : List Adapter) (s : State) (id : SockId) {addr : SockaddrIn}
    (hinet : addr.inet = true) :
    acceptsBind adapters addr = (bindAdapter adapters s id addr.addr).isSome := by
  rw [acceptsBind, bindAdapter_isSome, hinet, Bool.true_and]

/-- How `tcp_bind` ends. -/
inductive TcpBind (adapters : List Adapter) (s : State) (n : Nat) (addr : SockaddrIn) :
    Bool × State → Prop
  /-- The address cannot be used. -/
  | refused (h : acceptsBind adapters addr = false) : TcpBind adapters s n addr (false, s)
  /-- The socket has no port. -/
  | portless (s₁ : State) (h : acceptsBind adapters addr = true)
      (hb : bindAdapter adapters s (.tcp n) addr.addr = some s₁) (hp : (s.tcp n).port = 0) :
      TcpBind adapters s n addr
        (false, unbindAdapter (s₁.setTcp n { s₁.tcp n with localaddr := addr.addr }) (.tcp n))
  | bound (s₁ : State) (h : acceptsBind adapters addr = true)
      (hb : bindAdapter adapters s (.tcp n) addr.addr = some s₁) (hp : (s.tcp n).port ≠ 0) :
      TcpBind adapters s n addr
        (true, { s₁.setTcp n { s₁.tcp n with
            this := { (s₁.tcp n).this with
              conn := ⟨addr.addr, inaddrAny, (s.tcp n).port, 0⟩ }
            localaddr := addr.addr
            bound := true } with
          tcpSockets := s.tcpSockets ++ [n] })

theorem tcpBind_cases (adapters : List Adapter) (s : State) (n : Nat) (addr : SockaddrIn) :
    TcpBind adapters s n addr (tcpBind adapters s n addr) := by
  unfold tcpBind
  split
  · next hinet => exact .refused (by simp [acceptsBind, hinet])
  · next hinet =>
    rw [Bool.not_eq_false] at hinet
    have haccepts := acceptsBind_eq adapters s (.tcp n) hinet
    split
    · next hnone => exact .refused (by rw [haccepts, hnone]; rfl)
    · next s₁ hb =>
      rw [hb] at haccepts
      have hsame := sameTables_bindAdapter hb
      have hport := hsame.tcp_port n
      by_cases hp : (s.tcp n).port = 0
      · have : tcpAcquireport (s₁.setTcp n { s₁.tcp n with localaddr := addr.addr }) n
            (bswap16 ((s₁.setTcp n { s₁.tcp n with localaddr := addr.addr }).tcp n).port)
            = (false, s₁.setTcp n { s₁.tcp n with localaddr := addr.addr }) := by
          simp [tcpAcquireport, hport, hp]
        simp only [this]
        exact .portless s₁ haccepts hb hp
      · have : tcpAcquireport (s₁.setTcp n { s₁.tcp n with localaddr := addr.addr }) n
            (bswap16 ((s₁.setTcp n { s₁.tcp n with localaddr := addr.addr }).tcp n).port)
            = (true, { s₁.setTcp n { s₁.tcp n with
                this := { (s₁.tcp n).this with
                  conn := ⟨addr.addr, inaddrAny, (s.tcp n).port, 0⟩ }
                localaddr := addr.addr } with tcpSockets := s.tcpSockets ++ [n] }) := by
          have hne : ¬ bswap16 (s.tcp n).port = 0 := fun hc => hp (bswap16_eq_zero.mp hc)
          simp only [setTcp_tcp, hport, tcpAcquireport, if_neg hne]
          simp [State.setThis, State.setTcp, hsame.tcpSockets]
        simp only [this]
        have := TcpBind.bound s₁ haccepts hb hp
        simpa [State.setTcp] using this

/-- How `udp_bind` ends. -/
inductive UdpBind (adapters : List Adapter) (s : State) (n : Nat) (addr : SockaddrIn) :
    Bool × State → Prop
  | refused (h : acceptsBind adapters addr = false) : UdpBind adapters s n addr (false, s)
  /-- There is no port left. -/
  | portless (s₁ : State) (h : acceptsBind adapters addr = true)
      (hb : bindAdapter adapters s (.udp n) addr.addr = some s₁)
      (hp : (takePort addr.port s.netPortbitmap).1 = 0) :
      UdpBind adapters s n addr (false, unbindAdapter (udpSetport s₁ n addr) (.udp n))
  | bound (s₁ : State) (h : acceptsBind adapters addr = true)
      (hb : bindAdapter adapters s (.udp n) addr.addr = some s₁)
      (hp : (takePort addr.port s.netPortbitmap).1 ≠ 0) :
      UdpBind adapters s n addr
        (true, { udpSetport s₁ n addr with udpSockets := s.udpSockets ++ [n] : State }.setUdp n
          { (udpSetport s₁ n addr).udp n with bound := true })

theorem udpBind_cases (adapters : List Adapter) (s : State) (n : Nat) (addr : SockaddrIn) :
    UdpBind adapters s n addr (udpBind adapters s n addr) := by
  unfold udpBind
  split
  · next hinet => exact .refused (by simp [acceptsBind, hinet])
  · next hinet =>
    rw [Bool.not_eq_false] at hinet
    have haccepts := acceptsBind_eq adapters s (.udp n) hinet
    split
    · next hnone => exact .refused (by rw [haccepts, hnone]; rfl)
    · next s₁ hb =>
      have hsame := sameTables_bindAdapter hb
      have hport : ((udpSetport s₁ n addr).udp n).port
          = (takePort addr.port s.netPortbitmap).1 := by
        simp [udpSetport, hsame.netPortbitmap]
      have htable : (udpSetport s₁ n addr).udpSockets = s.udpSockets := hsame.udpSockets
      rw [hb] at haccepts
      dsimp only
      rw [hport]
      by_cases hp : (takePort addr.port s.netPortbitmap).1 = 0
      · simp only [udpAcquireport, hp]
        exact .portless s₁ haccepts hb hp
      · have hne : ¬ bswap16 (takePort addr.port s.netPortbitmap).1 = 0 :=
          fun hc => hp (bswap16_eq_zero.mp hc)
        simp only [udpAcquireport, if_neg hne, htable]
        exact .bound s₁ haccepts hb hp

/-! ## Connecting -/

/-- The socket has a port, or `net_allocport` finds one for it. -/
def findsPort (s : State) (n : Nat) : Bool :=
  (s.tcp n).port ≠ 0 || (netAllocport s.netPortbitmap).1 ≠ 0

theorem tcpTakePort_of_port (h : (s.tcp n).port ≠ 0) : tcpTakePort s n = s := if_neg h

theorem tcpTakePort_of_none (h : (s.tcp n).port = 0) (hn : (netAllocport s.netPortbitmap).1 = 0) :
    tcpTakePort s n = { s with netPortbitmap := (netAllocport s.netPortbitmap).2 } := by
  have hport : { s.tcp n with port := 0 } = s.tcp n := by rw [← h]
  have hzero : bswap16 0#16 = 0#16 := by decide
  simp only [tcpTakePort, takePort, h, hn, if_true, BitVec.ofNat_eq_ofNat, hzero]
  simp only [BitVec.ofNat_eq_ofNat] at hport
  simp [State.setTcp, hport]

theorem tcpTakePort_of_free (h : (s.tcp n).port = 0) (hn : (netAllocport s.netPortbitmap).1 ≠ 0) :
    tcpTakePort s n = { s.setTcp n { s.tcp n with
        this := { (s.tcp n).this with
          conn := ⟨(s.tcp n).localaddr, inaddrAny, bswap16 (netAllocport s.netPortbitmap).1, 0⟩ }
        port := bswap16 (netAllocport s.netPortbitmap).1 } with
      netPortbitmap := (netAllocport s.netPortbitmap).2
      tcpSockets := s.tcpSockets ++ [n] } := by
  have hne : ¬ bswap16 (netAllocport s.netPortbitmap).1 = 0 := fun hc => hn (bswap16_eq_zero.mp hc)
  simp only [tcpTakePort, takePort, if_pos h, if_true, if_neg hne, bswap16_bswap16, tcpAcquireport,
    if_neg hn]
  simp [State.setThis, State.setTcp]

theorem tcpTakePort_port (s : State) (n : Nat) :
    ((tcpTakePort s n).tcp n).port = 0 ↔ findsPort s n = false := by
  by_cases h : (s.tcp n).port = 0
  · by_cases hn : (netAllocport s.netPortbitmap).1 = 0
    · simp [tcpTakePort_of_none h hn, findsPort, h, hn]
    · have := tcpTakePort_of_free h hn
      simp [this, findsPort, h]
  · simp only [tcpTakePort_of_port h, findsPort, ne_eq, h, not_false_eq_true, decide_true,
      Bool.true_or, Bool.true_eq_false]

/-- How `tcp_connect` ends. -/
inductive TcpConnect (s : State) (n : Nat) (env : ConnectEnv) (remote : BitVec 32)
    (remoteport : BitVec 16) : State → Prop
  | refused (h : Tcp.refusesConnect (s.tcp n).this = true ∨
      routeAdapter env.adapters (s.tcp n).this.adapter remote = none) :
      TcpConnect s n env remote remoteport s
  /-- The hardware address is not found. -/
  | unknown (a : Nat) (h : Tcp.refusesConnect (s.tcp n).this = false)
      (hr : routeAdapter env.adapters (s.tcp n).this.adapter remote = some a)
      (hl : env.lookup = false) :
      TcpConnect s n env remote remoteport (s.setAdapter (.tcp n) (some a))
  | portless (a : Nat) (h : Tcp.refusesConnect (s.tcp n).this = false)
      (hr : routeAdapter env.adapters (s.tcp n).this.adapter remote = some a)
      (hl : env.lookup = true) (hp : findsPort s n = false) :
      TcpConnect s n env remote remoteport (tcpTakePort (s.setAdapter (.tcp n) (some a)) n)
  | registered (a : Nat) (h : Tcp.refusesConnect (s.tcp n).this = false)
      (hr : routeAdapter env.adapters (s.tcp n).this.adapter remote = some a)
      (hl : env.lookup = true) (hp : findsPort s n = true) :
      TcpConnect s n env remote remoteport
        (tcpRegister (tcpTakePort (s.setAdapter (.tcp n) (some a)) n) n a env remote remoteport)

theorem findsPort_setAdapter (s : State) (n : Nat) (id : SockId) (v : Option Nat) :
    findsPort (s.setAdapter id v) n = findsPort s n := by
  have hsame := sameTables_setAdapter s id v
  simp only [findsPort, hsame.tcp_port, hsame.netPortbitmap]

theorem tcpConnect_cases (s : State) (n : Nat) (env : ConnectEnv) (remote : BitVec 32)
    (remoteport : BitVec 16) :
    TcpConnect s n env remote remoteport (tcpConnect s n env remote remoteport) := by
  unfold tcpConnect
  dsimp only
  split
  · next h => exact .refused (.inl (by simp [Tcp.refusesConnect, h]))
  · next hconn =>
    split
    · next h => exact .refused (.inl (by simp [Tcp.refusesConnect, h]))
    · next hsyn =>
      have hopen : Tcp.refusesConnect (s.tcp n).this = false := by
        simp only [Tcp.refusesConnect, Bool.or_eq_false_iff, decide_eq_false_iff_not]
        exact ⟨by simpa using hconn, hsyn⟩
      split
      · next hroute => exact .refused (.inr hroute)
      · next a hroute =>
        have hport := tcpTakePort_port (s.setAdapter (.tcp n) (some a)) n
        rw [findsPort_setAdapter] at hport
        split
        · next hl => exact .unknown a hopen hroute hl
        · next hl =>
          split
          · next hp => exact .portless a hopen hroute (by simpa using hl) (hport.mp hp)
          · next hp =>
            refine .registered a hopen hroute (by simpa using hl) ?_
            simpa using fun hc => hp (hport.mpr hc)

/-- One adapter with the address 10.0.2.15. -/
def ethernet : Adapter := ⟨fun _ => 0, 0x0f02000a, 0x0202000a, 0x00ffffff, adapterEth, 1500, []⟩

end Lyre.Inet
