import Lyre.Infra.Membership
import Lyre.Infra.Run
import Lyre.Properties.Inet

/-!
# The sockets of an adapter

`net_bindsocket` sets the field `adapter` of a socket and puts it in `boundsocks`, and
`net_unbindsocket` undoes both. What `VECTOR_REMOVE_BY_VALUE` does is right only for a socket that is
in the vector. So a socket should be in the vector of the adapter in its field, once, and nowhere
else (`Bound`). Two things break this: a socket that is bound already is bound again, and
`net_route` sets the field for a socket that is then not bound.

* `BindsOnce`: the calls that do neither.
* `boundsocks_exact`: with such calls the vectors are as they should be, whatever the order of the
  calls.
-/

namespace Lyre.Inet

open Net Infra

variable {s s' : State} {n a : Nat} {id : SockId}

/-! ## Fields and vectors -/

theorem adapter_setAdapter (s : State) (id : SockId) (v : Option Nat) :
    (s.setAdapter id v).adapter = Function.update s.adapter id v := by
  funext id'
  by_cases hid : id' = id
  · subst hid
    rw [Function.update_self, setAdapter_adapter]
  · rw [Function.update_of_ne hid, setAdapter_adapter_other v hid]

theorem adapter_netBindsocket (s : State) (a : Nat) (id : SockId) :
    (netBindsocket s a id).adapter = Function.update s.adapter id (some a) :=
  adapter_setAdapter s id (some a)

theorem boundsocks_netBindsocket (s : State) (a : Nat) (id : SockId) :
    (netBindsocket s a id).boundsocks
      = Function.update s.boundsocks a (s.boundsocks a ++ [id]) := by
  unfold netBindsocket
  dsimp only
  rw [setAdapter_boundsocks]

/-- The field `adapter` stays as it is. -/
theorem adapter_setUdp {v : UdpSock} (hv : v.adapter = (s.udp n).adapter) :
    (s.setUdp n v).adapter = s.adapter := by
  funext id
  cases id with
  | tcp m => rfl
  | udp m =>
    by_cases hm : m = n
    · subst hm; simpa [State.adapter] using hv
    · simp only [State.adapter, setUdp_other _ hm]

theorem adapter_setTcp {v : TcpSock} (hv : v.this.adapter = (s.tcp n).this.adapter) :
    (s.setTcp n v).adapter = s.adapter := by
  funext id
  cases id with
  | udp m => rfl
  | tcp m =>
    by_cases hm : m = n
    · subst hm; simpa [State.adapter] using hv
    · simp only [State.adapter, setTcp_other _ hm]

/-- The vectors fit the fields. A socket that does not exist yet is not bound. -/
structure Bound (s : State) : Prop where
  listed : Listed s.adapter s.boundsocks
  fresh : ∀ id, s.exists id = false → s.adapter id = none

namespace Bound

theorem start : Bound start where
  listed := by
    intro id a
    have hnone : Inet.start.adapter id = none := by cases id <;> rfl
    rw [hnone]
    rfl
  fresh := fun id _ => by cases id <;> rfl

theorem congr (h : Bound s) (ha : s'.adapter = s.adapter) (hb : s'.boundsocks = s.boundsocks)
    (he : ∀ id, s'.exists id = false → s.exists id = false) : Bound s' where
  listed := by
    rw [ha, hb]
    exact h.listed
  fresh := by
    intro id hid
    rw [ha]
    exact h.fresh id (he id hid)

theorem setAdapter (h : Bound s) {v : Option Nat} (hv : s.adapter id = v) :
    Bound (s.setAdapter id v) := by
  refine h.congr ?_ (setAdapter_boundsocks v) fun id' => ?_
  · rw [adapter_setAdapter, ← hv, Function.update_eq_self]
  · cases id <;> exact fun h => h

theorem enter (h : Bound s) (hid : s.exists id = true) (ha : s.adapter id = none)
    (hadapter : s'.adapter = Function.update s.adapter id (some a))
    (hbound : s'.boundsocks = Function.update s.boundsocks a (s.boundsocks a ++ [id]))
    (he : ∀ id, s'.exists id = false → s.exists id = false) : Bound s' where
  listed := by
    rw [hadapter, hbound]
    exact h.listed.enter ha a
  fresh := by
    intro id' hid'
    have hex := he id' hid'
    have hne : id' ≠ id := by
      intro hc
      rw [hc, hid] at hex
      exact Bool.noConfusion hex
    rw [hadapter, Function.update_of_ne hne]
    exact h.fresh id' hex

theorem bind (h : Bound s) (hid : s.exists id = true) (ha : s.adapter id = none) (a : Nat) :
    Bound (netBindsocket s a id) := by
  refine h.enter (a := a) hid ha (adapter_netBindsocket s a id) ?_ ?_
  · exact boundsocks_netBindsocket s a id
  · cases id <;> exact fun _ h => h

theorem unbind (h : Bound s) (ha : s.adapter id = some a)
    (hadapter : s'.adapter = Function.update s.adapter id none)
    (hbound : s'.boundsocks
      = Function.update s.boundsocks a (vectorRemoveByValue (s.boundsocks a) id))
    (he : ∀ id, s'.exists id = false → s.exists id = false) : Bound s' where
  listed := by
    rw [hadapter, hbound, vectorRemoveByValue_of_mem (h.listed.mem_iff.mpr ha)]
    exact h.listed.leave ha
  fresh := by
    intro id' hid'
    rw [hadapter]
    by_cases hne : id' = id
    · subst hne
      rw [Function.update_self]
    · rw [Function.update_of_ne hne]
      exact h.fresh id' (he id' hid')

theorem unbindAdapter (h : Bound s) (id : SockId) : Bound (Inet.unbindAdapter s id) := by
  unfold Inet.unbindAdapter
  split
  · next a ha =>
    refine h.unbind ha (adapter_setAdapter _ id none) (setAdapter_boundsocks none) fun id' => ?_
    cases id <;> exact fun h => h
  · exact h

end Bound

theorem unbindAdapter_adapter (s : State) (id : SockId) :
    (unbindAdapter s id).adapter id = none := by
  unfold unbindAdapter
  split
  · exact setAdapter_adapter none
  · next hnone => exact hnone

namespace Bound

/-- The vector of the adapter has exactly the sockets with the adapter in their field. -/
theorem unbindall (h : Bound s) (a : Nat) : Bound (netUnbindall s a) := by
  have hfold : ∀ (ids : List SockId) (s : State) (id : SockId),
      (ids.foldl (fun s id => s.setAdapter id none) s).adapter id
        = if id ∈ ids then none else s.adapter id := by
    intro ids
    induction ids with
    | nil => simp
    | cons id₁ ids ih =>
      intro s id
      rw [List.foldl_cons, ih, adapter_setAdapter]
      by_cases hid : id = id₁
      · subst hid; simp
      · simp [hid]
  have hsame := sameTables_unbindall s a
  have hadapter : ∀ id, (netUnbindall s a).adapter id
      = if s.adapter id = some a then none else s.adapter id := by
    intro id
    refine (hfold _ s id).trans ?_
    simp only [List.mem_reverse, h.listed.mem_iff]
  have hkeep : ∀ (ids : List SockId) (s : State),
      (ids.foldl (fun s id => s.setAdapter id none) s).boundsocks = s.boundsocks := by
    intro ids
    induction ids with
    | nil => exact fun _ => rfl
    | cons id ids ih => exact fun s => (ih _).trans (setAdapter_boundsocks none)
  refine ⟨?_, fun id hid => ?_⟩
  · have hclear := h.listed.clear a hadapter
    unfold netUnbindall
    dsimp only
    rw [hkeep]
    exact hclear
  · have hex : s.exists id = false := by
      cases id with
      | udp n => simpa only [State.exists, hsame.udpCount] using hid
      | tcp n => simpa only [State.exists, hsame.tcpCount] using hid
    rw [hadapter, h.fresh id hex]
    rfl

/-- `bind` to an address of an adapter needs a socket that is not bound. -/
theorem bindAdapter (h : Bound s) {adapters : List Adapter} {addr : BitVec 32}
    (hid : s.exists id = true) (hok : addr ≠ inaddrAny → s.adapter id = none)
    (hb : bindAdapter adapters s id addr = some s') : Bound s' := by
  unfold Inet.bindAdapter at hb
  split at hb
  · obtain rfl := Option.some.inj hb
    exact (h.unbindAdapter id).setAdapter (unbindAdapter_adapter s id)
  · next hany =>
    split at hb
    · obtain rfl := Option.some.inj hb
      exact h.bind hid (hok hany) _
    · simp at hb

theorem setUdp (h : Bound s) {v : UdpSock} (hv : v.adapter = (s.udp n).adapter) :
    Bound (s.setUdp n v) :=
  h.congr (adapter_setUdp hv) rfl fun _ h => h

theorem setTcp (h : Bound s) {v : TcpSock} (hv : v.this.adapter = (s.tcp n).this.adapter) :
    Bound (s.setTcp n v) :=
  h.congr (adapter_setTcp hv) rfl fun _ h => h

theorem tables (h : Bound s) (udpSockets tcpSockets : List Nat) (netPortbitmap : Bitmap) :
    Bound { s with udpSockets, tcpSockets, netPortbitmap } :=
  h.congr (by funext id; cases id <;> rfl) rfl fun id h => by cases id <;> exact h

/-! ## New sockets -/

theorem createUdp (h : Bound s) : Bound (Inet.next s .createUdp) := by
  have hnone : (s.udp s.udpCount).adapter = none :=
    h.fresh (.udp s.udpCount) (by simp [State.exists])
  have hcount : Bound { s with udpCount := s.udpCount + 1 } := by
    refine h.congr (by funext id; cases id <;> rfl) rfl fun id hid => ?_
    cases id with
    | tcp m => exact hid
    | udp m =>
      simp only [State.exists, decide_eq_false_iff_not, Nat.not_lt] at hid ⊢
      omega
  exact hcount.setUdp hnone.symm

theorem createTcp (h : Bound s) {v : TcpSock} (hv : v.this.adapter = none) :
    Bound ({ s with tcpCount := s.tcpCount + 1 : State }.setTcp s.tcpCount v) := by
  have hnone : (s.tcp s.tcpCount).this.adapter = none :=
    h.fresh (.tcp s.tcpCount) (by simp [State.exists])
  have hcount : Bound { s with tcpCount := s.tcpCount + 1 } := by
    refine h.congr (by funext id; cases id <;> rfl) rfl fun id hid => ?_
    cases id with
    | udp m => exact hid
    | tcp m =>
      simp only [State.exists, decide_eq_false_iff_not, Nat.not_lt] at hid ⊢
      omega
  exact hcount.setTcp (hv.trans hnone.symm)

/-! ## Functions of TCP -/

theorem released (h : Bound s) {this : Tcp.Socket} (hnone : this.adapter = none) :
    Bound (tcpReleased (s.setThis n this) n (s.tcp n).this.adapter) := by
  have hset : (s.setThis n this).adapter = Function.update s.adapter (.tcp n) none := by
    rw [← adapter_setAdapter]
    funext id
    cases id with
    | udp m => rfl
    | tcp m =>
      by_cases hm : m = n
      · subst hm; simp [State.adapter, State.setAdapter, hnone]
      · simp only [State.adapter, State.setAdapter, setThis_other _ hm]
  have hdetached : Bound (detached (s.setThis n this) n (s.tcp n).this.adapter) := by
    cases ha : (s.tcp n).this.adapter with
    | none =>
      refine h.congr ?_ rfl fun _ h => h
      rw [show detached (s.setThis n this) n none = s.setThis n this from rfl, hset]
      exact Function.update_eq_self_iff.mpr ha.symm
    | some a =>
      have hfield : s.adapter (.tcp n) = some a := ha
      refine h.unbind hfield ?_ rfl fun _ h => h
      refine (adapter_setAdapter _ (.tcp n) none).trans ?_
      have : { s.setThis n this with
          boundsocks := Function.update (s.setThis n this).boundsocks a
            (vectorRemoveByValue ((s.setThis n this).boundsocks a) (.tcp n)) : State }.adapter
          = (s.setThis n this).adapter := by
        funext id; cases id <;> rfl
      rw [this, hset, Function.update_idem]
  rw [tcpReleased_eq]
  exact hdetached.tables _ _ _

theorem ran (h : Bound s) {b : Bool} (hr : Ran s n b s') : Bound s' := by
  cases hr with
  | kept this _ _ ha => exact h.setTcp ha
  | released this _ _ ha => exact h.released ha

theorem newTcp_exists (s : State) (v : TcpSock) :
    ({ s with tcpCount := s.tcpCount + 1 : State }.setTcp s.tcpCount v).exists (.tcp s.tcpCount)
      = true := by
  simp [State.exists, State.setTcp]

theorem newTcp_adapter (s : State) {v : TcpSock} (hv : v.this.adapter = none) :
    ({ s with tcpCount := s.tcpCount + 1 : State }.setTcp s.tcpCount v).adapter (.tcp s.tcpCount)
      = none := by
  simpa [State.adapter] using hv

theorem spawn (h : Bound s) {child : Tcp.Socket} (hc : Tcp.Child child) :
    Bound (tcpSpawn s child) := by
  obtain ⟨a, ha⟩ := hc.adapter
  have hset := h.createTcp
    (v := { this := { child with adapter := none }, port := 0, localaddr := 0, bound := false }) rfl
  have hbind := hset.bind (newTcp_exists s _) (newTcp_adapter s rfl) a
  unfold tcpSpawn
  simp only [ha]
  exact hbind.tables _ _ _

theorem handled (h : Bound s) {b : Bool} (hr : Handled s n b s') : Bound s' := by
  cases hr with
  | ran hr => exact h.ran hr
  | spawned hr hc => exact (h.ran hr).spawn hc

theorem settled (h : Bound s) (hs : s' = s ∨ ∃ n b, Handled s n b s') : Bound s' := by
  rcases hs with rfl | ⟨n, b, hn⟩
  · exact h
  · exact h.handled hn

/-! ## Calls -/

theorem udpBind (h : Bound s) {adapters : List Adapter} {addr : SockaddrIn}
    (hid : s.exists (.udp n) = true)
    (hok : acceptsBind adapters addr = true → addr.addr ≠ inaddrAny → s.adapter (.udp n) = none) :
    Bound (Inet.udpBind adapters s n addr).2 := by
  have hcases := udpBind_cases adapters s n addr
  generalize Inet.udpBind adapters s n addr = r at hcases
  have hsetport : ∀ {s₁ : State}, Bound s₁ → Bound (udpSetport s₁ n addr) := fun h₁ =>
    (h₁.tables _ _ _).setUdp rfl
  cases hcases with
  | refused => exact h
  | portless s₁ haccepts hb =>
    exact (hsetport (h.bindAdapter hid (hok haccepts) hb)).unbindAdapter _
  | bound s₁ haccepts hb =>
    exact ((hsetport (h.bindAdapter hid (hok haccepts) hb)).tables _ _ _).setUdp rfl

theorem udpSend (h : Bound s) (n : Nat) : Bound (Inet.udpSend s n) := by
  have hset : ∀ port bitmap, Bound ({ s with netPortbitmap := bitmap : State }.setUdp n
      { s.udp n with port, explicit := false }) := fun _ bitmap =>
    (h.tables s.udpSockets s.tcpSockets bitmap).setUdp rfl
  unfold Inet.udpSend udpAcquireport
  dsimp only
  split
  · split
    · exact hset _ _
    · split
      · exact hset _ _
      · exact (hset _ _).tables _ _ _
  · exact h

theorem udpUnref (h : Bound s) (n : Nat) : Bound (Inet.udpUnref s n) := by
  have hset : Bound (s.setUdp n { s.udp n with refcount := (s.udp n).refcount - 1 }) :=
    h.setUdp rfl
  unfold Inet.udpUnref
  dsimp only
  split
  · exact (hset.unbindAdapter (.udp n)).tables _ _ _
  · exact hset

theorem tcpBind (h : Bound s) {adapters : List Adapter} {addr : SockaddrIn}
    (hid : s.exists (.tcp n) = true)
    (hok : acceptsBind adapters addr = true → addr.addr ≠ inaddrAny → s.adapter (.tcp n) = none) :
    Bound (tcpBound (Inet.tcpBind adapters s n addr) n) := by
  have hcases := tcpBind_cases adapters s n addr
  generalize Inet.tcpBind adapters s n addr = r at hcases
  cases hcases with
  | refused => exact h
  | portless s₁ haccepts hb =>
    have hset := (h.bindAdapter hid (hok haccepts) hb).setTcp (n := n)
      (v := { s₁.tcp n with localaddr := addr.addr }) rfl
    exact hset.unbindAdapter _
  | bound s₁ haccepts hb hport =>
    have hset := (h.bindAdapter hid (hok haccepts) hb).setTcp (n := n) (v := { s₁.tcp n with
      this := { (s₁.tcp n).this with conn := ⟨addr.addr, inaddrAny, (s.tcp n).port, 0⟩ }
      localaddr := addr.addr
      bound := true }) rfl
    exact (hset.tables _ (s.tcpSockets ++ [n]) _).setTcp rfl

end Bound

theorem tcpTakePort_adapters (s : State) (n : Nat) :
    (tcpTakePort s n).adapter = s.adapter ∧ (tcpTakePort s n).boundsocks = s.boundsocks ∧
      (tcpTakePort s n).exists = s.exists := by
  by_cases h : (s.tcp n).port = 0
  · by_cases hn : (netAllocport s.netPortbitmap).1 = 0
    · rw [tcpTakePort_of_none h hn]
      exact ⟨by funext id; cases id <;> rfl, rfl, by funext id; cases id <;> rfl⟩
    · rw [tcpTakePort_of_free h hn]
      refine ⟨?_, rfl, by funext id; cases id <;> rfl⟩
      refine Eq.trans ?_ (adapter_setTcp (s := s) (n := n) (v := { s.tcp n with
        this := { (s.tcp n).this with
          conn := ⟨(s.tcp n).localaddr, inaddrAny, bswap16 (netAllocport s.netPortbitmap).1, 0⟩ }
        port := bswap16 (netAllocport s.netPortbitmap).1 }) rfl)
      funext id
      cases id <;> rfl
  · rw [tcpTakePort_of_port h]
    exact ⟨rfl, rfl, rfl⟩

namespace Bound

theorem takePort (h : Bound s) (n : Nat) : Bound (tcpTakePort s n) := by
  obtain ⟨ha, hb, he⟩ := tcpTakePort_adapters s n
  exact h.congr ha hb fun id hid => by rwa [he] at hid

/-- `net_route` has set the field before the socket is bound. -/
theorem connecting (h : Bound s) (hid : s.exists (.tcp n) = true) (ha : s.adapter (.tcp n) = none)
    (a : Nat) : Bound (Inet.connecting (tcpTakePort (s.setAdapter (.tcp n) (some a)) n) n a) := by
  obtain ⟨hadapter, hbound, hexists⟩ := tcpTakePort_adapters (s.setAdapter (.tcp n) (some a)) n
  generalize tcpTakePort (s.setAdapter (.tcp n) (some a)) n = s₁ at hadapter hbound hexists
  have hbind : Bound (netBindsocket s₁ a (.tcp n)) := by
    refine h.enter (a := a) hid ha ?_ ?_ fun id hid' => ?_
    · rw [adapter_netBindsocket, hadapter, adapter_setAdapter, Function.update_idem]
    · rw [boundsocks_netBindsocket, hbound, setAdapter_boundsocks]
    · have hid₁ : s₁.exists id = false := hid'
      rw [hexists] at hid₁
      exact hid₁
  exact hbind.tables _ _ _

end Bound

/-! ## Runs -/

/-- No socket is bound that is bound already, and `net_route` chooses an adapter only for a socket
that is bound then. -/
def BindsOnce (s : State) : Step → Prop
  | .udpBind adapters n addr =>
    acceptsBind adapters addr = true → addr.addr ≠ inaddrAny → s.adapter (.udp n) = none
  | .tcpBind adapters n addr =>
    acceptsBind adapters addr = true → addr.addr ≠ inaddrAny → s.adapter (.tcp n) = none
  | .tcpConnect n env remote _ =>
    Tcp.refusesConnect (s.tcp n).this = false →
      (routeAdapter env.adapters (s.tcp n).this.adapter remote).isSome →
      if env.lookup = true ∧ findsPort s n = true then s.adapter (.tcp n) = none
      else s.adapter (.tcp n) ≠ none
  | .setBindToDevice id _ => s.adapter id = none
  | _ => True

theorem routeAdapter_of_bound {adapters : List Adapter} {adapter : Option Nat} {remote : BitVec 32}
    (h : adapter ≠ none) : routeAdapter adapters adapter remote = adapter := by
  cases adapter with
  | none => exact absurd rfl h
  | some a => rfl

namespace Bound

theorem tcpConnect (h : Bound s) {env : ConnectEnv} {remote : BitVec 32} {remoteport : BitVec 16}
    (hid : s.exists (.tcp n) = true) (hok : BindsOnce s (.tcpConnect n env remote remoteport)) :
    Bound (Inet.tcpConnect s n env remote remoteport) := by
  have hcases := tcpConnect_cases s n env remote remoteport
  generalize Inet.tcpConnect s n env remote remoteport = s' at hcases
  have hkept : ∀ {a}, routeAdapter env.adapters (s.tcp n).this.adapter remote = some a →
      s.adapter (.tcp n) ≠ none → Bound (s.setAdapter (.tcp n) (some a)) := by
    intro a hr hbound
    refine h.setAdapter ?_
    rw [← hr]
    exact (routeAdapter_of_bound hbound).symm
  cases hcases with
  | refused => exact h
  | unknown a hopen hr hl =>
    have hbound := hok hopen (by simp [hr])
    rw [if_neg (by simp [hl])] at hbound
    exact hkept hr hbound
  | portless a hopen hr hl hp =>
    have hbound := hok hopen (by simp [hr])
    rw [if_neg (by simp [hp])] at hbound
    exact (hkept hr hbound).takePort n
  | registered a hopen hr hl hp =>
    have hnone := hok hopen (by simp [hr])
    rw [if_pos ⟨hl, hp⟩] at hnone
    obtain ⟨b, hb, _⟩ := handled_register (tcpTakePort (s.setAdapter (.tcp n) (some a)) n) n a env remote
      remoteport
    exact (h.connecting hid hnone a).handled hb

theorem next (h : Bound s) {c : Step} (hp : Possible s c) (hok : BindsOnce s c) :
    Bound (Inet.next s c) := by
  cases c with
  | createUdp => exact h.createUdp
  | createTcp => exact h.createTcp rfl
  | udpRef n => exact h.setUdp rfl
  | udpBind adapters n addr => exact h.udpBind (hp _ rfl).1 hok
  | udpSend n => exact h.udpSend n
  | udpUnref n => exact h.udpUnref n
  | tcpBind adapters n addr => exact h.tcpBind (hp _ rfl).1 hok
  | tcpListen n =>
    obtain ⟨state, tcpstate, heq⟩ := tcpListening_eq (s.tcp n).this
    have hkept : (tcpListening (s.tcp n).this).adapter = (s.tcp n).this.adapter := by rw [heq]
    exact h.setTcp hkept
  | tcpConnect n env remote remoteport => exact h.tcpConnect (hp _ rfl).1 hok
  | connectWoken | segment | timer | tcpClose => exact h.settled (next_handled rfl s)
  | setBindToDevice id a => exact h.bind (hp _ rfl).1 hok a
  | unbindall a => exact h.unbindall a
  | allocport | releaseport port => exact h.tables _ _ _

end Bound

/-- **A socket is in the vector of the adapter in its field, once, and in no other one**, in every
run of calls that keep to `BindsOnce`. So `net_unbindsocket` takes out the socket it is given. -/
theorem boundsocks_exact (hr : Reach Steps BindsOnce start s) :
    (∀ id a, (s.boundsocks a).count id = if s.adapter id = some a then 1 else 0) ∧
      ∀ id a, s.adapter id = some a →
        (netUnbindsocket s a id).boundsocks
          = Function.update s.boundsocks a ((s.boundsocks a).erase id) := by
  have hbound : Bound s := by
    refine hr.invariant .start fun s c s' h hok hs => ?_
    obtain ⟨hp, rfl⟩ := hs
    exact h.next hp hok
  refine ⟨hbound.listed, fun id a ha => ?_⟩
  unfold netUnbindsocket
  rw [setAdapter_boundsocks, vectorRemoveByValue_of_mem (hbound.listed.mem_iff.mpr ha)]

theorem boundsocks_exact_two :
    ∃ s, Reach Steps BindsOnce start s ∧ s.boundsocks 0 = [.udp 0, .tcp 0] ∧
      (∀ id a, (s.boundsocks a).count id = if s.adapter id = some a then 1 else 0) ∧
      ∀ id a, s.adapter id = some a →
        (netUnbindsocket s a id).boundsocks
          = Function.update s.boundsocks a ((s.boundsocks a).erase id) := by
  let bind : Step := .udpBind [ethernet] 0 ⟨true, 0x5000, ethernet.ip⟩
  let connect : Step := .tcpConnect 0 ⟨[ethernet], true, 0, 1, true⟩ 0x0302000a 0x5000
  have hudp : Reach Steps BindsOnce start (next start .createUdp) :=
    .tail (a := Step.createUdp) .refl trivial ⟨by rintro _ ⟨⟩, rfl⟩
  have hbound := hudp.tail (a := bind) (fun _ _ => rfl) ⟨by rintro _ ⟨⟩; decide +kernel, rfl⟩
  have htcp := hbound.tail (a := Step.createTcp) trivial ⟨by rintro _ ⟨⟩, rfl⟩
  have hconnecting := htcp.tail (a := connect) (fun _ _ => by decide +kernel)
    ⟨by rintro _ ⟨⟩; decide +kernel, rfl⟩
  exact ⟨_, hconnecting, by decide +kernel, boundsocks_exact hconnecting⟩

/-- `SO_BINDTODEVICE` and then `connect`: the socket is in the vector twice. And if the hardware
address is not found, a socket that is in no vector is unbound: another socket is taken out. -/
theorem boundsocks_wrong :
    ∃ s s', Reach Steps anyStep start s ∧ Reach Steps anyStep start s' ∧
      (s.boundsocks 0).count (.tcp 0) = 2 ∧
      s'.adapter (.udp 0) = some 0 ∧ s'.boundsocks 0 = [] := by
  let connect (lookup : Bool) : Step :=
    .tcpConnect 0 ⟨[ethernet], lookup, 0, 1, true⟩ 0x0302000a 0x5000
  let bind : Step := .udpBind [ethernet] 0 ⟨true, 0x5000, ethernet.ip⟩
  have htcp : Reach Steps anyStep start (next start .createTcp) :=
    .tail (a := Step.createTcp) .refl trivial ⟨by rintro _ ⟨⟩, rfl⟩
  have hdevice := htcp.tail (a := Step.setBindToDevice (.tcp 0) 0) trivial
    ⟨by rintro _ ⟨⟩; decide +kernel, rfl⟩
  have htwice := hdevice.tail (a := connect true) trivial
    ⟨by rintro _ ⟨⟩; decide +kernel, rfl⟩
  have hudp := htcp.tail (a := Step.createUdp) trivial ⟨by rintro _ ⟨⟩, rfl⟩
  have hbound := hudp.tail (a := bind) trivial ⟨by rintro _ ⟨⟩; decide +kernel, rfl⟩
  have hrouted := hbound.tail (a := connect false) trivial ⟨by rintro _ ⟨⟩; decide +kernel, rfl⟩
  have hclosed := hrouted.tail (a := Step.tcpClose 0 1) trivial
    ⟨by rintro _ ⟨⟩; decide +kernel, rfl⟩
  exact ⟨_, _, htwice, hclosed, by decide +kernel, by decide +kernel, by decide +kernel⟩

end Lyre.Inet
