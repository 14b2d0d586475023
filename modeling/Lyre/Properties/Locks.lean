import Lyre.Ipc.Locks

/-!
# Spinlocks are taken and given back in turn

For each function the table of the locks that it holds at its points, and the branches after which
it does not: the label it jumps to is meant for another table.
-/

namespace Lyre.Locks

open Infra.LockFlow Tcp

/-! ## Pipes and unix sockets -/

/-- The lock is given back before `event_await`, and not taken again when it is interrupted. -/
def RingPoint.Meets : RingPoint → View → Prop
  | .await, v => v.interrupted = false
  | _, _ => True

def RingPoint.held (l : Lock) : RingPoint → Finset Lock
  | .entry | .await | .relock | .out => ∅
  | .check | .loop | .unlock | .cleanup => {l}

def ringDiscipline (l : Lock) (refuses waits leaves : View → Bool) :
    Discipline (ringCode l refuses waits leaves) RingPoint.Meets where
  right p H := H = p.held l
  wrong p H := p = .cleanup ∧ H = ∅
  not_misuse p H h := by
    subst h
    cases p <;> simp [Misuse, ringCode, RingPoint.held]
  right_next p H v h hm := by
    subst h
    cases p with
    | check => simp only [next, ringCode]; split <;> rfl
    | loop => simp only [next, ringCode]; split <;> [skip; split] <;> rfl
    | await =>
      have hi : v.interrupted = false := hm
      simp [next, ringCode, RingPoint.held, hi]
    | _ => simp [next, ringCode, RingPoint.held]
  slip p H v h hm := by
    subst h
    cases p with
    | await =>
      have hi : v.interrupted = true := by simpa [RingPoint.Meets] using hm
      simp [next, ringCode, RingPoint.held, hi]
    | _ => exact absurd trivial hm
  wrong_next p H v h := by
    obtain ⟨rfl, rfl⟩ := h
    exact .inl (by simp [Misuse, ringCode])
  wrong_end p H h hend := by
    obtain ⟨rfl, rfl⟩ := h
    exact hend.elim

/-! ## Datagrams -/

/-- The way through `reawait` is the one on which the lock is taken again. -/
def UdpReadPoint.MeetsRead : UdpReadPoint → View → Prop
  | .packets, v => v.packets = 0
  | .empty, v => v.nonblock = false
  | _, _ => True

def UdpReadPoint.held : UdpReadPoint → Finset Lock
  | .entry | .empty | .reawait | .relock | .out => ∅
  | .packets | .unlock | .cleanup => {.lock}

def udpReadDiscipline : Discipline udpRead UdpReadPoint.MeetsRead where
  right p H := H = p.held
  wrong p H := p = .cleanup ∧ H = ∅ ∨ p = .relock ∧ H = {.lock}
  not_misuse p H h := by
    subst h
    cases p <;> simp [Misuse, udpRead, UdpReadPoint.held]
  right_next p H v h hm := by
    subst h
    cases p with
    | packets =>
      have hp : v.packets = 0 := hm
      simp [next, udpRead, UdpReadPoint.held, hp]
    | empty =>
      have hn : v.nonblock = false := hm
      simp [next, udpRead, UdpReadPoint.held, hn]
    | reawait => simp only [next, udpRead]; split <;> rfl
    | _ => simp [next, udpRead, UdpReadPoint.held]
  slip p H v h hm := by
    subst h
    cases p with
    | packets =>
      have hp : v.packets ≠ 0 := hm
      exact .inr (by simp [next, udpRead, UdpReadPoint.held, hp])
    | empty =>
      have hn : v.nonblock = true := by simpa [UdpReadPoint.MeetsRead] using hm
      exact .inl (by simp [next, udpRead, UdpReadPoint.held, hn])
    | _ => exact absurd trivial hm
  wrong_next p H v h := by
    obtain ⟨rfl, rfl⟩ | ⟨rfl, rfl⟩ := h
    · exact .inl (by simp [Misuse, udpRead])
    · exact .inl (by simp [Misuse, udpRead])
  wrong_end p H h hend := by
    obtain ⟨rfl, rfl⟩ | ⟨rfl, rfl⟩ := h
    · exact hend.elim
    · simp [Misuse, udpRead]

/-- `MSG_DONTWAIT` returns at once, `O_NONBLOCK` through the label. -/
def UdpReadPoint.MeetsRecvmsg : UdpReadPoint → View → Prop
  | .empty, v => v.dontwait = true ∨ v.nonblock = false
  | _, _ => True

def udpRecvmsgDiscipline : Discipline udpRecvmsg UdpReadPoint.MeetsRecvmsg where
  right p H := H = p.held
  wrong p H := p = .cleanup ∧ H = ∅
  not_misuse p H h := by
    subst h
    cases p <;> simp [Misuse, udpRecvmsg, UdpReadPoint.held]
  right_next p H v h hm := by
    subst h
    cases p with
    | packets => simp only [next, udpRecvmsg]; split <;> rfl
    | empty =>
      obtain hd | hn : v.dontwait = true ∨ v.nonblock = false := hm
      · simp [next, udpRecvmsg, UdpReadPoint.held, hd]
      · simp only [next, udpRecvmsg, hn]
        split <;> rfl
    | reawait => simp only [next, udpRecvmsg]; split <;> rfl
    | _ => simp [next, udpRecvmsg, UdpReadPoint.held]
  slip p H v h hm := by
    subst h
    cases p with
    | empty =>
      obtain ⟨hd, hn⟩ : v.dontwait = false ∧ v.nonblock = true := by
        simpa [UdpReadPoint.MeetsRecvmsg] using hm
      simp [next, udpRecvmsg, UdpReadPoint.held, hd, hn]
    | _ => exact absurd trivial hm
  wrong_next p H v h := by
    obtain ⟨rfl, rfl⟩ := h
    exact .inl (by simp [Misuse, udpRecvmsg])
  wrong_end p H h hend := by
    obtain ⟨rfl, rfl⟩ := h
    exact hend.elim

/-- An error of `net_route` or `udp_sendpacket` is returned at once. -/
def UdpSendPoint.MeetsSendmsg : UdpSendPoint → View → Prop
  | .route, v => v.adapter = true ∨ v.status = 0
  | .send, v => v.status = 0
  | _, _ => True

/-- What is held besides the locks that the caller of the shared code has taken. -/
def UdpSendPoint.held (base : Finset Lock) : UdpSendPoint → Finset Lock
  | .entry | .out => ∅
  | .allocated => insert .netPortbitmaplock base
  | .registered => insert .udpSocketslock base
  | .check | .port | .allocport | .acquireport | .register | .route | .send | .cleanup => base

def udpSendmsgDiscipline : Discipline udpSendmsg UdpSendPoint.MeetsSendmsg where
  right p H := H = p.held {.lock}
  wrong p H := p = .out ∧ H = {.lock}
  not_misuse p H h := by
    subst h
    cases p <;> simp [Misuse, udpSendmsg, udpSendCode, UdpSendPoint.held]
  right_next p H v h hm := by
    subst h
    cases p with
    | check =>
      simp only [next, udpSendmsg, udpSendCode]
      split <;> [skip; split <;> [skip; split]] <;> rfl
    | port => simp only [next, udpSendmsg, udpSendCode]; split <;> rfl
    | acquireport => simp only [next, udpSendmsg, udpSendCode]; split <;> rfl
    | route =>
      obtain ha | hs : v.adapter = true ∨ v.status = 0 := hm
      · simp [next, udpSendmsg, udpSendCode, UdpSendPoint.held, ha]
      · simp [next, udpSendmsg, udpSendCode, UdpSendPoint.held, hs]
    | send =>
      have hs : v.status = 0 := hm
      simp [next, udpSendmsg, udpSendCode, UdpSendPoint.held, hs]
    | allocated => exact rfl
    | registered => exact rfl
    | _ => simp [next, udpSendmsg, udpSendCode, UdpSendPoint.held]
  slip p H v h hm := by
    subst h
    cases p with
    | route =>
      obtain ⟨ha, hs⟩ : v.adapter = false ∧ v.status ≠ 0 := by
        simpa [UdpSendPoint.MeetsSendmsg] using hm
      simp [next, udpSendmsg, udpSendCode, UdpSendPoint.held, ha, hs]
    | send =>
      have hs : v.status ≠ 0 := hm
      simp [next, udpSendmsg, udpSendCode, UdpSendPoint.held, hs]
    | _ => exact absurd trivial hm
  wrong_next p H v h := by
    obtain ⟨rfl, rfl⟩ := h
    exact .inl (by simp [Misuse, udpSendmsg, udpSendCode])
  wrong_end p H h _ := by
    obtain ⟨rfl, rfl⟩ := h
    simp [Misuse, udpSendmsg, udpSendCode]

/-- `udp_write` has nothing to give back. -/
def udpWriteDiscipline : Discipline udpWrite fun _ _ => True where
  right p H := H = p.held ∅
  wrong _ _ := False
  not_misuse p H h := by
    subst h
    cases p <;> simp [Misuse, udpWrite, udpSendCode, UdpSendPoint.held]
  right_next p H v h _ := by
    subst h
    cases p with
    | check =>
      simp only [next, udpWrite, udpSendCode]
      split <;> [skip; split <;> [skip; split]] <;> rfl
    | port => simp only [next, udpWrite, udpSendCode]; split <;> rfl
    | acquireport => simp only [next, udpWrite, udpSendCode]; split <;> rfl
    | route =>
      simp only [next, udpWrite, udpSendCode]
      split <;> [skip; split] <;> rfl
    | send => simp only [next, udpWrite, udpSendCode]; split <;> rfl
    | allocated => exact rfl
    | registered => exact rfl
    | _ => simp [next, udpWrite, udpSendCode, UdpSendPoint.held]
  slip _ _ _ _ hm := absurd trivial hm
  wrong_next _ _ _ h := h.elim
  wrong_end _ _ h := h.elim

/-! ## Streams -/

/-- There is data to read, or the call waits for some. -/
def awaitsData (leaves : View → Bool) (v : View) : Prop :=
  ((v.tcpstate = .established ∨ v.tcpstate = .finwait1 ∨ v.tcpstate = .finwait2) ∧
    (v.pos ≠ 0 ∨ leaves v = false)) ∨ (v.tcpstate = .closewait ∧ v.pos ≠ 0)

/-- All three jumps to the label come before one of the locks, or both, are taken. -/
def TcpReadPoint.Meets (refuses leaves : View → Bool) : TcpReadPoint → View → Prop
  | .entry, v => refuses v = false
  | .state, v => awaitsData leaves v
  | .eventstate, v => v.eventstate = .data
  | _, _ => True

def TcpReadPoint.held : TcpReadPoint → Finset Lock
  | .entry | .retry | .await | .out => ∅
  | .getstate | .state | .unlock | .eventstate | .take | .cleanupBusyon => {.busyon}
  | .gotstate => {.statelock, .busyon}
  | .streamread | .cleanup => {.lock, .busyon}
  | .streamed => {.rcvbufLock, .lock, .busyon}

def tcpReadDiscipline (refuses leaves : View → Bool) :
    Discipline (tcpReadCode refuses leaves) (TcpReadPoint.Meets refuses leaves) where
  right p H := H = p.held
  wrong p H := p = .cleanup ∧ .lock ∉ H
  not_misuse p H h := by
    subst h
    cases p <;> simp [Misuse, tcpReadCode, TcpReadPoint.held]
  right_next p H v h hm := by
    subst h
    cases p with
    | entry =>
      have hr : refuses v = false := hm
      simp [next, tcpReadCode, TcpReadPoint.held, hr]
    | state =>
      obtain ⟨hs, hp⟩ | ⟨hs, hp⟩ : awaitsData leaves v := hm
      · simp only [next, tcpReadCode, if_pos hs]
        by_cases h0 : v.pos ≠ 0
        · rw [if_pos h0]
          rfl
        · rw [if_neg h0, hp.resolve_left h0]
          rfl
      · simp [next, tcpReadCode, TcpReadPoint.held, hs, hp]
    | eventstate =>
      have he : v.eventstate = .data := hm
      simp [next, tcpReadCode, TcpReadPoint.held, he]
    | gotstate => exact rfl
    | streamed => exact rfl
    | cleanup => exact rfl
    | _ => simp [next, tcpReadCode, TcpReadPoint.held]
  slip p H v h hm := by
    subst h
    cases p with
    | entry =>
      have hr : refuses v = true := by simpa [TcpReadPoint.Meets] using hm
      simp [next, tcpReadCode, TcpReadPoint.held, hr]
    | state =>
      have hm : ¬ awaitsData leaves v := hm
      simp only [next, tcpReadCode]
      refine ⟨?_, by decide⟩
      by_cases hs : v.tcpstate = .established ∨ v.tcpstate = .finwait1 ∨ v.tcpstate = .finwait2
      · have hp : ¬ (v.pos ≠ 0 ∨ leaves v = false) := fun hp => hm (.inl ⟨hs, hp⟩)
        obtain ⟨h0, hl⟩ := not_or.mp hp
        rw [if_pos hs, if_neg h0, if_pos (by simpa using hl)]
      · rw [if_neg hs]
        by_cases hc : v.tcpstate = .closewait
        · have h0 : ¬ v.pos ≠ 0 := fun h0 => hm (.inr ⟨hc, h0⟩)
          rw [if_pos hc, if_neg h0]
        · rw [if_neg hc]
    | eventstate =>
      have he : v.eventstate ≠ .data := hm
      simp [next, tcpReadCode, TcpReadPoint.held, he]
    | _ => exact absurd trivial hm
  wrong_next p H v h := by
    obtain ⟨rfl, hl⟩ := h
    exact .inl (by simpa [Misuse, tcpReadCode] using hl)
  wrong_end p H h hend := by
    obtain ⟨rfl, -⟩ := h
    exact hend.elim

/-- A segment that is not sent leads to `tcp_close`, which takes `busyon` as well. -/
def TcpWritePoint.Meets (refuses closes : View → Bool) : TcpWritePoint → View → Prop
  | .entry, v => refuses v = false
  | .failed, v => closes v = false
  | _, _ => True

def TcpWritePoint.held : TcpWritePoint → Finset Lock
  | .entry | .retry | .await | .out | .close => ∅
  | .getstate | .state | .loop | .unlock | .send | .setstate | .failed | .closing | .cleanup =>
    {.busyon}
  | .gotstate | .stateset => {.statelock, .busyon}

def tcpWriteDiscipline (refuses fails closes : View → Bool) :
    Discipline (tcpWriteCode refuses fails closes) (TcpWritePoint.Meets refuses closes) where
  right p H := H = p.held ∧ p ≠ .close ∧ p ≠ .closing
  wrong p H := p = .cleanup ∧ H = ∅ ∨ p = .close ∧ H = {.busyon}
  not_misuse p H h := by
    obtain ⟨rfl, hc, hg⟩ := h
    cases p <;> simp [Misuse, tcpWriteCode, TcpWritePoint.held] at hc hg ⊢
  right_next p H v h hm := by
    obtain ⟨rfl, hc, hg⟩ := h
    cases p with
    | entry =>
      have hr : refuses v = false := hm
      simp [next, tcpWriteCode, TcpWritePoint.held, hr]
    | state => simp only [next, tcpWriteCode]; split <;> decide
    | loop => simp only [next, tcpWriteCode]; split <;> [skip; split] <;> decide
    | send => simp only [next, tcpWriteCode]; split <;> decide
    | failed =>
      have hn : closes v = false := hm
      simp [next, tcpWriteCode, TcpWritePoint.held, hn]
    | gotstate => exact ⟨rfl, by simp [next, tcpWriteCode]⟩
    | stateset => exact ⟨rfl, by simp [next, tcpWriteCode]⟩
    | close => exact absurd rfl hc
    | closing => exact absurd rfl hg
    | _ => simp [next, tcpWriteCode, TcpWritePoint.held]
  slip p H v h hm := by
    obtain ⟨rfl, hc, hg⟩ := h
    cases p with
    | entry =>
      have hr : refuses v = true := by simpa [TcpWritePoint.Meets] using hm
      exact .inl (by simp [next, tcpWriteCode, TcpWritePoint.held, hr])
    | failed =>
      have hn : closes v = true := by simpa [TcpWritePoint.Meets] using hm
      exact .inr (by simp [next, tcpWriteCode, TcpWritePoint.held, hn])
    | _ => exact absurd trivial hm
  wrong_next p H v h := by
    obtain ⟨rfl, rfl⟩ | ⟨rfl, rfl⟩ := h
    · exact .inl (by simp [Misuse, tcpWriteCode])
    · exact .inl (by simp [Misuse, tcpWriteCode])
  wrong_end p H h hend := by
    obtain ⟨rfl, rfl⟩ | ⟨rfl, rfl⟩ := h
    · exact hend.elim
    · simp [Misuse, tcpWriteCode]

/-! ## All of them -/

namespace Routine

/-- Which branches are taken, for each function. -/
def MeetsAt : (f : Routine) → f.program.Point → View → Prop
  | .udpRead => UdpReadPoint.MeetsRead
  | .udpRecvmsg => UdpReadPoint.MeetsRecvmsg
  | .udpSendmsg => UdpSendPoint.MeetsSendmsg
  | .udpWrite => fun _ _ => True
  | .pipeRead => RingPoint.Meets
  | .pipeWrite => RingPoint.Meets
  | .unixRead => RingPoint.Meets
  | .unixWrite => RingPoint.Meets
  | .tcpRead => TcpReadPoint.Meets (fun v => v.state ≠ .connected) fun v => v.nonblock
  | .tcpRecvmsg =>
    TcpReadPoint.Meets (fun v => v.state ≠ .connected || v.named) fun v => v.dontwait || v.nonblock
  | .tcpWrite => TcpWritePoint.Meets (fun v => v.state ≠ .connected) fun _ => true
  | .tcpSendmsg =>
    TcpWritePoint.Meets (fun v => v.state ≠ .connected || v.named) fun v => v.refcount - 1 = 0

def start (f : Routine) : Thread Lock f.program.Point := ⟨f.program.start, ∅⟩

/-- No lock is taken twice, given back without being held, or kept. -/
def Clean (f : Routine) (views : List View) : Prop :=
  Infra.LockFlow.Clean f.program.code f.start views

def Meets (f : Routine) (views : List View) : Prop :=
  Infra.LockFlow.Meets f.program.code f.MeetsAt f.start views

/-- The function returns, or waits for itself. -/
def Ended (f : Routine) (views : List View) : Prop :=
  Infra.LockFlow.Ended f.program.code (views.foldl (next f.program.code) f.start)

instance (f : Routine) (views : List View) : Decidable (f.Clean views) :=
  inferInstanceAs (Decidable (Infra.LockFlow.Clean f.program.code f.start views))

end Routine

/-- **Locks stay balanced exactly on the ways that avoid the wrong jumps**, whatever the others do
in between. A function that has not ended may have taken a wrong jump that does not show yet. -/
theorem spinlocks_balanced_iff (f : Routine) (views : List View) :
    (f.Meets views → f.Clean views) ∧ (f.Ended views → f.Clean views → f.Meets views) := by
  cases f with
  | udpRead => exact udpReadDiscipline.clean_iff rfl
  | udpRecvmsg => exact udpRecvmsgDiscipline.clean_iff rfl
  | udpSendmsg => exact udpSendmsgDiscipline.clean_iff rfl
  | udpWrite => exact udpWriteDiscipline.clean_iff rfl
  | pipeRead => exact (ringDiscipline ..).clean_iff rfl
  | pipeWrite => exact (ringDiscipline ..).clean_iff rfl
  | unixRead => exact (ringDiscipline ..).clean_iff rfl
  | unixWrite => exact (ringDiscipline ..).clean_iff rfl
  | tcpRead => exact (tcpReadDiscipline ..).clean_iff rfl
  | tcpRecvmsg => exact (tcpReadDiscipline ..).clean_iff rfl
  | tcpWrite => exact (tcpWriteDiscipline ..).clean_iff ⟨rfl, by decide⟩
  | tcpSendmsg => exact (tcpWriteDiscipline ..).clean_iff ⟨rfl, by decide⟩

/-- A packet is there when `udp_read` is called: it takes the lock a second time. -/
theorem udpRead_takes_twice : ¬ ∀ (f : Routine) (views : List View), f.Clean views := by
  intro h
  exact absurd (h .udpRead [{}, { packets := 1 }]) (by decide)

end Lyre.Locks
