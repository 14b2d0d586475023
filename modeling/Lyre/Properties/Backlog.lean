import Lyre.Infra.Run
import Lyre.Ipc.Inet
import Lyre.Properties.TcpHandshake
import Mathlib.Data.List.Nodup

/-!
# From the handshake to `accept`

A listening socket with the sockets that it creates. What happens to them is in any order: segments
and other events, and calls of `accept`. The history (`established`, `accepted`) says in which order
handshakes are completed and sockets are returned.

`tcp_netpacket` does not look at what `socket_add_to_backlog` returns, so a socket for which there is
no entry is lost. And the argument of `listen` may be negative: then the array is too short.

* `hasRoom`: there is an entry for the socket whose handshake is completed.
* `backlog_fifo`: then `accept` returns every socket once, in the order of the handshakes.
-/

namespace Lyre.Backlog

open Infra

structure System where
  sock : Listener
  /-- The sockets that have been created. -/
  children : Nat → Tcp.Socket
  count : Nat
  /-- The indices of the entries that have been written. -/
  stored : List Nat
  established : List Nat
  accepted : List Nat

inductive Step where
  /-- A segment for the listening socket. -/
  | segment (env : Tcp.Env) (src dest : BitVec 32) (buf : Nat → Tcp.Byte) (length : Nat)
  | child (n : Nat) (event : Tcp.Event)
  | accept

variable {s s' : System} {n : Nat}

def System.setChild (s : System) (n : Nat) (this : Tcp.Socket) : System :=
  { s with children := Function.update s.children n this }

theorem setChild_self (this : Tcp.Socket) : (s.setChild n this).children n = this :=
  Function.update_self ..

theorem setChild_other (this : Tcp.Socket) {m : Nat} (h : m ≠ n) :
    (s.setChild n this).children m = s.children m :=
  Function.update_of_ne h ..

def System.create (s : System) (child : Option Tcp.Socket) : System :=
  match child with
  | some child => { s.setChild s.count child with count := s.count + 1 }
  | none => s

/-- A handshake is completed: the socket should get an entry. -/
def System.establish (s : System) (n : Nat) : System :=
  let r := socketAddToBacklog s.sock n
  { s with
    sock := r.2
    stored := if r.1 then s.stored ++ [s.sock.backlogI] else s.stored
    established := s.established ++ [n] }

def next (s : System) : Step → Option System
  | .segment env src dest buf length =>
    let c := Tcp.tcpNetpacket env s.sock.this src dest buf length
    some ({ s with sock := { s.sock with this := c.this } : System }.create c.spawned)
  | .child n event =>
    if n < s.count then
      let c := Tcp.handle (s.children n) event
      let s := s.setChild n c.this
      some (if c.backlogged then s.establish n else s)
    else none
  | .accept =>
    match tcpAccept s.sock with
    | some (n, sock) => some { s with sock, accepted := s.accepted ++ [n] }
    | none => none

/-- The socket has just begun to listen. -/
def start (sock : Listener) : System := ⟨sock, fun _ => Tcp.socketCreateTcp, 0, [], [], []⟩

/-- The event completes the handshake of the socket. -/
def completesHandshake (this : Tcp.Socket) : Tcp.Event → Bool
  | .segment env _ _ buf length => Tcp.finishesHandshake env this (Tcp.loadPacket buf length)
  | _ => false

/-- There is an entry for a socket whose handshake is completed. -/
def hasRoom (s : System) : Step → Bool
  | .child n event =>
    !completesHandshake (s.children n) event || s.sock.backlogI ≠ s.sock.backlogMax
  | _ => true

/-! ## The array as a queue -/

/-- The sockets in the array, the one that came first at the front. -/
def Listener.queued (sock : Listener) : List Nat := (List.range sock.backlogI).map sock.backlog

theorem queued_add {sock : Listener} (h : sock.backlogI ≠ sock.backlogMax) (other : Nat) :
    (socketAddToBacklog sock other).2.queued = sock.queued ++ [other] := by
  simp only [socketAddToBacklog, if_neg h, Listener.queued, List.range_succ, List.map_append,
    List.map_cons, List.map_nil, Function.update_self]
  congr 1
  refine List.map_congr_left fun i hi => Function.update_of_ne ?_ ..
  exact Nat.ne_of_lt (List.mem_range.mp hi)

theorem shiftEntries_eq (backlog : Nat → Nat) (backlogI i : Nat) :
    shiftEntries backlog backlogI i = if i < backlogI - 1 then backlog (i + 1) else backlog i := by
  have hloop : ∀ m i, (List.range m).foldl
      (fun backlog i => Function.update backlog i (backlog (i + 1))) backlog i
      = if i < m then backlog (i + 1) else backlog i := by
    intro m
    induction m with
    | zero => intro i; simp
    | succ m ih =>
      intro i
      rw [List.range_succ, List.foldl_append]
      simp only [List.foldl_cons, List.foldl_nil]
      by_cases hi : i = m
      · subst hi
        rw [Function.update_self, ih, if_neg (by omega), if_pos (by omega)]
      · rw [Function.update_of_ne hi, ih]
        by_cases hlt : i < m
        · rw [if_pos hlt, if_pos (by omega)]
        · rw [if_neg hlt, if_neg (by omega)]
  exact hloop _ i

theorem queued_accept {sock sock' : Listener} (h : tcpAccept sock = some (n, sock')) :
    sock.queued = n :: sock'.queued ∧ sock'.backlogI ≤ sock.backlogI ∧
      sock'.backlogMax = sock.backlogMax ∧ sock'.bytes = sock.bytes := by
  unfold tcpAccept at h
  split at h
  · cases h
  · next hne =>
    obtain ⟨rfl, rfl⟩ := Prod.mk.inj (Option.some.inj h)
    refine ⟨?_, Nat.sub_le _ _, rfl, rfl⟩
    obtain ⟨m, hm⟩ := Nat.exists_eq_succ_of_ne_zero hne
    simp only [Listener.queued, hm, Nat.succ_eq_add_one, Nat.add_sub_cancel, List.range_succ_eq_map,
      List.map_cons, List.map_map]
    congr 1
    refine List.map_congr_left fun i hi => ?_
    rw [Function.comp_apply, shiftEntries_eq, Nat.add_sub_cancel, if_pos (List.mem_range.mp hi)]

/-! ## The size of the array -/

/-- The argument is not negative, and there is memory for the array. -/
def Fits (backlog : BitVec 32) (memory : Bool) : Prop :=
  backlog.msb = false ∧ (memory = true ∨ 8 * backlog.toNat ≤ 1024)

theorem le_blockBytes {size : Nat} {memory : Bool} (h : memory = true ∨ size ≤ 1024)
    (hsize : size + pageSize < 2 ^ 64) : size ≤ blockBytes size memory := by
  unfold blockBytes
  split
  · next entSize hfind => simpa using List.find?_some hfind
  · next hnone =>
    have hbig : ¬ size ≤ 1024 := by simpa using List.find?_eq_none.mp hnone 1024 (by decide)
    rw [if_pos (h.resolve_right hbig)]
    simp only [divRoundup, u64, pageSize] at hsize ⊢
    omega

theorem listen_fits {this : Tcp.Socket} {backlog : BitVec 32} {memory : Bool} {sock : Listener}
    (h : syscallListen this backlog memory = some sock) (hfits : Fits backlog memory) :
    8 * sock.backlogMax ≤ sock.bytes ∧ sock.backlogI = 0 := by
  have hwide : (backlog.signExtend 64).toNat = backlog.toNat := by
    rw [BitVec.signExtend_eq_setWidth_of_msb_false hfits.1, BitVec.toNat_setWidth]
    exact Nat.mod_eq_of_lt (Nat.lt_of_lt_of_le backlog.isLt (by decide))
  have hlt := backlog.isLt
  have hsize : (backlog.signExtend 64 * 8).toNat = 8 * backlog.toNat := by
    rw [BitVec.toNat_mul, hwide]
    simp only [BitVec.ofNat_eq_ofNat, BitVec.toNat_ofNat]
    omega
  unfold syscallListen at h
  split at h
  · cases h
  · dsimp only at h
    split at h
    · obtain rfl := Option.some.inj h
      refine ⟨?_, rfl⟩
      rw [hwide, hsize]
      exact le_blockBytes hfits.2 (by simp only [pageSize]; omega)
    · cases h

/-! ## Runs -/

structure Inv (s : System) : Prop where
  room : s.sock.backlogI ≤ s.sock.backlogMax
  stored : ∀ i ∈ s.stored, i < s.sock.backlogMax
  fifo : s.established = s.accepted ++ s.sock.queued
  nodup : s.established.Nodup
  known : ∀ n ∈ s.established, n < s.count
  past : ∀ n < s.count, (s.children n).tcpstate ≠ .listen ∧ (s.children n).tcpstate ≠ .synsent
  waiting : ∀ n < s.count, (s.children n).tcpstate = .synrecv → n ∉ s.established
  reached : ∀ n < s.count, (s.children n).tcpstate = .established → n ∈ s.established

theorem Inv.start {sock : Listener} (h : sock.backlogI = 0) : Inv (start sock) where
  room := by simp [Backlog.start, h]
  stored := by simp [Backlog.start]
  fifo := by simp [Backlog.start, Listener.queued, h]
  nodup := List.nodup_nil
  known := by simp [Backlog.start]
  past := by simp [Backlog.start]
  waiting := by simp [Backlog.start]
  reached := by simp [Backlog.start]

/-- **What completes a handshake puts the socket in the backlog.** -/
theorem handle_backlogged {this : Tcp.Socket} (event : Tcp.Event)
    (hpast : this.tcpstate ≠ .listen ∧ this.tcpstate ≠ .synsent) :
    (Tcp.handle this event).backlogged = completesHandshake this event := by
  rcases Tcp.handle_cases this event with ⟨env, src, dest, buf, length, rfl⟩ | hquiet
  · exact Tcp.tcpNetpacket_backlogged env src dest buf length hpast.1 hpast.2
  · cases event with
    | segment env src dest buf length =>
      exact Tcp.tcpNetpacket_backlogged env src dest buf length hpast.1 hpast.2
    | _ => exact hquiet.backlogged


theorem Inv.setThis (h : Inv s) (this : Tcp.Socket) : Inv { s with sock := { s.sock with this } } :=
  ⟨h.room, h.stored, h.fifo, h.nodup, h.known, h.past, h.waiting, h.reached⟩

theorem Inv.create (h : Inv s) {child : Tcp.Socket} (hc : child.tcpstate = .synrecv) :
    Inv (s.create (some child)) := by
  have hold : ∀ n, n < s.count → (s.create (some child)).children n = s.children n := fun n hn =>
    Function.update_of_ne (Nat.ne_of_lt hn) ..
  have hnew : (s.create (some child)).children s.count = child := Function.update_self ..
  have hcases : ∀ n, n < (s.create (some child)).count → n < s.count ∨ n = s.count := fun n hn =>
    Nat.lt_succ_iff_lt_or_eq.mp hn
  refine ⟨h.room, h.stored, h.fifo, h.nodup, fun n hn => Nat.lt_succ_of_lt (h.known n hn),
    fun n hn => ?_, fun n hn hst => ?_, fun n hn hst => ?_⟩
  · rcases hcases n hn with hn | rfl
    · rw [hold n hn]
      exact h.past n hn
    · rw [hnew, hc]
      decide
  · rcases hcases n hn with hn | rfl
    · rw [hold n hn] at hst
      exact h.waiting n hn hst
    · exact fun hin => Nat.lt_irrefl _ (h.known _ hin)
  · rcases hcases n hn with hn | rfl
    · rw [hold n hn] at hst
      exact h.reached n hn hst
    · rw [hnew, hc] at hst
      cases hst

theorem Inv.child_quiet (h : Inv s) (hn : n < s.count) {c : Tcp.Ctx}
    (hq : Tcp.Quiet { this := s.children n } c) :
    Inv (s.setChild n c.this) := by
  have hbefore : (s.children n).tcpstate = .synrecv ∨ Tcp.opened (s.children n).tcpstate = true := by
    obtain ⟨hlisten, hsynsent⟩ := h.past n hn
    cases hst : (s.children n).tcpstate <;> first | exact .inl rfl | exact .inr rfl | contradiction
  have hafter : c.this.tcpstate = .synrecv ∨ Tcp.opened c.this.tcpstate = true := by
    rcases hbefore with hst | ho
    · exact (hq.waiting hst).2
    · exact .inr (hq.done ho).1
  refine ⟨h.room, h.stored, h.fifo, h.nodup, h.known, fun m hm => ?_, fun m hm hst => ?_,
    fun m hm hst => ?_⟩ <;> by_cases hmn : m = n
  · subst hmn
    rw [setChild_self]
    rcases hafter with hst | ho
    · rw [hst]
      decide
    · constructor <;> intro hc <;> rw [hc] at ho <;> cases ho
  · rw [setChild_other _ hmn]
    exact h.past m hm
  · subst hmn
    rw [setChild_self] at hst
    rcases hbefore with hold | ho
    · exact h.waiting m hm hold
    · have := (hq.done ho).1
      rw [hst] at this
      cases this
  · rw [setChild_other _ hmn] at hst
    exact h.waiting m hm hst
  · subst hmn
    rw [setChild_self] at hst
    rcases hbefore with hold | ho
    · exact absurd hst (hq.waiting hold).1
    · exact h.reached m hm ((hq.done ho).2 hst)
  · rw [setChild_other _ hmn] at hst
    exact h.reached m hm hst

theorem Inv.establish (h : Inv s) (hn : n < s.count) {this : Tcp.Socket}
    (hst : (s.children n).tcpstate = .synrecv) (ho : Tcp.opened this.tcpstate = true)
    (hroom : s.sock.backlogI ≠ s.sock.backlogMax) :
    Inv ((s.setChild n this).establish n) := by
  have hlt : s.sock.backlogI < s.sock.backlogMax := Nat.lt_of_le_of_ne h.room hroom
  have hnew := h.waiting n hn hst
  have hadd : socketAddToBacklog s.sock n = (true, { s.sock with
      this := { s.sock.this with status := { s.sock.this.status with pollin := true } }
      backlog := Function.update s.sock.backlog s.sock.backlogI n
      backlogI := s.sock.backlogI + 1 }) := if_neg hroom
  have hqueued := queued_add hroom n
  have hself : ((s.setChild n this).establish n).children n = this := setChild_self this
  have hother : ∀ m, m ≠ n → ((s.setChild n this).establish n).children m = s.children m :=
    fun m hm => setChild_other this hm
  have hsock : ((s.setChild n this).establish n).sock = (socketAddToBacklog s.sock n).2 := rfl
  have hstored : ((s.setChild n this).establish n).stored = s.stored ++ [s.sock.backlogI] := by
    simp [System.establish, System.setChild, hadd]
  have hnodup : (s.established ++ [n]).Nodup := List.concat_eq_append ▸ h.nodup.concat hnew
  refine ⟨?_, fun i hi => ?_, ?_, hnodup, fun m hm => ?_,
    fun m hm => ?_, fun m hm hm' hin => ?_, fun m hm hm' => ?_⟩
  · rw [hsock, hadd]
    exact hlt
  · rw [hstored] at hi
    rw [hsock, hadd]
    rcases List.mem_append.mp hi with hi | hi
    · exact h.stored i hi
    · exact List.mem_singleton.mp hi ▸ hlt
  · rw [hsock, hqueued, ← List.append_assoc]
    exact congrArg (· ++ [n]) h.fifo
  · rcases List.mem_append.mp hm with hm | hm
    · exact h.known m hm
    · exact List.mem_singleton.mp hm ▸ hn
  · by_cases hmn : m = n
    · subst hmn
      rw [hself]
      constructor <;> intro hc <;> rw [hc] at ho <;> cases ho
    · rw [hother m hmn]
      exact h.past m hm
  · by_cases hmn : m = n
    · subst hmn
      rw [hself] at hm'
      rw [hm'] at ho
      cases ho
    · rw [hother m hmn] at hm'
      rcases List.mem_append.mp hin with hin | hin
      · exact h.waiting m hm hm' hin
      · exact hmn (List.mem_singleton.mp hin)
  · by_cases hmn : m = n
    · subst hmn
      exact List.mem_append_right _ (List.mem_singleton.mpr rfl)
    · rw [hother m hmn] at hm'
      exact List.mem_append_left _ (h.reached m hm hm')

theorem Inv.child (h : Inv s) (hn : n < s.count) (event : Tcp.Event)
    (hok : hasRoom s (.child n event) = true) :
    Inv (if (Tcp.handle (s.children n) event).backlogged then
      (s.setChild n (Tcp.handle (s.children n) event).this).establish n
      else s.setChild n (Tcp.handle (s.children n) event).this) := by
  have hcompletes := Tcp.completes_handle event (h.past n hn).1 (h.past n hn).2
  have hbacklogged := handle_backlogged event (h.past n hn)
  by_cases hst : (s.children n).tcpstate = .synrecv
  · rcases hcompletes.waiting hst with hq | ⟨hb, ho⟩
    · rw [hq.backlogged]
      exact h.child_quiet hn hq
    · rw [hb, if_pos rfl]
      have hroom : s.sock.backlogI ≠ s.sock.backlogMax := by
        simpa [hasRoom, ← hbacklogged, hb] using hok
      exact h.establish hn hst ho hroom
  · have hopened : Tcp.opened (s.children n).tcpstate = true := by
      obtain ⟨hlisten, hsynsent⟩ := h.past n hn
      cases hc : (s.children n).tcpstate <;> first | rfl | contradiction
    have hq := hcompletes.done hopened
    rw [hq.backlogged]
    exact h.child_quiet hn hq

theorem Inv.accept (h : Inv s) {sock : Listener} (ha : tcpAccept s.sock = some (n, sock)) :
    Inv { s with sock, accepted := s.accepted ++ [n] } := by
  obtain ⟨hqueued, hi, hmax, _⟩ := queued_accept ha
  refine ⟨?_, fun i hi => ?_, ?_, h.nodup, h.known, h.past, h.waiting, h.reached⟩
  · exact Nat.le_trans hi (hmax ▸ h.room)
  · exact hmax ▸ h.stored i hi
  · rw [List.append_assoc, List.singleton_append, ← hqueued]
    exact h.fifo

theorem next_backlogMax {c : Step} (hs : next s c = some s') :
    s'.sock.backlogMax = s.sock.backlogMax := by
  have hadd : ∀ (sock : Listener) (n : Nat),
      (socketAddToBacklog sock n).2.backlogMax = sock.backlogMax := by
    intro sock n
    unfold socketAddToBacklog
    split <;> rfl
  cases c with
  | segment env src dest buf length =>
    obtain rfl := Option.some.inj hs
    unfold System.create
    split <;> rfl
  | child n event =>
    simp only [next] at hs
    split at hs
    · obtain rfl := Option.some.inj hs
      split
      · exact hadd _ n
      · rfl
    · cases hs
  | accept =>
    simp only [next] at hs
    split at hs
    · next n sock ha =>
      obtain rfl := Option.some.inj hs
      exact (queued_accept ha).2.2.1
    · cases hs

theorem Inv.next {c : Step} (h : Inv s) (hok : hasRoom s c = true) (hs : next s c = some s') : Inv s' := by
  cases c with
  | segment env src dest buf length =>
    obtain rfl := Option.some.inj hs
    have hthis := h.setThis (Tcp.tcpNetpacket env s.sock.this src dest buf length).this
    cases hsp : (Tcp.tcpNetpacket env s.sock.this src dest buf length).spawned with
    | none => exact hthis
    | some child => exact hthis.create (Tcp.tcpNetpacket_spawned hsp)
  | child n event =>
    simp only [Backlog.next] at hs
    split at hs
    · next hn =>
      obtain rfl := Option.some.inj hs
      exact h.child hn event hok
    · cases hs
  | accept =>
    simp only [Backlog.next] at hs
    split at hs
    · next n sock ha =>
      obtain rfl := Option.some.inj hs
      exact h.accept ha
    · cases hs

/-- What is in the array is returned by as many calls of `accept`, one after the other. -/
theorem accept_all : ∀ (queue : List Nat) {s : System}, s.sock.queued = queue →
    ∃ s', runAll next (List.replicate queue.length .accept) s = some s' ∧
      s'.accepted = s.accepted ++ queue
  | [], s, _ => ⟨s, rfl, (List.append_nil _).symm⟩
  | n :: queue, s, h => by
    have hne : s.sock.backlogI ≠ 0 := by
      intro hzero
      simp [Listener.queued, hzero] at h
    obtain ⟨m, sock, ha⟩ : ∃ m sock, tcpAccept s.sock = some (m, sock) :=
      ⟨_, _, if_neg hne⟩
    obtain ⟨hqueued, _⟩ := queued_accept ha
    obtain ⟨rfl, hrest⟩ := List.cons.inj (h.symm.trans hqueued)
    obtain ⟨s', hrun, haccepted⟩ := accept_all queue
      (s := { s with sock, accepted := s.accepted ++ [n] }) hrest.symm
    refine ⟨s', ?_, by rw [haccepted, List.append_assoc]; rfl⟩
    rw [List.length_cons, List.replicate_succ, runAll, next, ha]
    exact hrun

/--
**Every socket whose handshake is completed is returned by `accept`, once and in this order**, if the
argument of `listen` is not negative, there is memory for the array, and there is an entry whenever a
handshake is completed. The entries that are written are inside the array.
-/
theorem backlog_fifo {this : Tcp.Socket} {backlog : BitVec 32} {memory : Bool} {sock : Listener}
    (hlisten : syscallListen this backlog memory = some sock) (hfits : Fits backlog memory)
    (hr : Reach (fun s c s' => next s c = some s') (fun s c => hasRoom s c = true) (start sock) s) :
    (∀ i ∈ s.stored, 8 * (i + 1) ≤ sock.bytes) ∧
      (∀ n < s.count, (s.children n).tcpstate = .established → n ∈ s.established) ∧
      s.established.Nodup ∧ s.established = s.accepted ++ s.sock.queued ∧
      ∃ s', runAll next (List.replicate s.sock.queued.length .accept) s = some s' ∧
        s'.accepted = s.established := by
  obtain ⟨hbytes, hzero⟩ := listen_fits hlisten hfits
  have hinv : Inv s ∧ s.sock.backlogMax = sock.backlogMax := by
    refine hr.invariant (I := fun s => Inv s ∧ s.sock.backlogMax = sock.backlogMax)
      ⟨.start hzero, rfl⟩ fun s c s' h hok hs => ⟨h.1.next hok hs, ?_⟩
    exact (next_backlogMax hs).trans h.2
  obtain ⟨hinv, hmax⟩ := hinv
  obtain ⟨s', hrun, haccepted⟩ := accept_all s.sock.queued (s := s) rfl
  refine ⟨fun i hi => ?_, hinv.reached, hinv.nodup, hinv.fifo, s', hrun, ?_⟩
  · have hi := hinv.stored i hi
    rw [hmax] at hi
    omega
  · rw [haccepted, hinv.fifo]

/-- A socket that is bound to port 80. -/
def boundSocket : Tcp.Socket :=
  { Tcp.socketCreateTcp with state := .bound, conn := ⟨0, 0, 0x5000, 0⟩ }

/-- `SYN` for it, and the `ACK` that completes the handshake. -/
def synSegment : Nat → Tcp.Byte := fun i =>
  [4, 1, 0, 0x50, 0, 0, 0, 1, 0, 0, 0, 0, 0x50, 2].getD i 0

def ackSegment : Nat → Tcp.Byte := fun i =>
  [4, 1, 0, 0x50, 0, 0, 0, 2, 0, 0, 0, 8, 0x50, 0x10].getD i 0

/-- What the kernel has for them. -/
def segmentEnv : Tcp.Env := ⟨0, 0, some 0, fun _ => 0, 7⟩

def handshake : List Step :=
  [.segment segmentEnv 0x0302000a 0x0f02000a synSegment 0,
    .child 0 (.segment segmentEnv 0x0302000a 0x0f02000a ackSegment 0)]

/-- The listening socket, with a backlog of so many entries. -/
def listener (backlog : BitVec 32) : Listener where
  this := { boundSocket with state := .listening, tcpstate := .listen }
  backlog := fun _ => 0
  backlogMax := (backlog.signExtend 64).toNat
  backlogI := 0
  bytes := blockBytes (backlog.signExtend 64 * 8).toNat true

theorem backlog_fifo_one :
    ∃ s, Reach (fun s c s' => next s c = some s') (fun s c => hasRoom s c = true)
        (start (listener 5)) s ∧
      s.established = [0] ∧ s.stored = [0] ∧ s.accepted = [0] ∧
      (∀ i ∈ s.stored, 8 * (i + 1) ≤ (listener 5).bytes) ∧
      (∀ n < s.count, (s.children n).tcpstate = .established → n ∈ s.established) ∧
      s.established.Nodup ∧ s.established = s.accepted ++ s.sock.queued ∧
      ∃ s', runAll next (List.replicate s.sock.queued.length .accept) s = some s' ∧
        s'.accepted = s.established := by
  have hrun : ((runIf next hasRoom (handshake ++ [.accept]) (start (listener 5))).map fun s =>
      (s.established, s.stored, s.accepted)) = some ([0], [0], [0]) := by decide +kernel
  obtain ⟨s, hs, hhistory⟩ := Option.map_eq_some_iff.mp hrun
  obtain ⟨hestablished, hrest⟩ := Prod.mk.inj hhistory
  obtain ⟨hstored, haccepted⟩ := Prod.mk.inj hrest
  have hreach : Reach (fun s c s' => next s c = some s') (fun s c => hasRoom s c = true)
      (start (listener 5)) s := Reach.of_runIf .refl hs
  have hlisten : syscallListen boundSocket 5 true = some (listener 5) := rfl
  exact ⟨s, hreach, hestablished, hstored, haccepted,
    backlog_fifo hlisten ⟨by decide, .inl rfl⟩ hreach⟩

/-- With `listen(fd, 0)` the socket is lost, and with `listen(fd, -1)` its entry is outside of the
array. -/
theorem backlog_lost :
    (∃ s, Reach (fun s c s' => next s c = some s') anyStep (start (listener 0)) s ∧
      syscallListen boundSocket 0 true = some (listener 0) ∧
      s.established = [0] ∧ s.accepted ++ s.sock.queued = []) ∧
    ∃ s, Reach (fun s c s' => next s c = some s') anyStep (start (listener (-1))) s ∧
      syscallListen boundSocket (-1) true = some (listener (-1)) ∧
      s.stored = [0] ∧ s.sock.bytes = 0 := by
  have hlost : ((runAll next handshake (start (listener 0))).map fun s =>
      (s.established, s.accepted ++ s.sock.queued)) = some ([0], []) := by decide +kernel
  have hoverrun : ((runAll next handshake (start (listener (-1)))).map fun s =>
      (s.stored, s.sock.bytes)) = some ([0], 0) := by decide +kernel
  obtain ⟨s, hs, hhistory⟩ := Option.map_eq_some_iff.mp hlost
  obtain ⟨s', hs', hhistory'⟩ := Option.map_eq_some_iff.mp hoverrun
  have hreach : Reach (fun s c s' => next s c = some s') anyStep (start (listener 0)) s :=
    Reach.of_runAll .refl (fun _ _ => trivial) hs
  have hreach' : Reach (fun s c s' => next s c = some s') anyStep (start (listener (-1))) s' :=
    Reach.of_runAll .refl (fun _ _ => trivial) hs'
  exact ⟨⟨s, hreach, rfl, (Prod.mk.inj hhistory).1, (Prod.mk.inj hhistory).2⟩,
    ⟨s', hreach', rfl, (Prod.mk.inj hhistory').1, (Prod.mk.inj hhistory').2⟩⟩

end Lyre.Backlog
