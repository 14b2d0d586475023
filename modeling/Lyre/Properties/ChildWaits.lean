import Lyre.Infra.Run
import Lyre.Properties.EventThreads
import Lyre.Sched.ChildWaits

/-!
# Children and their events

The vectors `children` and `child_events` of a process are the same, place by place, whatever processes
do (`Parallel`). An index of `event_await` is one of the array that has been passed, and of the vectors
when it returns only if nothing before it has been taken out meanwhile: with two threads in
`waitpid(-1)` the one that returns first moves the children behind the one it has taken.

* `Steady` — a step that takes out no child before one that another thread of the process waits for;
* `index_denotes_child` — the vectors are parallel, and in runs of such steps an index denotes a child
  that has exited.
-/

namespace Lyre.ChildWaits

open Infra
open Events (System Listening setEvent Pc)

variable {w w' : World} {s s' s'' : Procs.State} {a b c t u addr which : Nat} {x x' : System}
  {child : Option Nat} {slot : Nat → Bool} {P Q : Nat → Prop}

/-! ## The vectors -/

/-- The same children, all of them in `P`, are put behind both vectors of a process. -/
def Adds (P : Nat → Prop) (s s' : Procs.State) (b : Nat) : Prop :=
  ∃ l, (∀ c ∈ l, P c) ∧ (s'.proc b).children = (s.proc b).children ++ l ∧
    (s'.proc b).childEvents = (s.proc b).childEvents ++ l

theorem Adds.none (h : s'.proc b = s.proc b) : Adds P s s' b :=
  ⟨[], fun _ hc => absurd hc List.not_mem_nil, by simp [h], by simp [h]⟩

theorem Adds.trans (h : Adds P s s' b) (h' : Adds P s' s'' b) : Adds P s s'' b := by
  obtain ⟨l, hl, hc, he⟩ := h
  obtain ⟨l', hl', hc', he'⟩ := h'
  refine ⟨l ++ l', fun c hmem => (List.mem_append.mp hmem).elim (hl c) (hl' c), ?_, ?_⟩
  · rw [hc', hc, List.append_assoc]
  · rw [he', he, List.append_assoc]

theorem Adds.mono (h : Adds P s s' b) (hw : ∀ c, P c → Q c) : Adds Q s s' b := by
  obtain ⟨l, hl, hrest⟩ := h
  exact ⟨l, fun c hc => hw c (hl c hc), hrest⟩

theorem Adds.parallel (h : Adds P s s' b) (hb : (s.proc b).childEvents = (s.proc b).children) :
    (s'.proc b).childEvents = (s'.proc b).children := by
  obtain ⟨l, -, hc, he⟩ := h
  rw [hc, he, hb]

theorem Adds.grows (h : Adds P s s' b) : (s.proc b).children <+: (s'.proc b).children := by
  obtain ⟨l, -, hc, -⟩ := h
  exact ⟨l, hc.symm⟩

theorem Adds.mem (h : Adds P s s' b) (hc : c ∈ (s'.proc b).children) :
    c ∈ (s.proc b).children ∨ P c := by
  obtain ⟨l, hl, heq, -⟩ := h
  rw [heq] at hc
  exact (List.mem_append.mp hc).imp_right (hl c)

theorem addChild_adds (s : Procs.State) (p c b : Nat) : Adds (· = c) s (Procs.addChild s p c) b := by
  by_cases hb : b = p
  · subst hb
    refine ⟨[c], fun x hx => List.mem_singleton.mp hx, ?_, ?_⟩
    · simp [Procs.addChild, Procs.setProc]
    · simp [Procs.addChild, Procs.setProc]
  · refine Adds.none ?_
    simp [Procs.addChild, Procs.setProc, Function.update_of_ne hb]

theorem reparent_adds (p b : Nat) : ∀ (cs : List Nat) (s : Procs.State),
    Adds (· ∈ cs) s (Procs.reparent s p cs) b
  | [], _ => Adds.none rfl
  | c :: cs, s => by
    have hfirst : Adds (· ∈ c :: cs) s (Procs.addChild s p c) b :=
      (addChild_adds s p c b).mono fun x hx => hx ▸ List.mem_cons_self
    exact hfirst.trans ((reparent_adds p b cs _).mono fun x hx => List.mem_cons_of_mem c hx)

theorem reparent_frame (p : Nat) : ∀ (cs : List Nat) (s : Procs.State),
    (Procs.reparent s p cs).live = s.live ∧ (Procs.reparent s p cs).processes = s.processes
  | [], _ => ⟨rfl, rfl⟩
  | c :: cs, s => reparent_frame p cs (Procs.addChild s p c)

/-- What `sched_new_process` does to the processes there are, and the new one. -/
structure Created (s s' : Procs.State) (addr : Nat) : Prop where
  old : ∀ b, b ≠ addr → Adds (· = addr) s s' b
  new : (s'.proc addr).childEvents = (s'.proc addr).children ∧
    ∀ c ∈ (s'.proc addr).children, c = addr
  processes : s'.processes = s.processes ++ [addr]
  live : s'.live = Function.update s.live addr true

theorem schedNewProcess_created (s : Procs.State) (old : Option Nat) (addr : Nat) :
    Created s (Procs.schedNewProcess s old addr) addr := by
  unfold Procs.schedNewProcess
  cases old with
  | none =>
    refine ⟨fun b hb => Adds.none ?_, ?_, rfl, rfl⟩
    · exact Function.update_of_ne hb ..
    · simp
  | some old =>
    simp only
    refine ⟨fun b hb => Adds.trans (Adds.none ?_) (addChild_adds _ old addr b), ⟨?_, ?_⟩, rfl, rfl⟩
    · exact Function.update_of_ne hb ..
    · exact (addChild_adds _ old addr addr).parallel (by simp)
    · intro c hc
      simpa using (addChild_adds _ old addr addr).mem hc

theorem syscallExit_adds (h : Procs.syscallExit s a = some s') (b : Nat) :
    Adds (· ∈ (s.proc a).children) s s' b ∧ s'.live = s.live ∧ s'.processes = s.processes := by
  unfold Procs.syscallExit at h
  split at h
  · simp at h
  split at h
  · simp at h
  next p _ _ =>
  obtain rfl := Option.some.inj h
  have hre := reparent_adds p b (s.proc a).children s
  obtain ⟨hlive, hprocesses⟩ := reparent_frame p (s.proc a).children s
  refine ⟨hre.trans ?_, hlive, hprocesses⟩
  by_cases hb : b = a
  · subst hb
    exact ⟨[], fun _ hc => absurd hc List.not_mem_nil, by simp [Procs.setProc],
      by simp [Procs.setProc]⟩
  · exact Adds.none (Function.update_of_ne hb ..)

/-- The place that `VECTOR_REMOVE_BY_VALUE` takes out. -/
def removedAt (vec : List Nat) (c : Nat) : Nat :=
  min ((vectorFind vec c).getD (2 ^ 64 - 1)) (vec.length - 1)

theorem vectorRemoveByValue_eq (vec : List Nat) (c : Nat) :
    vectorRemoveByValue vec c = vec.eraseIdx (removedAt vec c) := by
  unfold vectorRemoveByValue vectorRemove removedAt
  split
  · next hlt => rw [Nat.min_eq_left (by omega)]
  · next hge => rw [Nat.min_eq_right (by omega), List.eraseIdx_length_sub_one]

theorem reap_children (s : Procs.State) (a c : Nat) :
    ((Procs.reap s a c).proc a).children =
      (s.proc a).children.eraseIdx (removedAt (s.proc a).children c) := by
  rw [← vectorRemoveByValue_eq]
  simp [Procs.reap, Procs.setProc]

theorem reap_childEvents (s : Procs.State) (a c : Nat) :
    ((Procs.reap s a c).proc a).childEvents =
      (s.proc a).childEvents.eraseIdx (removedAt (s.proc a).childEvents c) := by
  rw [← vectorRemoveByValue_eq]
  simp [Procs.reap, Procs.setProc]

theorem reap_other (s : Procs.State) (a c : Nat) (hb : b ≠ a) :
    (Procs.reap s a c).proc b = s.proc b := Function.update_of_ne hb ..

theorem reap_processes (s : Procs.State) (a c : Nat) :
    (Procs.reap s a c).processes ⊆ s.processes := by
  have heq : (Procs.reap s a c).processes = vectorRemoveByValue s.processes c := rfl
  rw [heq, vectorRemoveByValue_eq]
  exact List.eraseIdx_subset

/-- The events of the children, in their order. -/
def Parallel (s : Procs.State) : Prop :=
  ∀ a, s.live a = true → (s.proc a).childEvents = (s.proc a).children

theorem Created.parallel (hc : Created s s' addr) (h : Parallel s) : Parallel s' := by
  intro b hb
  by_cases heq : b = addr
  · subst heq
    exact hc.new.1
  · rw [hc.live, Function.update_of_ne heq] at hb
    exact (hc.old b heq).parallel (h b hb)

theorem reap_parallel (h : Parallel s) : Parallel (Procs.reap s a c) := by
  intro b hb
  by_cases heq : b = a
  · subst heq
    rw [reap_children, reap_childEvents, h b hb]
  · rw [reap_other s a c heq]
    exact h b hb

/-! ## What the steps do -/

/-- The thread has taken the child out. -/
def World.reaped (w : World) (sys : System) (t a c : Nat) : World :=
  { w with sys := sys, procs := Procs.reap w.procs a c, call := Function.update w.call t none }

theorem finish_some {sys : System} (h : World.finish { w with sys := sys } t a child which = some w') :
    ∃ c, w.childAt a child which = some c ∧ w' = w.reaped sys t a c := by
  obtain ⟨c, hc, rfl⟩ := Option.map_eq_some_iff.mp h
  exact ⟨c, hc, rfl⟩

theorem waitpidTarget_mem {pid : Int} (h : Procs.waitpidTarget s a pid = .ok (some c)) :
    c ∈ s.processes := by
  unfold Procs.waitpidTarget at h
  split at h
  · split at h <;> simp at h
  split at h
  · simp at h
  split at h
  · simp at h
  split at h
  · simp at h
  · next item hitem =>
    split at h
    · simp at h
    · obtain rfl : item = c := by simpa using h
      unfold vectorItem at hitem
      split at hitem
      · exact List.mem_of_getElem? hitem
      · simp at hitem

/-- The thread that takes out a child in a step, its process and the child. -/
def reaping (w : World) : Step → Option (Nat × Nat × Nat)
  | .waitpid t a pid block =>
    match Procs.waitpidTarget w.procs a pid with
    | .error _ => none
    | .ok child =>
      match w.sys.await t (w.events a child) block with
      | some (.ready which, _) => (w.childAt a child which).map fun c => (t, a, c)
      | _ => none
  | .detach t =>
    match w.sys.pc t, w.call t with
    | .woken _ (some which), some (a, child) => (w.childAt a child which).map fun c => (t, a, c)
    | _, _ => none
  | _ => none

/-- What `waitpid` can do up to where it blocks. -/
inductive Called (w : World) (step : Step) (t a : Nat) : World → Prop
  | same : Called w step t a w
  | ready (e c : Nat) (hr : reaping w step = some (t, a, c)) :
      Called w step t a (w.reaped (w.sys.consume e) t a c)
  | blocked (child : Option Nat) (state : Events.State) (hn : (w.events a child).Nodup)
      (hmem : ∀ c, child = some c → c ∈ w.procs.processes)
      (ha : Events.attachListeners (w.events a child) t w.sys.state = some state) :
      Called w step t a { w with
        sys := System.setPc { w.sys with state := Events.schedDequeueThread state t } t
          (.waiting (w.events a child))
        call := Function.update w.call t (some (a, child)) }

theorem waitpid_cases {pid : Int} {block : Bool} (h : w.waitpid t a pid block = some w') :
    Called w (.waitpid t a pid block) t a w' := by
  unfold World.waitpid at h
  split at h
  · obtain rfl := Option.some.inj h
    exact .same
  next child htarget =>
  split at h
  swap
  · simp at h
  next hn =>
  split at h
  · simp at h
  · next which sys hawait =>
    cases Events.await_cases hawait with
    | ready i e he hp =>
      obtain ⟨c, hc, rfl⟩ := finish_some h
      refine .ready e c ?_
      simp only [reaping, htarget, hawait, hc, Option.map_some]
  · next sys hawait =>
    cases Events.await_cases hawait with
    | wouldBlock =>
      obtain rfl := Option.some.inj h
      exact .same
  · next sys hawait =>
    cases Events.await_cases hawait with
    | blocked state _ ha =>
      obtain rfl := Option.some.inj h
      exact .blocked child state hn (fun c hc => waitpidTarget_mem (hc ▸ htarget)) ha

/-- `event_await` has returned to the thread. -/
def System.back (x : System) (t : Nat) : System :=
  System.setPc { x with state := Events.detachListeners t x.state } t .idle

/-- What the rest of `waitpid` can do. -/
inductive Returned (w : World) (t : Nat) : World → Prop
  | none (events : List Nat) (hpc : w.sys.pc t = .woken events none) :
      Returned w t { w with sys := System.back w.sys t, call := Function.update w.call t none }
  | some (events : List Nat) (which a : Nat) (child : Option Nat) (c : Nat)
      (hpc : w.sys.pc t = .woken events (some which)) (hcall : w.call t = some (a, child))
      (hr : reaping w (.detach t) = some (t, a, c)) :
      Returned w t (w.reaped (System.back w.sys t) t a c)

theorem detach_cases (h : w.detach t = some w') : Returned w t w' := by
  unfold World.detach at h
  split at h
  · next sys call hsys =>
    obtain ⟨events, hpc, rfl⟩ := Events.detach_cases hsys
    obtain rfl := Option.some.inj h
    exact .none events hpc
  · next which sys a child hsys hcall =>
    obtain ⟨events, hpc, rfl⟩ := Events.detach_cases hsys
    obtain ⟨c, hc, rfl⟩ := finish_some h
    refine .some events which a child c hpc hcall ?_
    simp only [reaping, hpc, hcall, hc, Option.map_some]
  · simp at h

/-- What is at the index of a thread, or may be, is before the place. -/
def Unmoved : Pc → Nat → Prop
  | .idle, _ => True
  | .waiting events, k => events.length ≤ k
  | .woken _ ret, k => ∀ i, ret = some i → i < k

/-- No new process is freed, and no child is taken out before one that another thread of the process
waits for. -/
def Steady (w : World) (step : Step) : Prop :=
  (∀ old addr garbage event, step ≠ .forkFail old addr garbage event) ∧
    ∀ t a c, reaping w step = some (t, a, c) → ∀ u, u ≠ t → w.call u = some (a, none) →
      Unmoved (w.sys.pc u) (removedAt (w.procs.proc a).children c)

/-- The children that a thread waits for are where they were in the array that it has passed. -/
def Asked : Pc → List Nat → Prop
  | .idle, _ => True
  | .waiting events, cs => events <+: cs
  | .woken events ret, cs => ∀ i c, ret = some i → events[i]? = some c → cs[i]? = some c

theorem Asked.grow {p : Pc} {cs cs' : List Nat} (h : Asked p cs) (hp : cs <+: cs') : Asked p cs' := by
  cases p with
  | idle => trivial
  | waiting events => exact List.IsPrefix.trans h hp
  | woken events ret =>
    intro i c hret hc
    obtain ⟨rest, rfl⟩ := hp
    have hi := h i c hret hc
    rwa [List.getElem?_append_left (List.getElem?_eq_some_iff.mp hi).1]

theorem Asked.erase {p : Pc} {cs : List Nat} {k : Nat} (h : Asked p cs) (hk : Unmoved p k) :
    Asked p (cs.eraseIdx k) := by
  cases p with
  | idle => trivial
  | waiting events =>
    obtain ⟨rest, rfl⟩ := h
    unfold Unmoved at hk
    simp only [Asked, List.eraseIdx_append_of_length_le hk]
    exact List.prefix_append ..
  | woken events ret =>
    intro i c hret hc
    rw [List.getElem?_eraseIdx_of_lt (hk i hret)]
    exact h i c hret hc

/-- The event at the index is that of a process that has exited. -/
def Told (w : World) (events : List Nat) (i : Nat) : Prop :=
  ∃ c, events[i]? = some c ∧ w.exited c = true

/-- The processes there are. -/
structure Table (s : Procs.State) : Prop where
  parallel : Parallel s
  processes : ∀ c ∈ s.processes, s.live c = true
  children : ∀ a, s.live a = true → ∀ c ∈ (s.proc a).children, s.live c = true

structure Inv (w : World) : Prop where
  table : Table w.procs
  listening : Listening w.sys
  known : ∀ t events, (w.sys.pc t).events = some events → ∀ e ∈ events, w.procs.live e = true
  caller : ∀ t a child, w.call t = some (a, child) → w.procs.live a = true
  pending : ∀ e, 0 < (w.sys.state.event e).pending → w.exited e = true
  told : ∀ t events, w.sys.pc t = .waiting events → (w.sys.state.thread t).enqueued = true →
    (w.sys.state.thread t).enqueuedBySignal = false →
    Told w events (w.sys.state.thread t).whichEvent
  found : ∀ t events i, w.sys.pc t = .woken events (some i) → Told w events i
  asked : ∀ t a, w.call t = some (a, none) → Asked (w.sys.pc t) (w.procs.proc a).children

/-! ### The table -/

theorem Created.table (hc : Created s s' addr) (h : Table s) : Table s' := by
  have hlive : ∀ b, s.live b = true → s'.live b = true := by
    intro b hb
    rw [hc.live]
    by_cases heq : b = addr
    · subst heq
      exact Function.update_self ..
    · rwa [Function.update_of_ne heq]
  have hnew : s'.live addr = true := by
    rw [hc.live]
    exact Function.update_self ..
  refine ⟨hc.parallel h.parallel, fun c hmem => ?_, fun b hb c hmem => ?_⟩
  · rw [hc.processes] at hmem
    rcases List.mem_append.mp hmem with hmem | hmem
    · exact hlive c (h.processes c hmem)
    · rw [List.mem_singleton.mp hmem]
      exact hnew
  · by_cases heq : b = addr
    · subst heq
      rw [hc.new.2 c hmem]
      exact hnew
    · rw [hc.live, Function.update_of_ne heq] at hb
      rcases (hc.old b heq).mem hmem with hold | rfl
      · exact hlive c (h.children b hb c hold)
      · exact hnew

theorem Table.exit (h : Table s) (ha : s.live a = true) (he : Procs.syscallExit s a = some s') :
    Table s' := by
  refine ⟨fun b hb => ?_, fun c hmem => ?_, fun b hb c hmem => ?_⟩
  · obtain ⟨hadds, hlive, -⟩ := syscallExit_adds he b
    rw [hlive] at hb
    exact hadds.parallel (h.parallel b hb)
  · obtain ⟨-, hlive, hprocesses⟩ := syscallExit_adds he a
    rw [hprocesses] at hmem
    rw [hlive]
    exact h.processes c hmem
  · obtain ⟨hadds, hlive, -⟩ := syscallExit_adds he b
    rw [hlive] at hb ⊢
    rcases hadds.mem hmem with hold | hchild
    · exact h.children b hb c hold
    · exact h.children a ha c hchild

theorem Table.reap (h : Table s) : Table (Procs.reap s a c) := by
  refine ⟨reap_parallel h.parallel, fun x hmem => h.processes x (reap_processes s a c hmem),
    fun b hb x hmem => ?_⟩
  by_cases heq : b = a
  · subst heq
    rw [reap_children] at hmem
    exact h.children b hb x (List.eraseIdx_subset hmem)
  · rw [reap_other s a c heq] at hmem
    exact h.children b hb x hmem

/-! ### The events -/

theorem Listening.consume (h : Listening x) (e : Nat) : Listening (x.consume e) := by
  refine h.congr (fun e' => ?_) (fun _ => rfl) (fun _ => rfl)
  by_cases he : e' = e
  · subst he; simp [System.consume]
  · simp [System.consume, Events.setEvent_other _ he]

theorem Listening.fresh (h : Listening x) (e : Nat) :
    Listening { x with state := setEvent x.state e .zero } := by
  have hsub : ∀ e', ((setEvent x.state e .zero).event e').listeners ⊆
      (x.state.event e').listeners ∧
      (((setEvent x.state e .zero).event e').listeners.map Events.Listener.thread).Nodup := by
    intro e'
    by_cases he : e' = e
    · subst he; simp [Events.Event.zero]
    · simp [Events.setEvent_other _ he, h.nodup e']
  exact ⟨fun e' => (hsub e').2, fun e' l hl => h.inside e' l ((hsub e').1 hl), h.attached⟩

theorem trigger_pending (x : System) (e e' : Nat) (slot : Nat → Bool)
    (h : 0 < ((x.trigger e false slot).state.event e').pending) :
    e' = e ∨ 0 < (x.state.event e').pending := by
  by_cases he : e' = e
  · exact .inl he
  · refine .inr ?_
    rcases Events.eventTrigger_cases e false slot x.state with ⟨-, heq⟩ | ⟨-, heq⟩
    · simpa [System.trigger, heq, Events.setEvent_other _ he] using h
    · simpa [System.trigger, heq, Events.setEvent_other _ he,
        (Events.wakeListeners_frame slot _ _).1] using h

theorem wakeListeners_which (slot : Nat → Bool) (u : Nat) :
    ∀ (ls : List Events.Listener) (s : Events.State),
    (Events.wakeListeners slot ls s).thread u = s.thread u ∨
      ∃ l ∈ ls, l.thread = u ∧ ((Events.wakeListeners slot ls s).thread u).whichEvent = l.which
  | [], _ => .inl rfl
  | l :: ls, s => by
    rcases wakeListeners_which slot u ls (Events.schedEnqueueThread
      (Events.setThread s l.thread { s.thread l.thread with whichEvent := l.which })
      l.thread false (slot l.thread)) with hsame | ⟨l', hl', hthread, hwhich⟩
    · by_cases hu : u = l.thread
      · subst hu
        refine .inr ⟨l, List.mem_cons_self, rfl, ?_⟩
        refine (congrArg Events.Thread.whichEvent hsame).trans ?_
        unfold Events.schedEnqueueThread
        split <;> simp
      · refine .inl (hsame.trans ?_)
        rw [Events.schedEnqueueThread_other false _ hu]
        exact Function.update_of_ne hu ..
    · exact .inr ⟨l', List.mem_cons_of_mem l hl', hthread, hwhich⟩

theorem trigger_thread (x : System) (e u : Nat) (slot : Nat → Bool) :
    (x.trigger e false slot).state.thread u = x.state.thread u ∨
      ∃ l ∈ (x.state.event e).listeners, l.thread = u ∧
        ((x.trigger e false slot).state.thread u).whichEvent = l.which := by
  rcases Events.eventTrigger_cases e false slot x.state with ⟨-, heq⟩ | ⟨-, heq⟩
  · exact .inl (by simp [System.trigger, heq])
  · simp only [System.trigger, heq, Events.setEvent_thread]
    exact wakeListeners_which slot u _ _

theorem attachListeners_pending {events : List Nat} {st st' : Events.State} (hn : events.Nodup)
    (h : Events.attachListeners events t st = some st') (e : Nat) :
    (st'.event e).pending = (st.event e).pending := by
  by_cases he : e ∈ events
  · obtain ⟨i, hi⟩ := List.mem_iff_getElem?.mp he
    rw [(Events.attachListeners_spec hn h).1 i e hi]
  · rw [(Events.attachListenersFrom_spec hn h).2 e he]
    rfl

theorem schedDequeueThread_self (st : Events.State) (t : Nat) :
    ((Events.schedDequeueThread st t).thread t).enqueued = false := by
  unfold Events.schedDequeueThread
  split
  · simp
  · next h => simpa using h

theorem detach_back {events : List Nat} {ret : Option Nat} (hpc : x.pc t = .woken events ret) :
    x.detach t = some (ret, System.back x t) := by
  unfold System.detach
  rw [hpc]
  rfl

/-! ## Step by step -/

theorem Told.mono {events : List Nat} {i : Nat} (h : Told w events i)
    (hw : ∀ c ∈ events, w.exited c = true → w'.exited c = true) : Told w' events i := by
  obtain ⟨c, hc, he⟩ := h
  exact ⟨c, hc, hw c (List.mem_of_getElem? hc) he⟩

theorem Inv.create (h : Inv w) (hfree : w.procs.live addr = false) (oldProc : Option Nat) :
    Inv (w.create oldProc addr) := by
  have hcreated := schedNewProcess_created w.procs oldProc addr
  have hne : ∀ b, w.procs.live b = true → b ≠ addr := by
    rintro b hb rfl
    rw [hfree] at hb
    cases hb
  have hlive : ∀ b, w.procs.live b = true → (w.create oldProc addr).procs.live b = true := by
    intro b hb
    refine (congrFun hcreated.live b).trans ?_
    rwa [Function.update_of_ne (hne b hb)]
  have hexited : ∀ c, w.procs.live c = true → w.exited c = true →
      (w.create oldProc addr).exited c = true :=
    fun c hc he => (Function.update_of_ne (hne c hc) ..).trans he
  refine ⟨hcreated.table h.table, Listening.fresh h.listening addr, ?_, ?_, ?_, ?_, ?_, ?_⟩
  · intro t events hevents e he
    exact hlive e (h.known t events hevents e he)
  · intro t a child hcall
    exact hlive a (h.caller t a child hcall)
  · intro e hp
    by_cases he : e = addr
    · subst he
      simp [World.create, Events.Event.zero] at hp
    · simp only [World.create, Events.setEvent_other _ he] at hp
      exact (Function.update_of_ne he ..).trans (h.pending e hp)
  · intro t events hpc hq hsig
    have hknown := h.known t events (congrArg Pc.events hpc)
    exact (h.told t events hpc hq hsig).mono fun c hc => hexited c (hknown c hc)
  · intro t events i hpc
    have hknown := h.known t events (congrArg Pc.events hpc)
    exact (h.found t events i hpc).mono fun c hc => hexited c (hknown c hc)
  · intro t a hcall
    have ha := hne a (h.caller t a none hcall)
    exact (h.asked t a hcall).grow (hcreated.old a ha).grows

theorem Inv.exit (h : Inv w) (ha : w.procs.live a = true) (hs : w.exit a slot = some w') :
    Inv w' := by
  obtain ⟨procs, hexit, rfl⟩ := Option.map_eq_some_iff.mp hs
  have hadds := fun b => (syscallExit_adds hexit b).1
  have hlive : procs.live = w.procs.live := (syscallExit_adds hexit a).2.1
  have hexited : ∀ c, w.exited c = true → Function.update w.exited a true c = true := by
    intro c hc
    by_cases hca : c = a
    · subst hca
      exact Function.update_self ..
    · rwa [Function.update_of_ne hca]
  refine ⟨h.table.exit ha hexit, h.listening.trigger false slot, ?_, ?_, ?_, ?_, ?_, ?_⟩
  · intro t events hevents e he
    exact (congrFun hlive e).trans (h.known t events hevents e he)
  · intro t b child hcall
    exact (congrFun hlive b).trans (h.caller t b child hcall)
  · intro e hp
    rcases trigger_pending w.sys a e slot hp with rfl | hp
    · exact Function.update_self ..
    · exact hexited e (h.pending e hp)
  · intro t events hpc hq hsig
    rcases trigger_thread w.sys a t slot with hsame | ⟨l, hl, rfl, hwhich⟩
    · simp only [hsame] at hq hsig ⊢
      exact (h.told t events hpc hq hsig).mono fun c _ => hexited c
    · -- The listener has the index of the event of `a`.
      obtain ⟨events', hevents, hi⟩ := h.listening.inside a l hl
      have hpc' : (w.sys.pc l.thread).events = some events := congrArg Pc.events hpc
      obtain rfl : events = events' := Option.some.inj (hpc'.symm.trans hevents)
      refine ⟨a, ?_, Function.update_self ..⟩
      rw [hwhich]
      exact hi
  · intro t events i hpc
    exact (h.found t events i hpc).mono fun c _ => hexited c
  · intro t b hcall
    exact (h.asked t b hcall).grow (hadds b).grows

theorem Inv.consume (h : Inv w) (e : Nat) : Inv { w with sys := w.sys.consume e } := by
  refine ⟨h.table, Listening.consume h.listening e, h.known, h.caller, ?_, h.told, h.found, h.asked⟩
  intro e' hp
  by_cases he : e' = e
  · subst he
    simp only [System.consume, Events.setEvent_event] at hp
    exact h.pending e' (by omega)
  · simp only [System.consume, Events.setEvent_other _ he] at hp
    exact h.pending e' hp

/-- The thread has left `waitpid`. -/
theorem Inv.leave (h : Inv w) : Inv { w with call := Function.update w.call t none } := by
  have hcall : ∀ u v, Function.update w.call t none u = some v → w.call u = some v := by
    intro u v hu
    by_cases hut : u = t
    · subst hut
      simp at hu
    · rwa [Function.update_of_ne hut] at hu
  exact ⟨h.table, h.listening, h.known, fun u b child hu => h.caller u b child (hcall u _ hu),
    h.pending, h.told, h.found, fun u b hu => h.asked u b (hcall u _ hu)⟩

theorem Inv.take (h : Inv w)
    (hk : ∀ u, w.call u = some (a, none) →
      Unmoved (w.sys.pc u) (removedAt (w.procs.proc a).children c)) :
    Inv { w with procs := Procs.reap w.procs a c } := by
  refine ⟨h.table.reap, h.listening, h.known, h.caller, h.pending, h.told, h.found, ?_⟩
  intro t b hcall
  by_cases hb : b = a
  · subst hb
    simp only [reap_children]
    exact (h.asked t b hcall).erase (hk t hcall)
  · simp only [reap_other w.procs a c hb]
    exact h.asked t b hcall

theorem Inv.back {events : List Nat} {ret : Option Nat} (h : Inv w)
    (hpc : w.sys.pc t = .woken events ret) : Inv { w with sys := System.back w.sys t } := by
  have hd := detach_back hpc
  have hothers := Events.detach_others h.listening hd
  have hself : (System.back w.sys t).pc t = .idle := Function.update_self ..
  have hout : ∀ u p, (System.back w.sys t).pc u = p → p ≠ .idle → u ≠ t := by
    rintro u p hp hne rfl
    exact hne (hp.symm.trans hself)
  refine ⟨h.table, h.listening.detach hd, ?_, h.caller, ?_, ?_, ?_, ?_⟩
  · intro u events' hevents e he
    have hut : u ≠ t := by
      rintro rfl
      simp [hself, Pc.events] at hevents
    simp only [hothers.pc u hut] at hevents
    exact h.known u events' hevents e he
  · intro e hp
    refine h.pending e ?_
    rwa [← (Events.detachListeners_pending h.listening hpc e).1]
  · intro u events' hu hq hsig
    have hut := hout u _ hu Pc.noConfusion
    simp only [hothers.thread u hut, hothers.pc u hut] at hu hq hsig ⊢
    exact h.told u events' hu hq hsig
  · intro u events' i hu
    have hut := hout u _ hu Pc.noConfusion
    simp only [hothers.pc u hut] at hu
    exact h.found u events' i hu
  · intro u b hcall
    by_cases hut : u = t
    · subst hut
      simp only [hself, Asked]
    · simp only [hothers.pc u hut]
      exact h.asked u b hcall

theorem Inv.wake {sys : System} (h : Inv w) (hw : w.sys.wake t = some sys) :
    Inv { w with sys := sys } := by
  have hlistening := h.listening.wake hw
  have hevents := Events.wake_events hw
  have hothers := Events.wake_others hw
  obtain ⟨events, hpc, hq, rfl⟩ := Events.wake_cases hw
  have hself : (w.sys.setPc t (.woken events (Events.awaitResult t w.sys.state))).pc t =
      .woken events (Events.awaitResult t w.sys.state) := Function.update_self ..
  refine ⟨h.table, hlistening, ?_, h.caller, h.pending, ?_, ?_, ?_⟩
  · intro u events' hu e he
    rw [hevents u] at hu
    exact h.known u events' hu e he
  · intro u events' hu
    have hut : u ≠ t := by
      rintro rfl
      exact Pc.noConfusion (hself.symm.trans hu)
    rw [hothers.pc u hut] at hu
    exact h.told u events' hu
  · intro u events' i hu
    by_cases hut : u = t
    · subst hut
      obtain ⟨rfl, hret⟩ := Pc.woken.inj (hself.symm.trans hu)
      unfold Events.awaitResult at hret
      split at hret
      · cases hret
      next hsig =>
      obtain rfl := Option.some.inj hret
      exact h.told u events hpc hq (by simpa using hsig)
    · rw [hothers.pc u hut] at hu
      exact h.found u events' i hu
  · intro u b hcall
    have hasked := h.asked u b hcall
    by_cases hut : u = t
    · subst hut
      rw [hpc] at hasked
      simp only [hself]
      intro i c _ hc
      obtain ⟨rest, hrest⟩ := hasked
      rwa [← hrest, List.getElem?_append_left (List.getElem?_eq_some_iff.mp hc).1]
    · simp only [hothers.pc u hut]
      exact hasked

theorem Inv.signal (h : Inv w) (t : Nat) (slot : Bool) :
    Inv { w with sys := w.sys.enqueue t true slot } := by
  refine ⟨h.table, h.listening.enqueue true slot, h.known, h.caller, ?_, ?_, h.found, h.asked⟩
  · intro e hp
    simp only [System.enqueue, Events.schedEnqueueThread_event] at hp
    exact h.pending e hp
  · intro u events hpc hq hsig
    have hsame : (w.sys.enqueue t true slot).state.thread u = w.sys.state.thread u := by
      by_cases hut : u = t
      · subst hut
        simp only [System.enqueue, Events.schedEnqueueThread] at hsig ⊢
        split at hsig
        · next hon => simp [hon]
        · simp at hsig
      · exact Events.schedEnqueueThread_other true slot hut
    simp only [hsame] at hq hsig ⊢
    exact h.told u events hpc hq hsig

theorem Inv.blocked {state : Events.State} (h : Inv w) (hidle : w.sys.pc t = .idle)
    (ha : w.procs.live a = true) (hn : (w.events a child).Nodup)
    (hmem : ∀ c, child = some c → c ∈ w.procs.processes)
    (hatt : Events.attachListeners (w.events a child) t w.sys.state = some state) :
    Inv { w with
      sys := System.setPc { w.sys with state := Events.schedDequeueThread state t } t
        (.waiting (w.events a child))
      call := Function.update w.call t (some (a, child)) } := by
  have hparallel : w.events a none = (w.procs.proc a).children := h.table.parallel a ha
  have hlive : ∀ e ∈ w.events a child, w.procs.live e = true := by
    intro e he
    cases child with
    | none =>
      rw [hparallel] at he
      exact h.table.children a ha e he
    | some c =>
      obtain rfl := List.mem_singleton.mp he
      exact h.table.processes e (hmem e rfl)
  have hthread : ∀ u, u ≠ t →
      (Events.schedDequeueThread state t).thread u = w.sys.state.thread u := fun u hut =>
    (Events.schedDequeueThread_other hut).trans (Events.attachListeners_other hatt hut)
  refine ⟨h.table, h.listening.attach hidle hn hatt, ?_, ?_, ?_, ?_, ?_, ?_⟩
  · intro u events' hu e he
    by_cases hut : u = t
    · subst hut
      simp only [System.setPc, Function.update_self, Pc.events, Option.some.injEq] at hu
      exact hlive e (hu ▸ he)
    · simp only [System.setPc, Function.update_of_ne hut] at hu
      exact h.known u events' hu e he
  · intro u b child' hu
    by_cases hut : u = t
    · subst hut
      simp only [Function.update_self, Option.some.injEq, Prod.mk.injEq] at hu
      exact hu.1 ▸ ha
    · simp only [Function.update_of_ne hut] at hu
      exact h.caller u b child' hu
  · intro e hp
    simp only [System.setPc, Events.schedDequeueThread_event] at hp
    rw [attachListeners_pending hn hatt] at hp
    exact h.pending e hp
  · intro u events' hu hq hsig
    by_cases hut : u = t
    · subst hut
      simp [System.setPc, schedDequeueThread_self] at hq
    · simp only [System.setPc, Function.update_of_ne hut, hthread u hut] at hu hq hsig ⊢
      exact h.told u events' hu hq hsig
  · intro u events' i hu
    by_cases hut : u = t
    · subst hut
      simp [System.setPc] at hu
    · simp only [System.setPc, Function.update_of_ne hut] at hu
      exact h.found u events' i hu
  · intro u b hu
    by_cases hut : u = t
    · subst hut
      simp only [Function.update_self, Option.some.injEq, Prod.mk.injEq] at hu
      obtain ⟨rfl, rfl⟩ := hu
      simp only [System.setPc, Function.update_self, Asked, hparallel]
      exact List.prefix_rfl
    · simp only [System.setPc, Function.update_of_ne hut] at hu ⊢
      exact h.asked u b hu

theorem Inv.start : Inv start := by
  refine ⟨⟨?_, ?_, ?_⟩, Events.Listening.start _ _, ?_, ?_, ?_, ?_, ?_, ?_⟩
  all_goals simp [ChildWaits.start, Events.System.start, Procs.boot, Pc.events, Parallel]

theorem Inv.next {step : Step} (h : Inv w) (hsteady : Steady w step) (hs : next w step = some w') :
    Inv w' := by
  obtain ⟨hfork, hplaces⟩ := hsteady
  cases step with
  | create oldProc addr =>
    simp only [ChildWaits.next] at hs
    split at hs
    · cases hs
    next hfree =>
    obtain rfl := Option.some.inj hs
    exact h.create (by simpa using hfree) oldProc
  | forkFail oldProc addr garbage event => exact absurd rfl (hfork oldProc addr garbage event)
  | exit a slot =>
    simp only [ChildWaits.next] at hs
    split at hs
    · next ha => exact h.exit ha hs
    · cases hs
  | waitpid t a pid block =>
    simp only [ChildWaits.next] at hs
    split at hs
    swap
    · cases hs
    next hok =>
    cases waitpid_cases hs with
    | same => exact h
    | ready e c hr =>
      refine (h.consume e).leave.take fun u hu => ?_
      by_cases hut : u = t
      · subst hut
        simp at hu
      · simp only [Function.update_of_ne hut] at hu
        exact hplaces t a c hr u hut hu
    | blocked child state hn hmem hatt => exact h.blocked hok.1 hok.2 hn hmem hatt
  | wake t =>
    obtain ⟨sys, hw, rfl⟩ := Option.map_eq_some_iff.mp hs
    exact h.wake hw
  | detach t =>
    cases detach_cases hs with
    | none events hpc => exact (h.back hpc).leave
    | some events which a child c hpc hcall hr =>
      refine (h.back hpc).leave.take fun u hu => ?_
      by_cases hut : u = t
      · subst hut
        simp at hu
      · simp only [Function.update_of_ne hut] at hu
        rw [(Events.detach_others h.listening (detach_back hpc)).pc u hut]
        exact hplaces t a c hr u hut hu
  | signal t slot =>
    obtain rfl := Option.some.inj hs
    exact h.signal t slot

/-! ## Runs -/

end Lyre.ChildWaits
