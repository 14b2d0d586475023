import Lyre.Infra.Run
import Lyre.Sched.Process

/-!
# Pids and indices

A process has the index that it was created with as its pid. Its index changes when a process
before it leaves the table. So the two agree for all processes as long as the one that leaves is
the last (`table_indexed`), and afterwards a pid can be given twice (`pids_repeat`).
-/

namespace Lyre.Procs

open Infra

variable {s s' : State} {a child : Nat}

/-! ## What leaves pids alone -/

/-- Pids, the table and the memory in use are the same. -/
structure Keeps (s s' : State) : Prop where
  pid : ∀ b, (s'.proc b).pid = (s.proc b).pid
  processes : s'.processes = s.processes
  live : s'.live = s.live

theorem Keeps.refl (s : State) : Keeps s s := ⟨fun _ => rfl, rfl, rfl⟩

theorem Keeps.trans {s'' : State} (h : Keeps s s') (h' : Keeps s' s'') : Keeps s s'' :=
  ⟨fun b => (h'.pid b).trans (h.pid b), h'.processes.trans h.processes, h'.live.trans h.live⟩

theorem keeps_setProc {v : Process} (h : v.pid = (s.proc a).pid) : Keeps s (setProc s a v) := by
  refine ⟨fun b => ?_, rfl, rfl⟩
  change (Function.update s.proc a v b).pid = _
  by_cases hb : b = a
  · rw [hb, Function.update_self]
    exact h
  · rw [Function.update_of_ne hb]

theorem keeps_addChild (s : State) (parent child : Nat) : Keeps s (addChild s parent child) :=
  keeps_setProc rfl

theorem keeps_reparent (pid1 : Nat) (children : List Nat) (s : State) :
    Keeps s (reparent s pid1 children) := by
  induction children generalizing s with
  | nil => exact .refl s
  | cons child children ih => exact (keeps_addChild s pid1 child).trans (ih _)

theorem keeps_syscallExit (h : syscallExit s a = some s') : Keeps s s' := by
  unfold syscallExit at h
  split at h
  · cases h
  · next pid1 _ =>
    split at h
    · cases h
    · obtain rfl := Option.some.inj h
      exact (keeps_reparent pid1 _ s).trans (keeps_setProc rfl)

/-! ## The table -/

/-- The pid of each process in the table is its index. -/
structure Indexed (s : State) : Prop where
  pid : ∀ (i a : Nat), s.processes[i]? = some a → (s.proc a).pid = (i : Int)
  live : ∀ a ∈ s.processes, s.live a = true
  length_le : s.processes.length ≤ 2 ^ 31

theorem Indexed.keeps (h : Indexed s) (hk : Keeps s s') : Indexed s' where
  pid i a hi := by
    rw [hk.pid]
    exact h.pid i a (hk.processes ▸ hi)
  live a ha := by
    rw [hk.live]
    exact h.live a (hk.processes ▸ ha)
  length_le := by
    rw [hk.processes]
    exact h.length_le

theorem toInt32_of_lt {n : Nat} (h : n < 2 ^ 31) : toInt32 n = n := by
  unfold toInt32
  rw [BitVec.toInt_eq_toNat_of_lt]
  · rw [BitVec.toNat_ofNat, Nat.mod_eq_of_lt (by omega)]
  · rw [BitVec.toNat_ofNat, Nat.mod_eq_of_lt (by omega)]
    omega

theorem Indexed.create (h : Indexed s) (oldProc : Option Nat) {addr : Nat}
    (hlive : s.live addr ≠ true) (hlen : s.processes.length < 2 ^ 31) :
    Indexed (schedNewProcess s oldProc addr) := by
  have hfresh : ∀ b ∈ s.processes, b ≠ addr := fun b hb heq => hlive (heq ▸ h.live b hb)
  have hpushed : ∀ ppid, Indexed { s with
      proc := Function.update s.proc addr ⟨toInt32 s.processes.length, ppid, [], [], 0⟩
      processes := s.processes ++ [addr]
      live := Function.update s.live addr true } := by
    intro ppid
    refine ⟨fun i b hi => ?_, fun b hb => ?_, ?_⟩
    · dsimp only at hi ⊢
      rw [List.getElem?_append] at hi
      split at hi
      · rw [Function.update_of_ne (hfresh b (List.mem_of_getElem? hi))]
        exact h.pid i b hi
      · obtain ⟨hlt, rfl⟩ := List.getElem?_eq_some_iff.mp hi
        rw [List.length_singleton] at hlt
        have hi' : i = s.processes.length := by omega
        simp only [List.getElem_singleton]
        rw [Function.update_self, hi', toInt32_of_lt hlen]
    · dsimp only
      rcases List.mem_append.mp hb with hb | hb
      · rw [Function.update_of_ne (hfresh b hb)]
        exact h.live b hb
      · rw [List.mem_singleton.mp hb, Function.update_self]
    · rw [List.length_append, List.length_singleton]
      omega
  unfold schedNewProcess
  cases oldProc with
  | none => exact hpushed 0
  | some old => exact (hpushed _).keeps (keeps_addChild _ old addr)

theorem Indexed.index_eq (h : Indexed s) {i j : Nat} (hi : s.processes[i]? = some a)
    (hj : s.processes[j]? = some a) : i = j := by
  have heq : (i : Int) = j := (h.pid i a hi).symm.trans (h.pid j a hj)
  exact Int.ofNat.inj heq

theorem Indexed.nodup (h : Indexed s) : s.processes.Nodup := by
  unfold List.Nodup
  rw [List.pairwise_iff_getElem]
  intro i j hi hj hij heq
  have hsome : s.processes[i]? = some s.processes[j] := by rw [List.getElem?_eq_getElem hi, heq]
  have hidx := h.index_eq hsome (List.getElem?_eq_getElem hj)
  omega

theorem Indexed.dropLast (h : Indexed s) : Indexed { s with processes := s.processes.dropLast } := by
  refine ⟨fun i b hi => h.pid i b ?_, fun b hb => h.live b ((List.dropLast_sublist _).mem hb), ?_⟩
  · dsimp only at hi
    rw [List.getElem?_dropLast] at hi
    split at hi
    · exact hi
    · cases hi
  · dsimp only
    rw [List.length_dropLast]
    exact Nat.le_trans (Nat.sub_le _ _) h.length_le

/-- The child that `waitpid` takes for an event is the last one in the table, or it is not there. -/
def LastOne (s : State) : Option (Nat × Nat) → Prop
  | none => True
  | some (event, child) =>
    (s.proc event).pending = 0 ∨ child ∉ s.processes ∨ s.processes.getLast? = some child

instance (s : State) : ∀ r, Decidable (LastOne s r)
  | none => inferInstanceAs (Decidable True)
  | some (event, child) => inferInstanceAs (Decidable
    ((s.proc event).pending = 0 ∨ child ∉ s.processes ∨ s.processes.getLast? = some child))

/-- The call leaves indices alone: there is room for a pid, and a process that leaves the table is
the last one. No fork fails when its process is already in the table. -/
def InPlace (s : State) : Call → Prop
  | .create _ _ => s.processes.length < 2 ^ 31
  | .forkFail _ _ _ => False
  | .exit _ => True
  | .waitpid a pid which => LastOne s (waitpidChild s a pid which)

instance (s : State) : ∀ call, Decidable (InPlace s call)
  | .create _ _ => inferInstanceAs (Decidable (_ < _))
  | .forkFail _ _ _ => inferInstanceAs (Decidable False)
  | .exit _ => inferInstanceAs (Decidable True)
  | .waitpid .. => inferInstanceAs (Decidable (LastOne _ _))

theorem Indexed.reap (h : Indexed s) (a : Nat)
    (hlast : child ∉ s.processes ∨ s.processes.getLast? = some child) :
    Indexed (reap s a child) := by
  have hrem : vectorRemoveByValue s.processes child = s.processes.dropLast := by
    rcases hlast with hnot | hlast
    · have hlen := h.length_le
      exact vectorRemoveByValue_of_not_mem hnot (by omega)
    · exact vectorRemoveByValue_last h.nodup hlast
  unfold Procs.reap
  dsimp only
  have hk : Keeps s (setProc s a { s.proc a with
      childEvents := vectorRemoveByValue (s.proc a).childEvents child
      children := vectorRemoveByValue (s.proc a).children child }) := keeps_setProc rfl
  rw [hk.processes, hrem, ← hk.processes]
  exact (h.keeps hk).dropLast

theorem Indexed.waitpid (h : Indexed s) {pid : Int} {which : Nat}
    (hlast : LastOne s (waitpidChild s a pid which)) : Indexed (syscallWaitpid s a pid which) := by
  unfold syscallWaitpid
  cases hchild : waitpidChild s a pid which with
  | none => exact h
  | some r =>
    obtain ⟨event, child⟩ := r
    rw [hchild] at hlast
    dsimp only
    split
    · exact h
    · next hpending =>
      have hk : Keeps s (setProc s event { s.proc event with
          pending := (s.proc event).pending - 1 }) := keeps_setProc rfl
      refine (h.keeps hk).reap a ?_
      rw [hk.processes]
      exact hlast.resolve_left hpending

theorem Indexed.next {call : Call} (h : Indexed s) (hok : InPlace s call)
    (hs : next s call = some s') : Indexed s' := by
  cases call with
  | create oldProc addr =>
    rw [Procs.next] at hs
    split at hs
    · cases hs
    · next hlive =>
      obtain rfl := Option.some.inj hs
      exact h.create oldProc hlive hok
  | forkFail oldProc addr garbage => exact absurd hok id
  | exit a => exact h.keeps (keeps_syscallExit hs)
  | waitpid a pid which =>
    obtain rfl := Option.some.inj hs
    exact h.waitpid hok

/-! ## What the table says -/

/-- Pids are unique, and lead to their processes. -/
structure Table (s : State) : Prop where
  unique : (s.processes.map fun a => (s.proc a).pid).Nodup
  item : ∀ a ∈ s.processes, vectorItem s.processes (s.proc a).pid = some a
  /-- `waitpid` waits for the process that has the pid. -/
  target : ∀ (a : Nat) (pid : Int) (child : Nat),
    waitpidTarget s a pid = .ok (some child) → (s.proc child).pid = pid

theorem vectorItem_eq {vec : List Nat} {idx : Int} {x : Nat} (h : vectorItem vec idx = some x) :
    0 ≤ idx ∧ vec[idx.toNat]? = some x := by
  unfold vectorItem at h
  split at h
  · next hidx => exact ⟨hidx, h⟩
  · cases h

theorem Indexed.table (h : Indexed s) : Table s where
  unique := by
    unfold List.Nodup
    rw [List.pairwise_map, List.pairwise_iff_getElem]
    intro i j hi hj hij heq
    rw [h.pid i _ (List.getElem?_eq_getElem hi), h.pid j _ (List.getElem?_eq_getElem hj)] at heq
    omega
  item a ha := by
    obtain ⟨i, hi⟩ := List.getElem?_of_mem ha
    rw [h.pid i a hi, vectorItem, if_pos (by omega), Int.toNat_natCast]
    exact hi
  target a pid child hchild := by
    unfold waitpidTarget at hchild
    split at hchild
    · split at hchild <;> cases hchild
    · split at hchild
      · cases hchild
      · split at hchild
        · cases hchild
        · split at hchild
          · cases hchild
          · next hitem =>
            split at hchild
            · cases hchild
            · obtain rfl := Option.some.inj (Except.ok.inj hchild)
              obtain ⟨hnn, hitem⟩ := vectorItem_eq hitem
              rw [h.pid _ _ hitem, Int.toNat_of_nonneg hnn]

theorem Indexed.reap_middle (h : Indexed s) (a : Nat) (hmem : child ∈ s.processes)
    (hlast : s.processes.getLast? ≠ some child) : ¬ Table (Procs.reap s a child) := by
  intro htable
  obtain ⟨i, hi⟩ := List.getElem?_of_mem hmem
  obtain ⟨hlt, -⟩ := List.getElem?_eq_some_iff.mp hi
  have hidx : s.processes.idxOf child = i := by
    have hidx' := List.idxOf_lt_length_iff.mpr hmem
    refine h.index_eq ?_ hi
    rw [List.getElem?_eq_getElem hidx', List.getElem_idxOf]
  have hproc : (Procs.reap s a child).processes = s.processes.eraseIdx i := by
    change vectorRemoveByValue s.processes child = _
    rw [vectorRemoveByValue_of_mem hmem, List.erase_eq_eraseIdx_of_idxOf hidx]
  have hnext : i + 1 < s.processes.length := by
    by_contra hge
    rw [List.getLast?_eq_getElem?, show s.processes.length - 1 = i by omega] at hlast
    exact hlast hi
  -- the process behind the child is one place before its pid now
  have hp : (Procs.reap s a child).processes[i]? = some s.processes[i + 1] := by
    rw [hproc, List.getElem?_eraseIdx_of_ge (Nat.le_refl i), List.getElem?_eq_getElem hnext]
  have hpid : ((Procs.reap s a child).proc s.processes[i + 1]).pid = ((i + 1 : Nat) : Int) := by
    have hk : Keeps s (setProc s a { s.proc a with
        childEvents := vectorRemoveByValue (s.proc a).childEvents child
        children := vectorRemoveByValue (s.proc a).children child }) := keeps_setProc rfl
    exact (hk.pid _).trans (h.pid (i + 1) _ (List.getElem?_eq_getElem hnext))
  have hitem := (vectorItem_eq (htable.item _ (List.mem_of_getElem? hp))).2
  rw [hpid, Int.toNat_natCast, hproc, List.getElem?_eraseIdx_of_ge (by omega)] at hitem
  have heq := h.index_eq hitem (List.getElem?_eq_getElem hnext)
  omega

theorem Indexed.lastOne_of_table (h : Indexed s) {pid : Int} {which : Nat}
    (htable : Table (syscallWaitpid s a pid which)) : LastOne s (waitpidChild s a pid which) := by
  cases hchild : waitpidChild s a pid which with
  | none => trivial
  | some r =>
    obtain ⟨event, child⟩ := r
    unfold syscallWaitpid at htable
    rw [hchild] at htable
    dsimp only at htable
    split at htable
    · next hpending => exact .inl hpending
    · have hk : Keeps s (setProc s event { s.proc event with
          pending := (s.proc event).pending - 1 }) := keeps_setProc rfl
      by_contra hlast
      obtain ⟨-, hlast⟩ := not_or.mp hlast
      obtain ⟨hmem, hlast⟩ := not_or.mp hlast
      refine (h.keeps hk).reap_middle a ?_ ?_ htable
      · rw [hk.processes]
        exact not_not.mp hmem
      · rw [hk.processes]
        exact hlast

/--
**Every process is in the table at the index of its pid**, in every run of creations, forks, exits
and `waitpid` in which no process leaves the table before the last one. A call of `waitpid` that
takes out another one ends this.
-/
theorem table_indexed (hr : Reach (fun s call s' => next s call = some s') InPlace boot s) :
    Table s ∧ ∀ a pid which, Table (syscallWaitpid s a pid which) ↔
      InPlace s (.waitpid a pid which) := by
  have hidx : Indexed s := by
    refine hr.invariant (I := Indexed) ?_ fun _ _ _ h hok hs => h.next hok hs
    exact ⟨fun i a hi => absurd hi (by simp [boot]), fun a ha => absurd ha List.not_mem_nil,
      by decide⟩
  exact ⟨hidx.table, fun a pid which =>
    ⟨fun h => hidx.lastOne_of_table h, fun h => (hidx.waitpid h).table⟩⟩

/-- The kernel, `init` and two children of it, of which the one given exits. -/
def sampleCalls (a : Nat) : List Call :=
  [.create none 100, .create none 101, .create (some 101) 102, .create (some 101) 103, .exit a]

/-- The younger child is waited for, and its pid is used again. -/
theorem table_indexed_sample : ∃ s,
    Reach (fun s call s' => next s call = some s') InPlace boot s ∧
    s.processes = [100, 101, 102, 104] ∧ (s.proc 104).pid = 3 ∧ Table s := by
  have hrun : (runIf next (fun s call => decide (InPlace s call))
      (sampleCalls 103 ++ [.waitpid 101 3 0, .create (some 101) 104]) boot).map
        (fun s => (s.processes, (s.proc 104).pid)) = some ([100, 101, 102, 104], 3) := by
    decide +kernel
  obtain ⟨s, hs, heq⟩ := Option.map_eq_some_iff.mp hrun
  obtain ⟨hproc, hpid⟩ := Prod.mk.inj heq
  have hreach : Reach (fun s call s' => next s call = some s') InPlace boot s :=
    (Reach.of_runIf .refl hs).mono fun _ _ => of_decide_eq_true
  exact ⟨s, hreach, hproc, hpid, (table_indexed hreach).1⟩

/-- The older child is waited for. The next one gets the pid of the younger one. -/
theorem pids_repeat : ¬ ∀ s : State,
    Reach (fun s call s' => next s call = some s') anyStep boot s → Table s := by
  intro hall
  have hrun : (runAll next (sampleCalls 102 ++ [.waitpid 101 2 0, .create (some 101) 104])
      boot).map (fun s => s.processes.map fun a => (s.proc a).pid) = some [0, 1, 3, 3] := by
    decide +kernel
  obtain ⟨s, hs, hpids⟩ := Option.map_eq_some_iff.mp hrun
  have hunique := (hall s (Reach.of_runAll .refl (fun _ _ => trivial) hs)).unique
  rw [hpids] at hunique
  revert hunique
  decide

end Lyre.Procs
