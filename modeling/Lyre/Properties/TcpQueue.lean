import Lyre.Infra.Run
import Lyre.Infra.SequenceNumbers
import Lyre.Ipc.TcpCalls

/-!
# Cleaning up the retransmission queue

`tcp_queuecleanup` goes on with the next index when it has removed an entry, and so it leaves every
second one of the entries that begin before `snduna` (`skim`). Behind the loop it frees the storage
of the queue, to which `data` still points: the cleanup leaves a queue that can be used only if
there has been no storage at all.
-/

namespace Lyre.Tcp

open Infra Infra.SequenceNumbers

variable {snduna : BitVec 32} {e : Nat → RetransmitEntry}

/-! ## Every second element -/

section

variable {α : Type} {p : α → Bool}

/-- What is left of a list if the element at an index is removed and the next index looked at. -/
def skim (p : α → Bool) : List α → List α
  | [] => []
  | [a] => if p a then [] else [a]
  | a :: b :: l => if p a then b :: skim p l else a :: b :: l

/-- What is removed. -/
def skimmed (p : α → Bool) : List α → List α
  | [] => []
  | [a] => if p a then [a] else []
  | a :: _ :: l => if p a then a :: skimmed p l else []

theorem skimmed_sublist : ∀ l : List α, (skimmed p l).Sublist l
  | [] => List.Sublist.refl []
  | [a] => by
    unfold skimmed
    split
    · exact List.Sublist.refl [a]
    · exact List.nil_sublist [a]
  | a :: b :: l => by
    unfold skimmed
    split
    · exact ((skimmed_sublist l).cons b).cons_cons a
    · exact List.nil_sublist _

theorem skim_map {β : Type} {f : β → α} : ∀ l : List β, skim p (l.map f) = (skim (p ∘ f) l).map f
  | [] => rfl
  | [a] => by
    simp only [List.map_cons, List.map_nil, skim, Function.comp_apply]
    split <;> rfl
  | a :: b :: l => by
    simp only [List.map_cons, skim, Function.comp_apply]
    split
    · rw [List.map_cons, skim_map l]
    · rfl

theorem getElem?_length (pre rest : List α) (a : α) : (pre ++ a :: rest)[pre.length]? = some a := by
  rw [List.getElem?_append_right (Nat.le_refl _), Nat.sub_self]
  rfl

/-- The element at the index is taken out, and the next one is in its place. -/
theorem vectorRemove_length (pre rest : List α) (a : α) :
    vectorRemove (pre ++ a :: rest) pre.length = pre ++ rest := by
  unfold vectorRemove
  rw [if_pos (by rw [List.length_append, List.length_cons]; omega),
    List.eraseIdx_append_of_length_le (Nat.le_refl _), Nat.sub_self]
  rfl

end

/-! ## The loop -/

/-- The entries that the loop removes when it looks at them. -/
def begun (snduna : BitVec 32) (entry : RetransmitEntry) : Bool := entry.seq < snduna

/-- The loop on a list of entries leaves what `skim` leaves. -/
theorem queuecleanupLoop_eq_skim : ∀ {rest : List RetransmitEntry} (pre : List RetransmitEntry)
    {fuel : Nat}, rest.length ≤ fuel →
    queuecleanupLoop snduna fuel pre.length (pre ++ rest) = pre ++ skim (begun snduna) rest
  | [], pre, 0, _ => rfl
  | [], pre, fuel + 1, _ => by
    rw [queuecleanupLoop, List.append_nil, List.getElem?_eq_none (Nat.le_refl _)]
    exact (List.append_nil pre).symm
  | [a], pre, fuel + 1, _ => by
    rw [queuecleanupLoop, getElem?_length, vectorRemove_length, List.append_nil, skim]
    unfold begun
    by_cases h : a.seq < snduna
    · rw [decide_eq_true h, if_pos rfl]
      dsimp only
      rw [if_neg (BitVec.not_le.mpr h), List.append_nil]
      cases fuel with
      | zero => rfl
      | succ fuel => rw [queuecleanupLoop, List.getElem?_eq_none (Nat.le_succ _)]
    · rw [decide_eq_false h, if_neg Bool.false_ne_true]
      exact if_pos (BitVec.not_lt.mp h)
  | a :: b :: l, pre, fuel + 1, hlen => by
    have hl : l.length ≤ fuel := Nat.le_of_succ_le (Nat.le_of_succ_le_succ hlen)
    have ih : queuecleanupLoop snduna fuel (pre.length + 1) (pre ++ b :: l) =
        pre ++ b :: skim (begun snduna) l := by
      have h := queuecleanupLoop_eq_skim (pre ++ [b]) hl
      rwa [List.length_append, List.length_singleton, List.append_assoc, List.append_assoc] at h
    rw [queuecleanupLoop, getElem?_length, vectorRemove_length, skim]
    unfold begun at ih ⊢
    by_cases h : a.seq < snduna
    · rw [decide_eq_true h, if_pos rfl]
      dsimp only
      rw [if_neg (BitVec.not_le.mpr h)]
      exact ih
    · rw [decide_eq_false h, if_neg Bool.false_ne_true]
      exact if_pos (BitVec.not_lt.mp h)

theorem tcpQueuecleanup_eq_skim (this : Socket) :
    (tcpQueuecleanup this).retransmitqueue = skim (begun this.snduna) this.retransmitqueue :=
  queuecleanupLoop_eq_skim [] (Nat.le_refl _)

namespace Queue

/-- The pointers lead to entries, each to one of its own. -/
structure Points (q : Queue) (e : Nat → RetransmitEntry) (items : List Nat) : Prop where
  nodup : items.Nodup
  entry : ∀ a ∈ items, q.heap.get a = some (.entry (e a))

theorem Points.of_cons {q : Queue} {a : Nat} {items : List Nat} (h : Points q e (a :: items)) :
    Points q e items :=
  ⟨(List.nodup_cons.mp h.nodup).2, fun b hb => h.entry b (List.mem_cons_of_mem a hb)⟩

theorem Points.entryAt {q : Queue} {a : Nat} {items : List Nat} (h : Points q e items)
    (ha : a ∈ items) : q.entryAt a = some (e a) := by
  unfold Queue.entryAt
  rw [h.entry a ha]

/-- The queue behind the removal of an entry. -/
def removed (q : Queue) (a : Nat) (items : List Nat) : Queue :=
  { q with heap := { q.heap.erase a with freed := q.heap.freed ++ [a] }, items }

/-- What the loop does: it leaves what `skim` leaves, and the rest is freed, each entry once. -/
structure Skimmed (snduna : BitVec 32) (e : Nat → RetransmitEntry) (q q' : Queue)
    (pre rest : List Nat) : Prop where
  items : q'.items = pre ++ skim (begun snduna ∘ e) rest
  heap : Heap.Freed q.heap q'.heap (skimmed (begun snduna ∘ e) rest)
  data : q'.data = q.data
  capacity : q'.capacity = q.capacity

section

variable {q : Queue} {a b : Nat} {rest pre : List Nat} {fuel : Nat}

theorem removed_storage (hst : q.HasStorage) (ha : q.heap.get a = some (.entry (e a)))
    (items : List Nat) : (q.removed a items).HasStorage := by
  have hne : q.data ≠ a := by
    rintro rfl
    rw [HasStorage, ha] at hst
    cases hst
  exact (Heap.get_erase_of_ne hne).trans hst

theorem Points.removed (h : Points q e (a :: rest)) (items : List Nat) :
    Points (q.removed a items) e rest where
  nodup := h.of_cons.nodup
  entry b hb := by
    have hne : b ≠ a := fun heq => (List.nodup_cons.mp h.nodup).1 (heq ▸ hb)
    exact (Heap.get_erase_of_ne hne).trans (h.of_cons.entry b hb)

theorem queuecleanupLoop_stop (hq : q.items = pre ++ a :: rest) (hst : q.HasStorage)
    (hp : Points q e (a :: rest)) (h : ¬ (e a).seq < snduna) :
    queuecleanupLoop snduna (fuel + 1) pre.length q = some q := by
  rw [queuecleanupLoop, hq, getElem?_length]
  dsimp only
  rw [if_neg (not_not.mpr hst), hp.entryAt List.mem_cons_self]
  exact if_pos (BitVec.not_lt.mp h)

theorem queuecleanupLoop_remove (hq : q.items = pre ++ a :: rest) (hst : q.HasStorage)
    (hnd : q.items.Nodup) (hp : Points q e (a :: rest)) (h : (e a).seq < snduna) :
    queuecleanupLoop snduna (fuel + 1) pre.length q =
      queuecleanupLoop snduna fuel (pre.length + 1) (q.removed a (pre ++ rest)) := by
  have hmem : a ∈ q.items := by
    rw [hq]
    exact List.mem_append_right pre List.mem_cons_self
  have hpre : a ∉ pre := fun hin => by
    rw [hq] at hnd
    exact (List.nodup_append.mp hnd).2.2 a hin a List.mem_cons_self rfl
  have herase : vectorRemoveByValue q.items a = pre ++ rest := by
    rw [vectorRemoveByValue_of_mem hmem, hq, List.erase_append_right _ hpre, List.erase_cons_head]
  rw [queuecleanupLoop, hq, getElem?_length]
  dsimp only
  rw [if_neg (not_not.mpr hst), hp.entryAt List.mem_cons_self]
  dsimp only
  rw [if_neg (BitVec.not_le.mpr h), Heap.free_eq (hp.entry a List.mem_cons_self), ← hq, herase]
  rfl

end

theorem queuecleanupLoop_spec (snduna : BitVec 32) : ∀ {rest : List Nat} (pre : List Nat)
    {fuel : Nat} {q : Queue}, q.items = pre ++ rest → q.HasStorage → q.items.Nodup → Points q e rest → rest.length ≤ fuel →
    ∃ q', queuecleanupLoop snduna fuel pre.length q = some q' ∧ Skimmed snduna e q q' pre rest
  | [], pre, fuel, q, hq, _, _, _, _ => by
    refine ⟨q, ?_, ⟨hq, Heap.Freed.refl _, rfl, rfl⟩⟩
    cases fuel with
    | zero => rfl
    | succ fuel =>
      rw [queuecleanupLoop, hq, List.append_nil, List.getElem?_eq_none (Nat.le_refl _)]
  | [a], pre, fuel + 1, q, hq, hst, hnd, hp, _ => by
    by_cases h : (e a).seq < snduna
    · have hkey : (begun snduna ∘ e) a = true := decide_eq_true h
      refine ⟨q.removed a (pre ++ []), ?_, ?_, ?_, rfl, rfl⟩
      · rw [queuecleanupLoop_remove hq hst hnd hp h]
        cases fuel with
        | zero => rfl
        | succ fuel =>
          have hnone : (q.removed a (pre ++ [])).items[pre.length + 1]? = none := by
            rw [removed, List.append_nil]
            exact List.getElem?_eq_none (Nat.le_succ _)
          rw [queuecleanupLoop, hnone]
      · rw [skim, if_pos hkey]
        rfl
      · rw [skimmed, if_pos hkey]
        exact (Heap.Freed.refl _).cons List.not_mem_nil
    · have hkey : ¬ (begun snduna ∘ e) a = true := fun hc => h (of_decide_eq_true hc)
      refine ⟨q, queuecleanupLoop_stop hq hst hp h, ?_, ?_, rfl, rfl⟩
      · rw [skim, if_neg hkey, hq]
      · rw [skimmed, if_neg hkey]
        exact Heap.Freed.refl _
  | a :: b :: l, pre, fuel + 1, q, hq, hst, hnd, hp, hlen => by
    by_cases h : (e a).seq < snduna
    · have hkey : (begun snduna ∘ e) a = true := decide_eq_true h
      have hitems : pre ++ b :: l = (pre ++ [b]) ++ l := (List.append_assoc pre [b] l).symm
      have hnd' : (q.removed a (pre ++ b :: l)).items.Nodup := by
        rw [hq] at hnd
        exact hnd.sublist ((List.sublist_cons_self a _).append_left pre)
      obtain ⟨q', hq', hs⟩ := queuecleanupLoop_spec snduna (pre ++ [b]) hitems (removed_storage hst (hp.entry a List.mem_cons_self) _) hnd' (hp.removed _).of_cons
        (Nat.le_of_succ_le (Nat.le_of_succ_le_succ hlen))
      refine ⟨q', ?_, ?_, ?_, hs.data, hs.capacity⟩
      · rw [queuecleanupLoop_remove hq hst hnd hp h]
        rwa [List.length_append, List.length_singleton] at hq'
      · rw [hs.items, skim, if_pos hkey, List.append_assoc]
        rfl
      · rw [skimmed, if_pos hkey]
        refine Heap.Freed.cons hs.heap fun hin => ?_
        have hal : a ∈ b :: l := List.mem_cons_of_mem b ((skimmed_sublist l).subset hin)
        exact (List.nodup_cons.mp hp.nodup).1 hal
    · have hkey : ¬ (begun snduna ∘ e) a = true := fun hc => h (of_decide_eq_true hc)
      refine ⟨q, queuecleanupLoop_stop hq hst hp h, ?_, ?_, rfl, rfl⟩
      · rw [skim, if_neg hkey, hq]
      · rw [skimmed, if_neg hkey]
        exact Heap.Freed.refl _

/-! ## Storage -/

/-- A queue that can be used: it has its storage and its entries for itself. -/
structure Valid (q : Queue) : Prop where
  nodup : q.items.Nodup
  entries : ∀ a ∈ q.items, ∃ entry, q.heap.get a = some (.entry entry)
  null : q.heap.get 0 = none
  storage : q.data = 0 ∧ q.capacity = 0 ∨ q.HasStorage
  room : q.items.length ≤ q.capacity

variable {q q' : Queue}

theorem Valid.data_ne (hv : q.Valid) (hst : q.HasStorage) : q.data ≠ 0 := by
  intro h
  rw [HasStorage, h, hv.null] at hst
  cases hst

theorem Valid.hasStorage (hv : q.Valid) (h : q.data ≠ 0) : q.HasStorage :=
  hv.storage.resolve_left fun hz => h hz.1

theorem Valid.nil (hv : q.Valid) (h : q.data = 0) : q.items = [] := by
  have hcap : q.capacity = 0 := by
    rcases hv.storage with hz | hst
    · exact hz.2
    · exact absurd h (hv.data_ne hst)
  exact List.eq_nil_of_length_eq_zero (Nat.le_zero.mp (hcap ▸ hv.room))

theorem Valid.points (hv : q.Valid) : ∃ e, Points q e q.items := by
  have : Nonempty RetransmitEntry := ⟨⟨0, 0, 0, 0, {}, []⟩⟩
  choose! e he using hv.entries
  exact ⟨e, hv.nodup, he⟩

theorem queuecleanup_spec (snduna : BitVec 32) (hv : q.Valid) (hst : q.HasStorage) (hp : Points q e q.items) :
    ∃ q', q.queuecleanup snduna = some q' ∧
      q'.items = skim (begun snduna ∘ e) q.items ∧
      Heap.Freed q.heap q'.heap (skimmed (begun snduna ∘ e) q.items ++ [q.data]) ∧
      q'.data = q.data := by
  obtain ⟨q', hq', hs⟩ :=
    queuecleanupLoop_spec snduna [] rfl hst hv.nodup hp
      (Nat.le_refl _)
  have hnot : q.data ∉ skimmed (begun snduna ∘ e) q.items := fun hin => by
    have hentry := hp.entry q.data ((skimmed_sublist q.items).subset hin)
    rw [hst] at hentry
    cases hentry
  have hget : q'.heap.get q'.data = some .pointers := by
    rw [hs.data, hs.heap.kept _ hnot]
    exact hst
  unfold queuecleanup
  rw [show queuecleanupLoop snduna q.items.length 0 q = some q' from hq']
  dsimp only
  rw [if_neg (hs.data ▸ hv.data_ne hst), Heap.free_eq hget]
  refine ⟨_, rfl, hs.items, ?_, hs.data⟩
  rw [hs.data]
  exact hs.heap.concat

/-- The entries that stay are those of `tcpQueuecleanup`. -/
theorem queuecleanup_refines {this : Socket} (hv : q.Valid) (hst : q.HasStorage)
    (hp : Points q e q.items) (h : this.retransmitqueue = q.items.map e) :
    ∃ q', q.queuecleanup this.snduna = some q' ∧
      q'.items.map e = (tcpQueuecleanup this).retransmitqueue := by
  obtain ⟨q', hq', hitems, -, -⟩ := queuecleanup_spec this.snduna hv hst hp
  refine ⟨q', hq', ?_⟩
  rw [tcpQueuecleanup_eq_skim, h, skim_map, hitems]

theorem queuecleanup_null (hv : q.Valid) (h : q.data = 0) : q.queuecleanup snduna = some q := by
  unfold queuecleanup
  rw [hv.nil h, List.length_nil, queuecleanupLoop]
  exact if_pos h

/-! ## Later calls -/

/-- A block that `alloc` or `realloc` returns. -/
structure Fresh (q : Queue) (a : Nat) : Prop where
  ne_null : a ≠ 0
  free : q.heap.get a = none

/-- The storage can be written behind `VECTOR_ENSURE_LENGTH`, and the entries are where they were. -/
structure Ensured (q q' : Queue) : Prop where
  storage : q'.HasStorage
  data : q'.data ≠ 0
  items : q'.items = q.items
  room : q.items.length < q'.capacity
  null : q'.heap.get 0 = none
  kept : ∀ a entry, q.heap.get a = some (.entry entry) → q'.heap.get a = some (.entry entry)

theorem ensureLength_spec {moved : Nat} (hnull : q.heap.get 0 = none)
    (hst : q.data = 0 ∧ q.capacity = 0 ∨ q.HasStorage) (hroom : q.items.length ≤ q.capacity)
    (hmoved : q.Fresh moved) : ∃ q', q.ensureLength moved = some q' ∧ Ensured q q' := by
  unfold ensureLength
  split
  · next hfull =>
    have hcap : q.items.length < if q.capacity = 0 then 8 else q.capacity * 2 := by
      split <;> omega
    have hkept : ∀ a entry, q.heap.get a = some (.entry entry) → a ≠ moved := by
      rintro a entry ha rfl
      rw [hmoved.free] at ha
      cases ha
    unfold reallocStorage
    dsimp only
    split
    · refine ⟨_, rfl, ⟨Heap.get_put_self, hmoved.ne_null, rfl, hcap, ?_, fun a entry ha => ?_⟩⟩
      · exact (Heap.get_put_of_ne hmoved.ne_null.symm).trans hnull
      · exact (Heap.get_put_of_ne (hkept a entry ha)).trans ha
    · next hne =>
      have hst : q.HasStorage := hst.resolve_left fun hz => hne hz.1
      refine ⟨_, if_pos hst, ⟨Heap.get_put_self, hmoved.ne_null, rfl, hcap, ?_, fun a entry ha => ?_⟩⟩
      · refine (Heap.get_put_of_ne hmoved.ne_null.symm).trans ?_
        exact (Heap.get_erase_of_ne (Ne.symm hne)).trans hnull
      · have hdata : a ≠ q.data := by
          rintro rfl
          rw [HasStorage, ha] at hst
          cases hst
        exact (Heap.get_put_of_ne (hkept a entry ha)).trans ((Heap.get_erase_of_ne hdata).trans ha)
  · next hfull =>
    have hst : q.HasStorage := hst.resolve_left fun hz => hfull (by omega)
    refine ⟨q, rfl, ⟨hst, ?_, rfl, by omega, hnull, fun _ _ ha => ha⟩⟩
    intro h
    rw [HasStorage, h, hnull] at hst
    cases hst

theorem queueforretransmit_valid {now entry moved : Nat} {seq : BitVec 32} {flags : Flags}
    {data : List Byte} (hv : q.Valid) (hentry : q.Fresh entry) (hmoved : q.Fresh moved)
    (hne : moved ≠ entry) :
    ∃ q', q.queueforretransmit now seq flags data entry moved = some q' ∧ q'.Valid ∧
      q'.items = q.items ++ [entry] := by
  have hst : q.data = 0 ∧ q.capacity = 0 ∨
      (q.heap.put entry (.entry ⟨now, now, 200000, seq, flags, data⟩)).get q.data =
        some .pointers := by
    refine hv.storage.imp_right fun hst => (Heap.get_put_of_ne ?_).trans hst
    intro heq
    have hget : q.heap.get q.data = some .pointers := hst
    rw [heq, hentry.free] at hget
    cases hget
  have hnull := (Heap.get_put_of_ne (h := q.heap) (v := .entry ⟨now, now, 200000, seq, flags, data⟩)
    hentry.ne_null.symm).trans hv.null
  obtain ⟨q', hq', he⟩ := ensureLength_spec
    (q := { q with heap := q.heap.put entry (.entry ⟨now, now, 200000, seq, flags, data⟩) })
    hnull hst hv.room ⟨hmoved.ne_null, (Heap.get_put_of_ne hne).trans hmoved.free⟩
  unfold queueforretransmit
  rw [if_neg hentry.ne_null]
  dsimp only
  rw [hq']
  refine ⟨_, if_pos ⟨he.data, he.storage⟩, ?_, by rw [he.items]⟩
  have hnot : entry ∉ q.items := fun hin => by
    obtain ⟨e, h⟩ := hv.entries entry hin
    rw [hentry.free] at h
    cases h
  refine ⟨?_, ?_, he.null, .inr he.storage, ?_⟩
  · rw [he.items]
    exact List.nodup_append.mpr ⟨hv.nodup, List.pairwise_singleton _ entry, by
      rintro a ha b hb rfl
      exact hnot (List.mem_singleton.mp hb ▸ ha)⟩
  · intro a ha
    rw [he.items] at ha
    rcases List.mem_append.mp ha with ha | ha
    · obtain ⟨e, h⟩ := hv.entries a ha
      refine ⟨e, he.kept a e ((Heap.get_put_of_ne ?_).trans h)⟩
      rintro rfl
      exact hnot ha
    · obtain rfl := List.mem_singleton.mp ha
      exact ⟨_, he.kept a _ Heap.get_put_self⟩
  · rw [he.items, List.length_append]
    exact he.room

theorem Valid.put {a : Nat} {entry : RetransmitEntry} (hv : q.Valid) (ha : a ∈ q.items)
    (hst : q.HasStorage) : { q with heap := q.heap.put a (.entry entry) }.Valid := by
  obtain ⟨old, hold⟩ := hv.entries a ha
  refine ⟨hv.nodup, fun b hb => ?_, ?_, .inr ?_, hv.room⟩
  · rcases eq_or_ne b a with rfl | hne
    · exact ⟨entry, Heap.get_put_self⟩
    · obtain ⟨e, h⟩ := hv.entries b hb
      exact ⟨e, (Heap.get_put_of_ne hne).trans h⟩
  · refine (Heap.get_put_of_ne ?_).trans hv.null
    rintro rfl
    rw [hv.null] at hold
    cases hold
  · refine (Heap.get_put_of_ne fun heq => ?_).trans hst
    rw [← heq, show q.heap.get q.data = some .pointers from hst] at hold
    cases hold

theorem retransmitLoop_valid {now : Nat} {route : Option Nat} {items : List Nat} {c : Ctx}
    (hv : q.Valid) (hsub : ∀ a ∈ items, a ∈ q.items) :
    ∃ r, retransmitLoop now route items q c = some r ∧ r.1.Valid ∧ r.1.items = q.items := by
  induction items generalizing q c with
  | nil => exact ⟨_, rfl, hv, rfl⟩
  | cons a items ih =>
    have ha := hsub a List.mem_cons_self
    have hst : q.HasStorage := hv.hasStorage fun h => by
      rw [hv.nil h] at ha
      exact List.not_mem_nil ha
    obtain ⟨e, he⟩ := hv.entries a ha
    have hat : q.entryAt a = some e := by
      unfold Queue.entryAt
      rw [he]
    rw [retransmitLoop, if_neg (not_not.mpr hst), hat]
    exact ih (hv.put ha hst) fun b hb => hsub b (List.mem_cons_of_mem a hb)

theorem retransmitall_valid {now : Nat} {route : Option Nat} {c : Ctx} (hv : q.Valid) :
    ∃ r, q.retransmitall c now route = some r ∧ r.1.Valid ∧ r.1.items = q.items := by
  unfold retransmitall
  split
  · exact ⟨_, rfl, hv, rfl⟩
  · exact retransmitLoop_valid hv fun _ ha => ha

theorem ensureLength_dangling (moved : Nat) (hdata : q.data ≠ 0) (hgone : ¬ q.HasStorage) :
    q.ensureLength moved = none ∨ q.ensureLength moved = some q := by
  unfold ensureLength reallocStorage
  dsimp only
  rw [if_neg hdata]
  split
  · exact .inl (if_neg hgone)
  · exact .inr rfl

theorem queueforretransmit_dangling {now entry moved : Nat} {seq : BitVec 32} {flags : Flags}
    {data : List Byte} (hdata : q.data ≠ 0) (hgone : q.heap.get q.data = none) :
    q.queueforretransmit now seq flags data entry moved = none := by
  unfold queueforretransmit
  split
  · rfl
  · have hnot : (q.heap.put entry (.entry ⟨now, now, 200000, seq, flags, data⟩)).get q.data ≠
        some .pointers := by
      rcases eq_or_ne q.data entry with rfl | hne
      · rw [Heap.get_put_self]
        exact nofun
      · rw [Heap.get_put_of_ne hne, hgone]
        exact nofun
    dsimp only
    rcases ensureLength_dangling
      (q := { q with heap := q.heap.put entry (.entry ⟨now, now, 200000, seq, flags, data⟩) })
      moved hdata hnot with h | h
    · rw [h]
    · rw [h]
      exact if_neg fun hc => hnot hc.2

/-! ## Runs -/

/-- What `tcp.c` does to the queue of a socket. -/
inductive QueueCall
  | queueforretransmit (now : Nat) (seq : BitVec 32) (flags : Flags) (data : List Byte)
      (entry moved : Nat)
  | retransmitall (c : Ctx) (now : Nat) (route : Option Nat)
  | queuecleanup (snduna : BitVec 32)

def QueueCall.run (q : Queue) : QueueCall → Option Queue
  | .queueforretransmit now seq flags data entry moved =>
    q.queueforretransmit now seq flags data entry moved
  | .retransmitall c now route => (q.retransmitall c now route).map Prod.fst
  | .queuecleanup snduna => q.queuecleanup snduna

/-- The blocks that a call gets are new, and different. -/
def QueueCall.Served (q : Queue) : QueueCall → Prop
  | .queueforretransmit _ _ _ _ entry moved => q.Fresh entry ∧ q.Fresh moved ∧ moved ≠ entry
  | _ => True

/-- The storage has been freed, and `data` still points to it. -/
structure Dangling (q : Queue) : Prop where
  data : q.data ≠ 0
  gone : q.heap.get q.data = none

theorem Dangling.not_hasStorage (h : q.Dangling) : ¬ q.HasStorage := by
  intro hst
  rw [HasStorage, h.gone] at hst
  cases hst

theorem Dangling.queuecleanup (h : q.Dangling) (snduna : BitVec 32) :
    q.queuecleanup snduna = none := by
  unfold Queue.queuecleanup
  cases hi : q.items with
  | nil =>
    rw [List.length_nil, queuecleanupLoop]
    dsimp only
    rw [if_neg h.data, Heap.free, h.gone]
    rfl
  | cons a items =>
    rw [List.length_cons, queuecleanupLoop, hi, List.getElem?_cons_zero]
    dsimp only
    rw [if_pos h.not_hasStorage]

theorem Dangling.retransmitall {r : Queue × Ctx} {c : Ctx} {now : Nat} {route : Option Nat}
    (h : q.Dangling) (hr : q.retransmitall c now route = some r) : r.1 = q := by
  unfold Queue.retransmitall at hr
  split at hr
  · obtain rfl := Option.some.inj hr
    rfl
  · cases hi : q.items with
    | nil =>
      rw [hi] at hr
      obtain rfl := Option.some.inj hr
      rfl
    | cons a items =>
      rw [hi, retransmitLoop, if_pos h.not_hasStorage] at hr
      cases hr

theorem Dangling.run {call : QueueCall} (h : q.Dangling) (hr : call.run q = some q') : q' = q := by
  cases call with
  | queueforretransmit now seq flags data entry moved =>
    rw [QueueCall.run, queueforretransmit_dangling h.data h.gone] at hr
    cases hr
  | retransmitall c now route =>
    obtain ⟨r, hcall, rfl⟩ := Option.map_eq_some_iff.mp hr
    exact h.retransmitall hcall
  | queuecleanup snduna =>
    rw [QueueCall.run, h.queuecleanup] at hr
    cases hr

/-- A call on a queue that can be used returns, and only a cleanup makes the queue useless. -/
theorem Valid.run {call : QueueCall} (hv : q.Valid) (hs : call.Served q) :
    ∃ q', call.run q = some q' ∧ (q'.Valid ∨ q'.Dangling) := by
  cases call with
  | queueforretransmit now seq flags data entry moved =>
    obtain ⟨q', hq', hv', -⟩ := queueforretransmit_valid hv hs.1 hs.2.1 hs.2.2
    exact ⟨q', hq', .inl hv'⟩
  | retransmitall c now route =>
    obtain ⟨r, hr, hv', -⟩ := @retransmitall_valid _ now route c hv
    exact ⟨r.1, Option.map_eq_some_iff.mpr ⟨r, hr, rfl⟩, .inl hv'⟩
  | queuecleanup snduna =>
    by_cases hdata : q.data = 0
    · exact ⟨q, queuecleanup_null hv hdata, .inl hv⟩
    · obtain ⟨e, hp⟩ := hv.points
      obtain ⟨q', hq', -, hfreed, heq⟩ := queuecleanup_spec snduna hv (hv.hasStorage hdata) hp
      refine ⟨q', hq', .inr ⟨heq ▸ hdata, ?_⟩⟩
      rw [heq]
      exact hfreed.gone _ (List.mem_append_right _ List.mem_cons_self)

end Queue

/-- The last sequence number of an entry. -/
def RetransmitEntry.lastSeq (entry : RetransmitEntry) : BitVec 32 :=
  entry.seq + BitVec.ofNat 32 (entry.data.length + entry.flags.syn.toNat + entry.flags.fin.toNat) - 1

/-- All of an entry is before `snduna`. -/
def acked (snduna : BitVec 32) (entry : RetransmitEntry) : Bool := Precedes entry.lastSeq snduna

/-- A queue in which nothing wraps: where an entry begins before `snduna`, those in front of it end
before. -/
structure SendOrder (snduna : BitVec 32) (queue : List RetransmitEntry) : Prop where
  before : queue.Pairwise fun a b => begun snduna b → acked snduna a
  starts : ∀ a ∈ queue, acked snduna a → begun snduna a

section

variable {a : RetransmitEntry} {l queue : List RetransmitEntry}

theorem SendOrder.rest (h : SendOrder snduna (a :: l)) (ha : acked snduna a = false) :
    ∀ b ∈ l, begun snduna b = false := by
  intro b hb
  by_contra hc
  have hack := (List.pairwise_cons.mp h.before).1 b hb (Bool.not_eq_false _ ▸ hc)
  rw [ha] at hack
  exact Bool.false_ne_true hack

end

namespace Queue

variable {q q' : Queue}

/-- The entry at an address has been acknowledged. -/
def acked (q : Queue) (snduna : BitVec 32) (a : Nat) : Bool := (q.entryAt a).any (Tcp.acked snduna)

/-- The entries that have been acknowledged are removed and freed, and nothing else, and the queue
can be used. -/
def Cleaned (q : Queue) (snduna : BitVec 32) : Prop :=
  ∃ q', q.queuecleanup snduna = some q' ∧
    q'.items = q.items.filter (fun a => !q.acked snduna a) ∧
    Heap.Freed q.heap q'.heap (q.items.filter (q.acked snduna)) ∧ q'.Valid

theorem not_cleaned (hv : q.Valid) (h : q.data ≠ 0) : ¬ Cleaned q snduna := by
  rintro ⟨q', hq', -, -, hv'⟩
  obtain ⟨e, hp⟩ := hv.points
  obtain ⟨r, hr, -, hfreed, hdata⟩ := queuecleanup_spec snduna hv (hv.hasStorage h) hp
  obtain rfl : q' = r := Option.some.inj (hq'.symm.trans hr)
  have hgone : q'.heap.get q'.data = none := by
    rw [hdata]
    exact hfreed.gone _ (List.mem_append_right _ List.mem_cons_self)
  rcases hv'.storage with hz | hst
  · exact h (hdata.symm.trans hz.1)
  · rw [HasStorage, hgone] at hst
    cases hst

/-- A queue with one entry of one byte. -/
def one : Queue where
  heap :=
    { get := fun a =>
        if a = 64 then some .pointers
        else if a = 128 then some (.entry ⟨0, 0, 200000, 5, { psh := true, ack := true }, [0x61]⟩)
        else none
      freed := [] }
  data := 64
  capacity := 8
  items := [128]

theorem one_valid : one.Valid where
  nodup := List.pairwise_singleton _ 128
  entries a ha := by
    obtain rfl := List.mem_singleton.mp ha
    exact ⟨_, rfl⟩
  null := rfl
  storage := .inr rfl
  room := by decide

def waiting : RetransmitEntry := ⟨0, 0, 200000, 5, { psh := true, ack := true }, [0x61]⟩

theorem queuecleanup_refines_one : ∃ q' : Queue, one.queuecleanup 6 = some q' ∧
    q'.items.map (fun _ => waiting) =
      (tcpQueuecleanup { socketCreateTcp with snduna := 6, retransmitqueue := [waiting] }).retransmitqueue :=
  @queuecleanup_refines _ _ { socketCreateTcp with snduna := 6, retransmitqueue := [waiting] }
    one_valid rfl ⟨one_valid.nodup, fun a ha => by obtain rfl := List.mem_singleton.mp ha; rfl⟩ rfl

/-- When its byte is acknowledged, the queue loses its storage. -/
theorem one_not_cleaned : ¬ Cleaned one 6 := not_cleaned one_valid (by decide)

/-- A cleanup does what it should if the queue has no storage yet, and in no other case. -/
theorem cleaned_iff (hv : q.Valid) (snduna : BitVec 32) : Cleaned q snduna ↔ q.data = 0 := by
  constructor
  · intro h
    by_contra hne
    exact not_cleaned hv hne h
  · intro h
    refine ⟨q, queuecleanup_null hv h, ?_, ?_, hv⟩
    · rw [hv.nil h]
      rfl
    · rw [hv.nil h]
      exact Heap.Freed.refl _

theorem cleaned_iff_one : Cleaned one 6 ↔ one.data = 0 := cleaned_iff one_valid 6

end Queue

end Lyre.Tcp
