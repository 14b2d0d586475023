import Lyre.Infra.Run
import Lyre.Ipc.Pipe

/-!
# Pipes and unix sockets are queues

What a ring holds is a list (`Ring.contents`): reading takes bytes at its front, and writing puts
bytes behind its end, wherever the two pointers are. So over a whole run, what has been read and
what is still there are together what has been accepted (`stream_fifo`).
-/

namespace Lyre.Pipes

open Infra Infra.Ring

variable {ring : Ring} {capacity ptr count : Nat} {buf : List Byte}

/-! ## The end of the buffer -/

/-- What `wrap` returns, for a pointer in the buffer and at most as many bytes as it holds. -/
theorem wrap_eq (hptr : ptr < capacity) (hcount : count ≤ capacity) (hcap : capacity < 2 ^ 63) :
    wrap capacity ptr count =
      (if capacity < ptr + count then capacity - ptr else count,
        if capacity < ptr + count then count - (capacity - ptr) else 0,
        (ptr + count) % capacity) := by
  have hmod : (ptr + count) % capacity =
      if ptr + count < capacity then ptr + count else ptr + count - capacity :=
    add_mod_eq hptr hcount
  unfold wrap
  rw [Nat.mod_eq_of_lt (show ptr + count < 2 ^ 64 by omega), hmod]
  split
  · next h =>
    rw [if_neg (show ¬ ptr + count < capacity by omega)]
    refine Prod.ext rfl (Prod.ext rfl ?_)
    dsimp only
    omega
  · next h =>
    refine Prod.ext rfl (Prod.ext rfl ?_)
    dsimp only
    split <;> split <;> omega

theorem wrap_total (hptr : ptr < capacity) (hcount : count ≤ capacity) (hcap : capacity < 2 ^ 63) :
    (wrap capacity ptr count).1 + (wrap capacity ptr count).2.1 = count := by
  rw [wrap_eq hptr hcount hcap]
  dsimp only
  split <;> omega

/-- What a ring holds. -/
def Ring.contents (ring : Ring) : List Byte :=
  Infra.Ring.contents ring.data ring.capacity ring.readPtr ring.used

structure Valid (ring : Ring) : Prop where
  used_le : ring.used ≤ ring.capacity
  read_lt : ring.readPtr < ring.capacity
  write_eq : ring.writePtr = (ring.readPtr + ring.used) % ring.capacity
  capacity_lt : ring.capacity < 2 ^ 63

namespace Valid

theorem write_lt (h : Valid ring) : ring.writePtr < ring.capacity := by
  rw [h.write_eq]
  exact Nat.mod_lt _ (Nat.zero_lt_of_lt h.read_lt)

theorem length_contents (ring : Ring) : ring.contents.length = ring.used :=
  Infra.Ring.length_contents _ _ _ _

theorem readable_le (ring : Ring) (count : Nat) : ring.readable count ≤ ring.used := by
  unfold Ring.readable
  split <;> omega

/-- Buffers take no less than their lengths say, modulo the size of a `size_t`. -/
theorem readable_mod_le (ring : Ring) (count : Nat) : ring.readable (count % 2 ^ 64) ≤ count := by
  have hmod := Nat.mod_le count (2 ^ 64)
  unfold Ring.readable
  split <;> omega

theorem copyOut_eq (h : Valid ring) (hcount : count ≤ ring.used) :
    copyOut ring (wrap ring.capacity ring.readPtr count).1
      (wrap ring.capacity ring.readPtr count).2.1 =
        Infra.Ring.contents ring.data ring.capacity ring.readPtr count := by
  have hle : count ≤ ring.capacity := Nat.le_trans hcount h.used_le
  rw [wrap_eq h.read_lt hle h.capacity_lt]
  unfold copyOut
  dsimp only
  by_cases hwrap : ring.capacity < ring.readPtr + count
  · have hread := h.read_lt
    have hne : count - (ring.capacity - ring.readPtr) ≠ 0 := by omega
    rw [if_pos hwrap, if_pos hwrap, if_pos hne, contents_eq_slices h.read_lt hle hwrap]
  · rw [if_neg hwrap, if_neg hwrap, if_neg (not_not_intro rfl), List.append_nil,
      contents_eq_slice (by omega)]

theorem advance (h : Valid ring) (hcount : count ≤ ring.used) :
    Valid { ring with
        readPtr := (wrap ring.capacity ring.readPtr count).2.2, used := ring.used - count } ∧
      Infra.Ring.contents ring.data ring.capacity ring.readPtr count ++
          Ring.contents { ring with
            readPtr := (wrap ring.capacity ring.readPtr count).2.2, used := ring.used - count } =
        ring.contents := by
  have hle : count ≤ ring.capacity := Nat.le_trans hcount h.used_le
  have hpos : 0 < ring.capacity := Nat.zero_lt_of_lt h.read_lt
  rw [wrap_eq h.read_lt hle h.capacity_lt]
  refine ⟨⟨?_, Nat.mod_lt _ hpos, ?_, h.capacity_lt⟩, ?_⟩
  · exact Nat.le_trans (Nat.sub_le _ _) h.used_le
  · dsimp only
    rw [h.write_eq, Nat.mod_add_mod, Nat.add_assoc, Nat.add_sub_cancel' hcount]
  · unfold Ring.contents
    dsimp only
    rw [← contents_add, Nat.add_sub_cancel' hcount]

theorem read (h : Valid ring) (count : Nat) :
    Valid (ring.read count).2 ∧ (ring.read count).1 ++ (ring.read count).2.contents =
      ring.contents := by
  have hle := readable_le ring count
  obtain ⟨hvalid, hcontents⟩ := h.advance hle
  unfold Ring.read
  dsimp only
  rw [h.copyOut_eq hle]
  exact ⟨hvalid, hcontents⟩

/-- There is room for what is accepted, and it is a part of what is written. -/
theorem writable_le (h : Valid ring) (hbuf : count < 2 ^ 63) :
    ring.used + ring.writable count ≤ ring.capacity ∧ ring.writable count ≤ count := by
  have hused := h.used_le
  have hcap := h.capacity_lt
  unfold Ring.writable
  rw [Nat.mod_eq_of_lt (show ring.used + count < 2 ^ 64 by omega)]
  split <;> omega

theorem blit_eq_put {data : Nat → Byte} (hptr : ptr < capacity) (hcount : count ≤ buf.length) :
    (if (if capacity < ptr + count then count - (capacity - ptr) else 0) ≠ 0 then
        blit (blit data ptr (buf.take (if capacity < ptr + count then capacity - ptr else count)))
          0 ((buf.drop (if capacity < ptr + count then capacity - ptr else count)).take
            (if capacity < ptr + count then count - (capacity - ptr) else 0))
      else blit data ptr (buf.take (if capacity < ptr + count then capacity - ptr else count))) =
      put data capacity ptr (buf.take count) := by
  have hlen : (buf.take count).length = count := List.length_take_of_le hcount
  unfold put
  rw [hlen]
  by_cases hwrap : capacity < ptr + count
  · have hne : count - (capacity - ptr) ≠ 0 := by omega
    rw [if_pos hwrap, if_pos hwrap, if_pos hne, if_pos hwrap, List.take_take, List.drop_take,
      Nat.min_eq_left (by omega)]
  · rw [if_neg hwrap, if_neg hwrap, if_neg hwrap, if_neg (not_not_intro rfl)]

theorem write (h : Valid ring) (hbuf : buf.length < 2 ^ 63) :
    Valid (ring.write buf).2 ∧
      (ring.write buf).2.contents = ring.contents ++ buf.take (ring.write buf).1 := by
  obtain ⟨hroom, hle⟩ := h.writable_le hbuf
  have hlen : (buf.take (ring.writable buf.length)).length = ring.writable buf.length :=
    List.length_take_of_le hle
  have hput := contents_put ring.data (buf.take (ring.writable buf.length)) h.read_lt
    (by rw [hlen]; exact hroom)
  unfold Ring.write
  dsimp only
  rw [wrap_eq h.write_lt (by omega) h.capacity_lt]
  dsimp only
  rw [blit_eq_put h.write_lt hle]
  refine ⟨⟨hroom, h.read_lt, ?_, h.capacity_lt⟩, ?_⟩
  · dsimp only
    rw [h.write_eq, Nat.mod_add_mod, Nat.add_assoc]
  · unfold Ring.contents
    dsimp only
    rw [hlen, ← h.write_eq] at hput
    exact hput

end Valid

/-! ## Messages -/

theorem transferLoop_eq (tmp : List Byte) : ∀ (lens : List Nat) (transferred remaining : Nat),
    remaining ≤ lens.sum →
    (transferLoop tmp lens transferred remaining).2 = transferred + remaining ∧
      (transferLoop tmp lens transferred remaining).1.flatten =
        (tmp.drop transferred).take remaining
  | [], transferred, remaining, h => by
    rw [List.sum_nil, Nat.le_zero] at h
    rw [h]
    exact ⟨rfl, rfl⟩
  | len :: lens, transferred, remaining, h => by
    rw [List.sum_cons] at h
    obtain ⟨hcount, hflat⟩ := transferLoop_eq tmp lens (transferred + min len remaining)
      (remaining - min len remaining) (by omega)
    have hmin : min len remaining + (remaining - min len remaining) = remaining := by omega
    rw [transferLoop]
    refine ⟨?_, ?_⟩
    · dsimp only
      rw [hcount, Nat.add_assoc, hmin]
    · rw [List.flatten_cons, hflat, ← List.drop_drop, ← List.take_add, hmin]

/-! ## Runs -/

/-- The bytes of a result. -/
def Result.data : Result → List Byte
  | .bytes data => data
  | _ => []

/-- The bytes that a write accepts. -/
def Result.accepts (buf : List Byte) : Result → List Byte
  | .count n => buf.take n
  | _ => []

/-- A pipe or a socket, with what it has accepted and what has been read. -/
structure Log (σ : Type) where
  obj : σ
  accepted : List Byte
  out : List Byte

variable {σ : Type}

def Log.read (s : Log σ) (r : Result × σ) : Log σ :=
  { s with obj := r.2, out := s.out ++ r.1.data }

def Log.write (s : Log σ) (buf : List Byte) (r : Result × σ) : Log σ :=
  { s with obj := r.2, accepted := s.accepted ++ r.1.accepts buf }

inductive PipeCall where
  | ref (wronly : Bool)
  | unref (wronly : Bool)
  | read (nonblock interrupted : Bool) (count : Nat)
  | write (interrupted : Bool) (buf : List Byte)

def pipeNext (s : Log Pipe) : PipeCall → Log Pipe
  | .ref wronly => { s with obj := pipeRef s.obj wronly }
  | .unref wronly => { s with obj := pipeUnref s.obj wronly }
  | .read nonblock interrupted count => s.read (pipeRead s.obj nonblock interrupted count)
  | .write interrupted buf => s.write buf (pipeWrite s.obj interrupted buf)

inductive UnixCall where
  | read (nonblock interrupted : Bool) (count : Nat)
  | recvmsg (nonblock interrupted allocated : Bool) (lens : List Nat)
  | write (nonblock interrupted : Bool) (buf : List Byte)

def unixNext (s : Log UnixSocket) : UnixCall → Log UnixSocket
  | .read nonblock interrupted count => s.read (unixRead s.obj nonblock interrupted count)
  | .recvmsg nonblock interrupted allocated lens =>
    s.read (unixRecvmsg s.obj nonblock interrupted allocated lens)
  | .write nonblock interrupted buf => s.write buf (unixWrite s.obj nonblock interrupted buf)

/-- Counts are below `2 ^ 63`. -/
def PipeCall.ok (_ : Log Pipe) : PipeCall → Prop
  | .read _ _ count => count < 2 ^ 63
  | .write _ buf => buf.length < 2 ^ 63
  | _ => True

def UnixCall.ok (_ : Log UnixSocket) : UnixCall → Prop
  | .read _ _ count => count < 2 ^ 63
  | .recvmsg _ _ _ lens => ∀ len ∈ lens, len < 2 ^ 63
  | .write _ _ buf => buf.length < 2 ^ 63

/-- What has been read and what is there are what has been accepted. -/
structure Fifo (ring : Ring) (accepted out : List Byte) : Prop where
  valid : Valid ring
  eq : out ++ ring.contents = accepted

theorem Fifo.read {accepted out data : List Byte} {ring' : Ring} (h : Fifo ring accepted out)
    (hread : Valid ring' ∧ data ++ ring'.contents = ring.contents) :
    Fifo ring' accepted (out ++ data) := by
  refine ⟨hread.1, ?_⟩
  rw [List.append_assoc, hread.2]
  exact h.eq

theorem Fifo.write {accepted out data : List Byte} {ring' : Ring} (h : Fifo ring accepted out)
    (hwrite : Valid ring' ∧ ring'.contents = ring.contents ++ data) :
    Fifo ring' (accepted ++ data) out := by
  refine ⟨hwrite.1, ?_⟩
  rw [hwrite.2, ← List.append_assoc, h.eq]

theorem pipeRef_ring (pipe : Pipe) (wronly : Bool) : (pipeRef pipe wronly).ring = pipe.ring := by
  unfold pipeRef
  split <;> rfl

theorem pipeUnref_ring (pipe : Pipe) (wronly : Bool) :
    (pipeUnref pipe wronly).ring = pipe.ring := by
  unfold pipeUnref
  split <;> rfl

theorem pipeNext_fifo {s : Log Pipe} {call : PipeCall} (h : Fifo s.obj.ring s.accepted s.out)
    (hok : call.ok s) :
    Fifo (pipeNext s call).obj.ring (pipeNext s call).accepted (pipeNext s call).out := by
  cases call with
  | ref wronly =>
    dsimp only [pipeNext]
    rw [pipeRef_ring]
    exact h
  | unref wronly =>
    dsimp only [pipeNext]
    rw [pipeUnref_ring]
    exact h
  | read nonblock interrupted count =>
    dsimp only [pipeNext, Log.read]
    unfold pipeRead
    split
    · split
      · exact h.read ⟨h.valid, rfl⟩
      · cases interrupted <;> exact h.read ⟨h.valid, rfl⟩
    · exact h.read (h.valid.read count)
  | write interrupted buf =>
    dsimp only [pipeNext, Log.write]
    unfold pipeWrite
    split
    · exact h.write ⟨h.valid, (List.append_nil _).symm⟩
    · split
      · cases interrupted <;> exact h.write ⟨h.valid, (List.append_nil _).symm⟩
      · exact h.write (h.valid.write hok)

theorem unixWait_data (nonblock interrupted : Bool) : (unixWait nonblock interrupted).data = [] := by
  cases nonblock <;> cases interrupted <;> rfl

theorem unixWait_accepts (nonblock interrupted : Bool) (buf : List Byte) :
    (unixWait nonblock interrupted).accepts buf = [] := by
  cases nonblock <;> cases interrupted <;> rfl

theorem unixRecvmsg_spec {this : UnixSocket} (h : Valid this.ring)
    (nonblock interrupted allocated : Bool) (lens : List Nat) :
    Valid (unixRecvmsg this nonblock interrupted allocated lens).2.ring ∧
      (unixRecvmsg this nonblock interrupted allocated lens).1.data ++
          (unixRecvmsg this nonblock interrupted allocated lens).2.ring.contents =
        this.ring.contents := by
  unfold unixRecvmsg
  dsimp only
  split
  · rw [unixWait_data]
    exact ⟨h, rfl⟩
  · split
    · exact ⟨h, rfl⟩
    · have hle := Valid.readable_le this.ring (lens.sum % 2 ^ 64)
      have hsum := Valid.readable_mod_le this.ring lens.sum
      generalize this.ring.readable (lens.sum % 2 ^ 64) = count at hle hsum ⊢
      have hcopy := h.copyOut_eq hle
      have htotal := wrap_total h.read_lt (Nat.le_trans hle h.used_le) h.capacity_lt
      obtain ⟨hcount, hflat⟩ := transferLoop_eq (copyOut this.ring
        (wrap this.ring.capacity this.ring.readPtr count).1
        (wrap this.ring.capacity this.ring.readPtr count).2.1) lens 0 count hsum
      rw [htotal, hcount, Nat.zero_add]
      obtain ⟨hvalid, hcontents⟩ := h.advance hle
      refine ⟨hvalid, ?_⟩
      dsimp only [Result.data]
      rw [hflat, List.drop_zero, hcopy, List.take_of_length_le]
      · exact hcontents
      · exact Nat.le_of_eq (Infra.Ring.length_contents _ _ _ _)

theorem unixNext_fifo {s : Log UnixSocket} {call : UnixCall}
    (h : Fifo s.obj.ring s.accepted s.out) (hok : call.ok s) :
    Fifo (unixNext s call).obj.ring (unixNext s call).accepted (unixNext s call).out := by
  cases call with
  | read nonblock interrupted count =>
    dsimp only [unixNext, Log.read]
    unfold unixRead
    split
    · rw [unixWait_data]
      exact h.read ⟨h.valid, rfl⟩
    · exact h.read (h.valid.read count)
  | recvmsg nonblock interrupted allocated lens =>
    exact h.read (unixRecvmsg_spec h.valid nonblock interrupted allocated lens)
  | write nonblock interrupted buf =>
    dsimp only [unixNext, Log.write]
    unfold unixWrite
    split
    · rw [unixWait_accepts]
      exact h.write ⟨h.valid, (List.append_nil _).symm⟩
    · exact h.write (h.valid.write hok)

/-- What the pointers and the history of a ring have to say. -/
structure Queue (ring : Ring) (accepted out : List Byte) : Prop where
  /-- What has been read is a beginning of what has been accepted, and the rest is there. -/
  rest : ∃ rest, out ++ rest = accepted ∧ rest.length = ring.used
  used_le : ring.used ≤ ring.capacity
  read_lt : ring.readPtr < ring.capacity
  write_lt : ring.writePtr < ring.capacity

theorem Fifo.queue {accepted out : List Byte} (h : Fifo ring accepted out) :
    Queue ring accepted out where
  rest := ⟨ring.contents, h.eq, Valid.length_contents ring⟩
  used_le := h.valid.used_le
  read_lt := h.valid.read_lt
  write_lt := h.valid.write_lt

/-- **Pipes and unix sockets are queues**, after every sequence of calls. -/
theorem stream_fifo :
    (∀ s, Reach (fun s call s' => pipeNext s call = s') (fun s call => PipeCall.ok s call)
      ⟨pipeCreate, [], []⟩ s → Queue s.obj.ring s.accepted s.out) ∧
    ∀ s, Reach (fun s call s' => unixNext s call = s') (fun s call => UnixCall.ok s call)
      ⟨socketCreateUnix, [], []⟩ s → Queue s.obj.ring s.accepted s.out := by
  constructor
  · intro s hr
    refine (hr.invariant (I := fun s => Fifo s.obj.ring s.accepted s.out) ?_ ?_).queue
    · exact ⟨⟨by decide, by decide, rfl, by decide⟩, rfl⟩
    · rintro s call _ h hok rfl
      exact pipeNext_fifo h hok
  · intro s hr
    refine (hr.invariant (I := fun s => Fifo s.obj.ring s.accepted s.out) ?_ ?_).queue
    · exact ⟨⟨by decide, by decide, rfl, by decide⟩, rfl⟩
    · rintro s call _ h hok rfl
      exact unixNext_fifo h hok

/-- Three bytes are written, two are read, and a message reads the third with one more. -/
def sampleUnixCalls : List UnixCall :=
  [.write true false [1, 2, 3], .read true false 2, .write true false [4],
    .recvmsg true false true [1, 5]]

theorem stream_fifo_sample : ∃ s,
    Reach (fun s call s' => unixNext s call = s') (fun s call => UnixCall.ok s call)
      ⟨socketCreateUnix, [], []⟩ s ∧ s.out = [1, 2, 3, 4] ∧
    Queue s.obj.ring s.accepted s.out := by
  have hreach : Reach (fun s call s' => unixNext s call = s') (fun s call => UnixCall.ok s call)
      ⟨socketCreateUnix, [], []⟩ (sampleUnixCalls.foldl unixNext ⟨socketCreateUnix, [], []⟩) := by
    refine Reach.foldl sampleUnixCalls (fun call hcall s => ?_) .refl
    simp only [sampleUnixCalls, List.mem_cons, List.not_mem_nil, or_false] at hcall
    rcases hcall with rfl | rfl | rfl | rfl <;> simp [UnixCall.ok]
  exact ⟨_, hreach, by decide +kernel, stream_fifo.2 _ hreach⟩

end Lyre.Pipes
