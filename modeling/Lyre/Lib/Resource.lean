import Lyre.Lib.Errno
import Mathlib.Data.Finset.Erase
import Mathlib.Data.Finset.Insert
import Mathlib.Logic.Function.Basic

/-!
# Descriptors: `lib/resource.c` and the calls that make and copy them

A process and a `struct f_description` are named by their addresses. A `struct f_descriptor` belongs
to one slot and is its value. Addresses that `ALLOC` returns are arguments of a call, and so are the
results of a resource's functions and what `fs/vfs/vfs.c` finds under a path. Locks have no
counterpart. A reference count is a `size_t` that a call raises by a few; it is a `Nat`.
-/

namespace Lyre.Descriptors

def maxFds : Nat := 256
def maxPpollFds : Nat := 32

/-- The constants of the headers of the C library that are looked at. -/
structure Headers where
  oCloexec : BitVec 32
  oNonblock : BitVec 32
  sockCloexec : BitVec 32
  sockNonblock : BitVec 32
  fileCreationFlagsMask : BitVec 32
  pollnval : BitVec 16
  oCloexec_ne : oCloexec ≠ 0

def Headers.fileDescriptorFlagsMask (H : Headers) : BitVec 32 := H.oCloexec

def Headers.fileStatusFlagsMask (H : Headers) : BitVec 32 :=
  ~~~(H.fileCreationFlagsMask ||| H.fileDescriptorFlagsMask)

/-- `struct f_descriptor`. -/
structure Descriptor where
  description : Nat
  flags : BitVec 32
  deriving DecidableEq, Repr

/-- `struct f_description`; the resource is named by its address. -/
structure Description where
  refcount : Nat
  offset : Int
  flags : BitVec 32
  res : Nat
  deriving DecidableEq, Repr

structure State where
  processes : Finset Nat
  /-- `fds` of a process. -/
  fds : Nat × Nat → Option Descriptor
  description : Nat → Description
  /-- The address of a description is in use. -/
  live : Nat → Bool

/-- What a call returns: a number, -1 with an error number, or -1 with `errno` as it was. -/
inductive Ret where
  | value (n : Int)
  | error (errno : Errno)
  | failed
  deriving DecidableEq, Repr

variable (H : Headers) (s : State) (p : Nat)

def State.setDescription (d : Nat) (v : Description) : State :=
  { s with description := Function.update s.description d v }

def State.setSlot (n : Nat) (fd : Option Descriptor) : State :=
  { s with fds := Function.update s.fds (p, n) fd }

/-- `refcount++`. -/
def State.ref (d : Nat) : State :=
  s.setDescription d { s.description d with refcount := (s.description d).refcount + 1 }

/-- `refcount--`. -/
def State.unref (d : Nat) : State :=
  s.setDescription d { s.description d with refcount := (s.description d).refcount - 1 }

/-- The address of a description is taken into use. -/
def State.alloc (d : Nat) (v : Description) : State :=
  { s.setDescription d v with live := Function.update s.live d true }

/-! ## Slots -/

/-- The slot that a number stands for. -/
def slotOf (fdnum : Int) : Option Nat := if fdnum < 0 ∨ maxFds ≤ fdnum then none else some fdnum.toNat

/-- The slot and what is in it, or `EBADF`. -/
def openAt (fdnum : Int) : Option (Nat × Descriptor) :=
  (slotOf fdnum).bind fun n => (s.fds (p, n)).map fun fd => (n, fd)

/-- The description is freed with its last reference, and the slot is empty. -/
def closeSlot (n : Nat) (fd : Descriptor) : State :=
  { (s.unref fd.description).setSlot p n none with
    live :=
      if (s.description fd.description).refcount = 1 then
        Function.update s.live fd.description false
      else s.live }

def fdnumClose (fdnum : Int) : Bool × State :=
  match openAt s p fdnum with
  | none => (false, s)
  | some (n, fd) => (true, closeSlot s p n fd)

/-- `fd_from_fdnum`, which takes a reference; `none` is `EBADF`. -/
def fdFromFdnum (fdnum : Int) : Option (Descriptor × State) :=
  (openAt s p fdnum).map fun (_, fd) => (fd, s.ref fd.description)

/-- The loop over the slots from `i` on. -/
def firstFree (row : Nat → Option Descriptor) : Nat → Nat → Option Nat
  | 0, _ => none
  | k + 1, i => if (row i).isNone then some i else firstFree row k (i + 1)

def fdnumCreateFromFd (fd : Descriptor) (oldFdnum : Int) (specific : Bool) : Ret × State :=
  match slotOf oldFdnum with
  | none => (.error .ebadf, s)
  | some n =>
    if specific then (.value n, (fdnumClose s p oldFdnum).2.setSlot p n (some fd))
    else
      match firstFree (fun i => s.fds (p, i)) (maxFds - n) n with
      | some i => (.value i, s.setSlot p i (some fd))
      | none => (.failed, s)

/-- `fd_create_from_resource`. The address of the description is given if there is memory for both
objects. -/
def fdCreateFromResource (res : Nat) (flags : BitVec 32) (memory : Option Nat) :
    Option (Descriptor × State) :=
  memory.map fun d =>
    (⟨d, flags &&& H.fileDescriptorFlagsMask⟩,
      s.alloc d ⟨1, 0, flags &&& H.fileStatusFlagsMask, res⟩)

def fdnumCreateFromResource (res : Nat) (flags : BitVec 32) (oldFdnum : Int) (specific : Bool)
    (memory : Option Nat) : Ret × State :=
  match fdCreateFromResource H s res flags memory with
  | none => (.failed, s)
  | some (fd, s) => fdnumCreateFromFd s p fd oldFdnum specific

/-- `new_fd->flags` in `fdnum_dup`. -/
def dupFlags (flags : BitVec 32) (cloexec : Bool) : BitVec 32 :=
  let newFlags := flags &&& H.fileDescriptorFlagsMask
  if cloexec then newFlags &&& H.oCloexec else newFlags

def fdnumDup (oldFdnum : Int) (newProc : Nat) (newFdnum : Int) (flags : BitVec 32)
    (specific cloexec memory : Bool) : Ret × State :=
  if specific ∧ oldFdnum = newFdnum ∧ p = newProc then (.error .einval, s)
  else
    match fdFromFdnum s p oldFdnum with
    | none => (.error .ebadf, s)
    | some (oldFd, s) =>
      if memory then
        match fdnumCreateFromFd s newProc ⟨oldFd.description, dupFlags H flags cloexec⟩ newFdnum
            specific with
        | (.value n, s) => (.value n, s.ref oldFd.description)
        | (ret, s) => (ret, s)
      else (.error .enomem, s)

/-! ## System calls -/

def syscallClose (fdnum : Int) : Ret × State :=
  match fdnumClose s p fdnum with
  | (true, s) => (.value 0, s)
  | (false, s) => (.error .ebadf, s)

/-- `syscall_read` and `syscall_write`; `ret` is what the resource returns. -/
def transfer (fdnum ret : Int) : Ret × State :=
  match fdFromFdnum s p fdnum with
  | none => (.error .ebadf, s)
  | some (fd, s) =>
    if ret < 0 then (.failed, s)
    else
      let description := s.description fd.description
      (.value ret, s.setDescription fd.description
        { description with offset := description.offset + ret })

def syscallRead (fdnum ret : Int) : Ret × State := transfer s p fdnum ret

def syscallWrite (fdnum ret : Int) : Ret × State := transfer s p fdnum ret

inductive Whence where
  | cur
  | end
  | set
  | other
  deriving DecidableEq, Repr

/-- `syscall_seek`; a resource that is a character device, a pipe or a socket has no size here. -/
def syscallSeek (fdnum offset : Int) (whence : Whence) (stSize : Option Int) : Ret × State :=
  match fdFromFdnum s p fdnum with
  | none => (.error .ebadf, s)
  | some (fd, s) =>
    match stSize with
    | none => (.error .espipe, s)
    | some stSize =>
      let description := s.description fd.description
      let newOffset := match whence with
        | .cur => some (description.offset + offset)
        | .end => some (offset + stSize)
        | .set => some offset
        | .other => none
      match newOffset with
      | none => (.error .einval, s)
      | some newOffset =>
        if newOffset < 0 then (.error .einval, s)
        else
          (.value newOffset,
            s.setDescription fd.description { description with offset := newOffset })

/-- `F_DUPFD`, `F_DUPFD_CLOEXEC`, `F_GETFD`, `F_SETFD`, `F_GETFL` and `F_SETFL`. -/
inductive Request where
  | dupfd
  | dupfdCloexec
  | getfd
  | setfd
  | getfl
  | setfl
  | other
  deriving DecidableEq, Repr

def syscallFcntl (fdnum : Int) (request : Request) (arg : BitVec 64) (memory : Bool) :
    Ret × State :=
  match openAt s p fdnum with
  | none => (.error .ebadf, s)
  | some (n, fd) =>
    let s := s.ref fd.description
    match request with
    | .dupfd => fdnumDup H s p fdnum p (arg.setWidth 32).toInt 0 false false memory
    | .dupfdCloexec => fdnumDup H s p fdnum p (arg.setWidth 32).toInt 0 false true memory
    | .getfd => (.value (if fd.flags &&& H.oCloexec ≠ 0 then H.oCloexec.toInt else 0), s)
    | .setfd =>
      let flags := if arg &&& H.oCloexec.signExtend 64 ≠ 0 then H.oCloexec else 0
      (.value 0, s.setSlot p n (some { fd with flags }))
    | .getfl => (.value (s.description fd.description).flags.toInt, s)
    | .setfl =>
      (.value 0, s.setDescription fd.description
        { s.description fd.description with flags := arg.setWidth 32 })
    | .other => (.error .einval, s)

/-- `syscall_ioctl`; `ret` is what the resource returns. -/
def syscallIoctl (fdnum : Int) (ret : Ret) : Ret × State :=
  match fdFromFdnum s p fdnum with
  | none => (.error .ebadf, s)
  | some (_, s) => (ret, s)

def syscallDup3 (oldFdnum newFdnum : Int) (flags : BitVec 32) (memory : Bool) : Ret × State :=
  fdnumDup H s p oldFdnum p newFdnum flags true false memory

/-- Where `get_parent_dir` starts; what is behind a descriptor may be a directory or not. The path
may be empty, so that nothing is looked up. -/
inductive Dir where
  | empty
  | root
  | cwd
  | fd (fdnum : Int) (isDir : Bool)

/-- `get_parent_dir`; `none` is `NULL`. -/
def getParentDir : Dir → Option State
  | .empty => some s
  | .root => some s
  | .cwd => some s
  | .fd fdnum isDir =>
    match fdFromFdnum s p fdnum with
    | none => none
    | some (_, s) => if isDir then some s else none

/-- `syscall_openat`; `found` is the resource of the node that is found or created and may be opened.
`none` if `get_parent_dir` returns `NULL`, which is not checked. -/
def syscallOpenat (dir : Dir) (found : Option Nat) (flags : BitVec 32) (memory : Option Nat) :
    Option (Ret × State) :=
  (getParentDir s p dir).map fun s =>
    match found with
    | none => (.failed, s)
    | some res =>
      match fdCreateFromResource H s res flags memory with
      | none => (.failed, s)
      | some (fd, s) => fdnumCreateFromFd s p fd 0 false

/-- `syscall_socket`; `sock` is the socket that is created for the family and the type. -/
def syscallSocket (type : BitVec 32) (sock : Option Nat) (memory : Option Nat) : Ret × State :=
  let flags := if type &&& H.sockCloexec ≠ 0 then H.oCloexec else 0
  let flags := if type &&& H.sockNonblock ≠ 0 then flags ||| H.oNonblock else flags
  match sock with
  | none => (.failed, s)
  | some sock => fdnumCreateFromResource H s p sock flags 0 false memory

/-- The two numbers of `syscall_pipe`. -/
inductive PipeRet where
  | fds (readFd writeFd : Int)
  | failed
  deriving DecidableEq, Repr

/-- `syscall_pipe`; `O_RDONLY` and `O_WRONLY` are in `rdonly` and `wronly`. -/
def syscallPipe (flags rdonly wronly : BitVec 32) (pipe : Option Nat)
    (memory memory' : Option Nat) : PipeRet × State :=
  match pipe with
  | none => (.failed, s)
  | some pipe =>
    match fdnumCreateFromResource H s p pipe (flags ||| rdonly) 0 false memory with
    | (.value readFd, s) =>
      match fdnumCreateFromResource H s p pipe (flags ||| wronly) 0 false memory' with
      | (.value writeFd, s) => (.fds readFd writeFd, s)
      | (_, s) => (.failed, s)
    | (_, s) => (.failed, s)

/-! ## `syscall_ppoll` -/

/-- `struct pollfd`. -/
structure Pollfd where
  fd : Int
  events : BitVec 16
  revents : BitVec 16
  deriving DecidableEq, Repr

/-- What the first loop of `syscall_ppoll` leaves: `fds`, `ret`, and `fd_nums` with `fd_list`. -/
structure Scan where
  fds : List Pollfd
  ret : Nat
  held : List (Nat × Nat)

/-- The first loop, from index `i` on; `status` is the status of a resource. -/
def ppollScan (status : Nat → BitVec 16) : State → Nat → List Pollfd → State × Scan
  | s, _, [] => (s, ⟨[], 0, []⟩)
  | s, i, f :: fds =>
    if f.fd < 0 then
      let (s, scan) := ppollScan status s (i + 1) fds
      (s, { scan with fds := { f with revents := 0 } :: scan.fds })
    else
      match fdFromFdnum s p f.fd with
      | none =>
        let (s, scan) := ppollScan status s (i + 1) fds
        (s, { scan with fds := { f with revents := H.pollnval } :: scan.fds, ret := scan.ret + 1 })
      | some (fd, s) =>
        let revents := status (s.description fd.description).res &&& f.events
        let (s, scan) := ppollScan status s (i + 1) fds
        if revents ≠ 0 then
          (s, { scan with fds := { f with revents } :: scan.fds, ret := scan.ret + 1 })
        else
          (s, { scan with
            fds := { f with revents := 0 } :: scan.fds
            held := (i, fd.description) :: scan.held })

/-- How the wait of `syscall_ppoll` ends: there is no memory for the timer, the thread is
interrupted, the timer fires, or an event of `fd_list` is triggered whose resource is ready. -/
inductive Wait where
  | noTimer
  | interrupted
  | timeout
  | event (which : Nat) (status : BitVec 16)
  deriving DecidableEq, Repr

/-- The cleanup of `syscall_ppoll`, which does not free. -/
def releaseHeld (held : List (Nat × Nat)) : State := held.foldl (fun s h => s.unref h.2) s

/-- The second half of `syscall_ppoll`; `none` if the resource of the event is not ready, so that the
wait goes on. -/
def ppollWait (scan : Scan) (wait : Wait) : Option (Ret × List Pollfd) :=
  match wait with
  | .noTimer => some (.error .enomem, scan.fds)
  | .interrupted => some (.error .eintr, scan.fds)
  | .timeout => some (.value 0, scan.fds)
  | .event which status =>
    scan.held[which]?.bind fun (i, _) => scan.fds[i]?.bind fun f =>
      if status &&& f.events = 0 then none
      else some (.value 1, scan.fds.set i { f with revents := status &&& f.events })

def syscallPpoll (fds : List Pollfd) (status : Nat → BitVec 16) (wait : Wait) :
    Option ((Ret × List Pollfd) × State) :=
  if fds.length = 0 then some ((.value 0, fds), s)
  else if maxPpollFds < fds.length then some ((.error .einval, fds), s)
  else
    let (s, scan) := ppollScan H p status s 0 fds
    if scan.ret ≠ 0 then some ((.value scan.ret, scan.fds), releaseHeld s scan.held)
    else (ppollWait scan wait).map fun ret => (ret, releaseHeld s scan.held)

/-! ## Processes -/

/-- The loop of `syscall_fork` over the slots, for `k` slots from `i` on. The flag is false if it is
left for `fail`. -/
def forkLoop (newProc : Nat) (memory : Nat → Bool) : Nat → Nat → State → Bool × State
  | 0, _, s => (true, s)
  | k + 1, i, s =>
    if (s.fds (p, i)).isNone then forkLoop newProc memory k (i + 1) s
    else
      match fdnumDup H s p i newProc i 0 true false (memory i) with
      | (.value _, s) => forkLoop newProc memory k (i + 1) s
      | (_, s) => (false, s)

/-- The new process has no descriptors. -/
def State.addProcess (a : Nat) : State :=
  { s with
    processes := insert a s.processes
    fds := fun i => if i.1 = a then none else s.fds i }

/-- `free(new_proc)`: the slots are gone, and what they point at stays. -/
def State.freeProcess (a : Nat) : State :=
  { s with
    processes := s.processes.erase a
    fds := fun i => if i.1 = a then none else s.fds i }

/-- `syscall_fork`; `newProc` is what `sched_new_process` returns, and stands for the pid of the
child. A `NULL` is dereferenced if there is nothing to copy and memory for the thread. -/
def syscallFork (newProc : Option Nat) (memory : Nat → Bool) (thread : Bool) :
    Option (Ret × State) :=
  match newProc with
  | none =>
    -- `fdnum_dup` takes the process itself for `NULL`
    match forkLoop H p p memory maxFds 0 s with
    | (true, s) => if thread then none else some (.error .enomem, s)
    | (false, s) => some (.failed, s)
  | some a =>
    match forkLoop H p a memory maxFds 0 (s.addProcess a) with
    | (true, s) => some (if thread then (.value a, s) else (.error .enomem, s.freeProcess a))
    | (false, s) => some (.failed, s.freeProcess a)

/-- `syscall_exec`, which returns if it fails; the descriptors are not touched. -/
def syscallExec (loads : Bool) : Option Ret × State := (if loads then none else some .failed, s)

/-- The loop of `syscall_exit` over the slots. -/
def syscallExit : State := (List.range maxFds).foldl (fun s (n : Nat) => (fdnumClose s p n).2) s

/-! ## Runs -/

inductive Call where
  | openat (dir : Dir) (found : Option Nat) (flags : BitVec 32) (memory : Option Nat)
  | read (fdnum ret : Int)
  | write (fdnum ret : Int)
  | seek (fdnum offset : Int) (whence : Whence) (stSize : Option Int)
  | ioctl (fdnum : Int) (ret : Ret)
  | fcntl (fdnum : Int) (request : Request) (arg : BitVec 64) (memory : Bool)
  | dup3 (oldFdnum newFdnum : Int) (flags : BitVec 32) (memory : Bool)
  | ppoll (fds : List Pollfd) (status : Nat → BitVec 16) (wait : Wait)
  | socket (type : BitVec 32) (sock : Option Nat) (memory : Option Nat)
  | pipe (flags rdonly wronly : BitVec 32) (pipe : Option Nat) (memory memory' : Option Nat)
  | fork (newProc : Option Nat) (memory : Nat → Bool) (thread : Bool)
  | exec (loads : Bool)
  | exit
  | close (fdnum : Int)

/-- What a call returns to the process. -/
inductive Result where
  | ret (r : Ret)
  | pipe (r : PipeRet)
  | ppoll (r : Ret) (fds : List Pollfd)
  /-- The call does not return. -/
  | none
  deriving DecidableEq, Repr

/-- The addresses that `ALLOC` returns for descriptions. -/
def Call.addresses : Call → List Nat
  | .openat _ _ _ memory => memory.toList
  | .socket _ _ memory => memory.toList
  | .pipe _ _ _ _ memory memory' => memory.toList ++ memory'.toList
  | _ => []

/-- The address of the process that a call makes. -/
def Call.process : Call → Option Nat
  | .fork newProc _ _ => newProc
  | _ => none

/-- `ALLOC` returns memory that is not in use. -/
def Call.Fresh (c : Call) : Prop :=
  (∀ d ∈ c.addresses, s.live d = false) ∧ c.addresses.Nodup ∧ ∀ a ∈ c.process, a ∉ s.processes

instance (c : Call) : Decidable (c.Fresh s) := by
  unfold Call.Fresh
  infer_instance

/-- A call of a process. -/
def next : Call → Option (Result × State)
  | .openat dir found flags memory =>
    (syscallOpenat H s p dir found flags memory).map fun (r, s) => (.ret r, s)
  | .read fdnum ret => let (r, s) := syscallRead s p fdnum ret; some (.ret r, s)
  | .write fdnum ret => let (r, s) := syscallWrite s p fdnum ret; some (.ret r, s)
  | .seek fdnum offset whence stSize =>
    let (r, s) := syscallSeek s p fdnum offset whence stSize; some (.ret r, s)
  | .ioctl fdnum ret => let (r, s) := syscallIoctl s p fdnum ret; some (.ret r, s)
  | .fcntl fdnum request arg memory =>
    let (r, s) := syscallFcntl H s p fdnum request arg memory; some (.ret r, s)
  | .dup3 oldFdnum newFdnum flags memory =>
    let (r, s) := syscallDup3 H s p oldFdnum newFdnum flags memory; some (.ret r, s)
  | .ppoll fds status wait =>
    (syscallPpoll H s p fds status wait).map fun ((r, fds), s) => (.ppoll r fds, s)
  | .socket type sock memory =>
    let (r, s) := syscallSocket H s p type sock memory; some (.ret r, s)
  | .pipe flags rdonly wronly pipe memory memory' =>
    let (r, s) := syscallPipe H s p flags rdonly wronly pipe memory memory'; some (.pipe r, s)
  | .fork newProc memory thread =>
    (syscallFork H s p newProc memory thread).map fun (r, s) => (.ret r, s)
  | .exec loads =>
    let (r, s) := syscallExec s loads; some (r.elim .none .ret, s)
  | .exit => some (.none, syscallExit s p)
  | .close fdnum => let (r, s) := syscallClose s p fdnum; some (.ret r, s)

/-- The first process, with the console at 0, 1 and 2. -/
def boot (console : Nat) : State :=
  [0, 1, 2].foldl (fun s (n : Nat) => (fdnumCreateFromResource H s 0 console 0 n true (some n)).2)
    ⟨{0}, fun _ => none, fun _ => ⟨0, 0, 0, 0⟩, fun _ => false⟩

end Lyre.Descriptors
