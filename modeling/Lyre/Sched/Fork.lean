import Lyre.Lib.Elf
import Lyre.Lib.Resource
import Lyre.Mm.Fork
import Lyre.Sched.Process

/-!
# `syscall_fork` and `syscall_exec`

The two calls go through the table of processes, the descriptors and the mappings, each of which
has a model of its own. `State` holds the three, and the fields of `struct process` that none of
them has. Processes and threads are numbered by the kernel heap, like the ranges of a mapping, so
that whether an allocation succeeds depends on the state alone.

What the registers and the stacks of a new thread hold is left out.
-/

namespace Lyre.Sched

open Mmap

/-- The fields of `struct process` that a call sets up for a new program. A pagemap that is `NULL` is
`none`. -/
structure Image where
  pagemap : Option Nat
  threadStackTop : Nat
  mmapAnonBase : Nat
  threads : List Nat
  cwd : Nat
  umask : Nat
  deriving DecidableEq, Repr

structure State (σ : Type) where
  procs : Procs.State
  files : Descriptors.State
  mm : Mmap.State σ
  image : Nat → Image
  vfsRoot : Nat
  kernelProcess : Nat
  /-- `process` of a thread. -/
  process : Nat → Nat

/-- `STACK_SIZE`. -/
def stackSize : Nat := 0x40000

section

variable {σ : Type} (A : RunAllocator σ) (H : Descriptors.Headers) (fuel fpuPages : Nat)

def State.setImage (s : State σ) (a : Nat) (v : Image) : State σ :=
  { s with image := Function.update s.image a v }

/-! ## Processes -/

/-- `sched_new_process` once there is an address space. -/
def addProcess (s : State σ) (oldProc : Option Nat) (a : Nat) (v : Image) : State σ :=
  { s.setImage a v with
    procs := Procs.schedNewProcess s.procs oldProc a
    files := s.files.addProcess a }

/-- The pagemap is the kernel's if there is no old process, and copied otherwise. -/
def schedNewProcess (s : State σ) (oldProc : Option Nat) (pagemap : Nat) :
    Option (Option Nat × State σ) :=
  match heapAlloc s.mm with
  | (none, mm) => some (none, { s with mm := setErrno mm .enomem })
  | (some a, mm) =>
    match oldProc with
    | none =>
      some (some a, addProcess { s with mm } none a
        { pagemap := some pagemap, threadStackTop := 0x70000000000, mmapAnonBase := 0x80000000000
          threads := [], cwd := s.vfsRoot, umask := 0o022 })
    | some old =>
      match (s.image old).pagemap with
      | none => none
      | some pagemap =>
        match vmmForkPagemap A.toPageAllocator fuel mm pagemap with
        | none => none
        | some (none, mm) => some (none, { s with mm })
        | some (some newPagemap, mm) =>
          some (some a, addProcess { s with mm } (some old) a
            { s.image old with pagemap := some newPagemap, threads := [] })

/-- `free(new_proc)`. What is in its memory then is arbitrary. -/
def freeProcess (s : State σ) (newProc : Option Nat) (garbage : Procs.Process) : State σ :=
  match newProc with
  | none => s
  | some a =>
    { s with
      procs := Procs.forkFail s.procs a garbage
      files := s.files.freeProcess a }

/-! ## `syscall_fork` -/

/-- `res->ref` of the resource behind a description. -/
def refResource (mm : Mmap.State σ) (res : Nat) : Mmap.State σ :=
  { mm with refcount := Function.update mm.refcount res (mm.refcount res + 1) }

/-- `fdnum_dup(proc, i, new_proc, i, 0, true, false)`, with the memory for the new descriptor and the
count of the resource. -/
def forkFd (s : State σ) (p newProc i : Nat) (fd : Descriptors.Descriptor) : Bool × State σ :=
  let (memory, mm) := heapAlloc s.mm
  match Descriptors.fdnumDup H s.files p i newProc i 0 true false memory.isSome with
  | (.value _, files) =>
    (true, { s with files, mm := refResource mm (s.files.description fd.description).res })
  | (.error .einval, _) => (false, { s with mm := setErrno s.mm .einval })
  | (_, files) => (false, { s with files, mm := setErrno mm .enomem })

/-- The loop over the slots, for `k` slots from `i` on. -/
def forkFds (p newProc : Nat) : Nat → Nat → State σ → Bool × State σ
  | 0, _, s => (true, s)
  | k + 1, i, s =>
    match s.files.fds (p, i) with
    | none => forkFds p newProc k (i + 1) s
    | some fd =>
      match forkFd H s p newProc i fd with
      | (true, s) => forkFds p newProc k (i + 1) s
      | (false, s) => (false, s)

/-- The thread of the child. The results of `pmm_alloc` are not looked at. -/
def forkThread (s : State σ) (a thread : Nat) : State σ :=
  let (_, mm) := pmmAllocRun A s.mm (stackSize / pageSize)
  let (_, mm) := pmmAllocRun A mm (stackSize / pageSize)
  let (_, mm) := pmmAllocRun A mm fpuPages
  { s.setImage a { s.image a with threads := (s.image a).threads ++ [thread] } with
    mm
    process := Function.update s.process thread a }

/-- `syscall_fork` of the process `p`; `none` where the kernel faults or panics. -/
def syscallFork (s : State σ) (p : Nat) (garbage : Procs.Process) : Option (Int × State σ) :=
  match schedNewProcess A fuel s (some p) 0 with
  | none => none
  | some (newProc, s) =>
    -- `fdnum_dup` takes the process itself for `NULL`
    match forkFds H p (newProc.getD p) Descriptors.maxFds 0 s with
    | (false, s) => some (-1, freeProcess s newProc garbage)
    | (true, s) =>
      match heapAlloc s.mm with
      | (none, mm) => some (-1, freeProcess { s with mm := setErrno mm .enomem } newProc garbage)
      | (some thread, mm) =>
        newProc.map fun a =>
          let s := forkThread A fpuPages { s with mm } a thread
          ((s.procs.proc a).pid, s)

/-! ## `syscall_exec` -/

/-- The stack of a new thread, unless its caller has one. -/
def threadStack (s : State σ) (p : Nat) (sp : Option Nat) : Option (Bool × State σ) :=
  match sp with
  | some _ => some (true, s)
  | none =>
    match pmmAllocRun A s.mm (stackSize / pageSize) with
    | (none, mm) => some (false, { s with mm := setErrno mm .enomem })
    | (some stackPhys, mm) =>
      let v := s.image p
      match mmapRange A mm v.pagemap (sub64 v.threadStackTop stackSize) stackPhys stackSize
          ⟨true, false, 1⟩ Elf.anonymous with
      | none => none
      | some (false, mm) =>
        some (false, { s with mm := pmmFreeRun A mm stackPhys (stackSize / pageSize) })
      | some (true, mm) =>
        some (true, { s with mm }.setImage p
          { v with threadStackTop := sub64 v.threadStackTop (stackSize - pageSize) })

def schedNewUserThread (s : State σ) (p : Nat) (sp : Option Nat) :
    Option (Option Nat × State σ) :=
  match heapAlloc s.mm with
  | (none, mm) => some (none, { s with mm := setErrno mm .enomem })
  | (some thread, mm) =>
    match threadStack A { s with mm } p sp with
    | none => none
    | some (false, s) => some (none, s)
    -- the stacks for the kernel are those of the thread of a child
    | some (true, s) => some (some thread, forkThread A fpuPages s p thread)

/-- The two files are loaded. `node` is what is found under the path, and `ldNode` what is found under
the path in a segment, or under an arbitrary one if there is no such segment. -/
def execLoad (s : State σ) (newPagemap : Option Nat) (node : Option Elf.File)
    (ldNode : Option Elf.Phdr → Option Elf.File) : Option (Bool × State σ) :=
  match node with
  | none => some (false, s)
  | some file =>
    match Elf.elfLoad A s.mm newPagemap file 0 with
    | none => none
    | some (none, mm) => some (false, { s with mm })
    | some (some (_, ldPath), mm) =>
      match ldNode ldPath with
      | none => some (false, { s with mm })
      | some ld =>
        (Elf.elfLoad A mm newPagemap ld 0x40000000).map fun (r, mm) => (r.isSome, { s with mm })

/-- The process gets the new pagemap, and a thread. -/
def execReplace (s : State σ) (p : Nat) (newPagemap : Option Nat) :
    Option (Option Nat × State σ) :=
  schedNewUserThread A fpuPages
    (s.setImage p { s.image p with
      pagemap := newPagemap
      threadStackTop := 0x70000000000
      mmapAnonBase := 0x80000000000
      threads := [] }) p none

/-- `syscall_exec` of a thread of the process `p`. The call does not return if there is no result. -/
def syscallExec (s : State σ) (p thread : Nat) (node : Option Elf.File)
    (ldNode : Option Elf.Phdr → Option Elf.File) : Option (Option Int × State σ) :=
  let (newPagemap, mm) := newPagemap A.toPageAllocator s.mm
  match execLoad A { s with mm } newPagemap node ldNode with
  | none => none
  | some (false, s) => some (some (-1), s)
  | some (true, s) =>
    match execReplace A fpuPages s p newPagemap with
    | none => none
    | some (none, s') => some (some (-1), s')
    | some (some _, s') =>
      match (s.image p).pagemap with
      | none => none
      | some oldPagemap =>
        (vmmDestroyPagemap A.toPageAllocator fuel s'.mm oldPagemap).map fun mm =>
          (none, { s' with mm, process := Function.update s'.process thread s'.kernelProcess })

end

end Lyre.Sched
