import Lyre.Lib.Resource

/-!
# Calls that make descriptors

`syscall_pipe`, `syscall_openat`, `syscall_socket` and `syscall_socketpair` with the resources behind
the descriptors. All of them take a reference of the resource first, and look for a slot then.

A resource is named by its address. Addresses that `ALLOC` returns are arguments, and so are what
`fs/vfs/vfs.c` finds or makes, and the sockets that are made. A function has no result where the
kernel panics or goes through `NULL`.
-/

namespace Lyre.NewDescriptors

open Descriptors

/-- The constants of `fcntl.h` that the calls look at themselves. -/
structure Modes where
  rdonly : BitVec 32
  wronly : BitVec 32
  rdwr : BitVec 32
  trunc : BitVec 32

structure Resource where
  refcount : Nat
  /-- `ref` is `pipe_ref`. -/
  isPipe : Bool
  readerCount : Nat
  writerCount : Nat
  /-- `S_ISREG(stat.st_mode)`. -/
  isReg : Bool
  /-- `stat.st_size`. -/
  size : Nat
  /-- The address is in use. -/
  live : Bool
  deriving DecidableEq, Repr

structure State where
  files : Descriptors.State
  res : Nat → Resource
  /-- The user's array. -/
  fds : Int × Int

/-- What `pipe_create` and `socket_create` make. -/
def Resource.pipe : Resource := ⟨0, true, 0, 0, false, 0, true⟩
def Resource.socket : Resource := ⟨0, false, 0, 0, false, 0, true⟩

/-- What the `create` of a file system makes; some of them start with a reference. -/
def Resource.file (refcount : Nat) : Resource := ⟨refcount, false, 0, 0, true, 0, true⟩

variable (H : Headers) (M : Modes) (s : State) (p : Nat)

def State.setRes (r : Nat) (v : Resource) : State := { s with res := Function.update s.res r v }

def State.free (r : Nat) : State := s.setRes r { s.res r with live := false }

/-- `truncate(res, description, 0)`. -/
def State.truncate (r : Nat) : State := s.setRes r { s.res r with size := 0 }

/-- `pipe_ref`, with its assertion. -/
def pipeRef (r : Nat) (flags : BitVec 32) : Option State :=
  if flags &&& M.rdwr ≠ 0 then none
  else
    let v := s.res r
    let v :=
      if flags &&& M.wronly ≠ 0 then { v with writerCount := v.writerCount + 1 }
      else { v with readerCount := v.readerCount + 1 }
    some (s.setRes r { v with refcount := v.refcount + 1 })

/-- `stub_ref`. -/
def stubRef (r : Nat) : State := s.setRes r { s.res r with refcount := (s.res r).refcount + 1 }

/-- `res->ref(res, description)`; `flags` are those of the description. -/
def ref (r : Nat) (flags : BitVec 32) : Option State :=
  if (s.res r).isPipe then pipeRef M s r flags else some (stubRef s r)

/-! ## Descriptors -/

/-- The descriptor is `NULL` without memory for it. -/
def fdCreateFromResource (r : Nat) (flags : BitVec 32) (memory : Option Nat) :
    Option (Option Descriptor × State) :=
  match Descriptors.fdCreateFromResource H s.files r flags memory with
  | none => some (none, s)
  | some (fd, files) =>
    (ref M { s with files } r (flags &&& H.fileStatusFlagsMask)).map fun s => (some fd, s)

/-- `fdnum_create_from_fd(proc, fd, 0, false)`. -/
def fdnumCreateFromFd (fd : Descriptor) : Ret × State :=
  let (r, files) := Descriptors.fdnumCreateFromFd s.files p fd 0 false
  (r, { s with files })

/-- `fdnum_create_from_resource(proc, res, flags, 0, false)`. -/
def fdnumCreateFromResource (r : Nat) (flags : BitVec 32) (memory : Option Nat) :
    Option (Ret × State) :=
  (fdCreateFromResource H M s r flags memory).map fun
    | (none, s) => (.failed, s)
    | (some fd, s) => fdnumCreateFromFd s p fd

/-- The number that is returned. -/
def toInt : Ret → Int
  | .value n => n
  | _ => -1

/-! ## The calls -/

/-- The second half of `syscall_pipe`, with `readFd` in its slot. -/
def syscallPipeWrite (flags : BitVec 32) (pipe : Nat) (readFd : Int) (memory' : Option Nat) :
    Option (Int × State) :=
  match fdnumCreateFromResource H M s p pipe (flags ||| M.wronly) memory' with
  | none => none
  | some (.value writeFd, s) => some (0, { s with fds := (readFd, writeFd) })
  | some (_, s) => some (-1, s.free pipe)

def syscallPipe (flags : BitVec 32) (pipe memory memory' : Option Nat) : Option (Int × State) :=
  match pipe with
  | none => some (-1, s)
  | some pipe =>
    match fdnumCreateFromResource H M (s.setRes pipe .pipe) p pipe (flags ||| M.rdonly) memory with
    | none => none
    | some (.value readFd, s) => syscallPipeWrite H M s p flags pipe readFd memory'
    | some (_, s) => some (-1, s.free pipe)

/-- The end of `syscall_openat`, once there is a node that may be opened. -/
def openNode (r : Nat) (flags : BitVec 32) (memory : Option Nat) : Option (Int × State) :=
  match fdCreateFromResource H M s r flags memory with
  | none => none
  | some (none, s) => some (-1, s)
  | some (some fd, s) =>
    let s := if flags &&& M.trunc ≠ 0 ∧ (s.res r).isReg then s.truncate r else s
    let (ret, s) := fdnumCreateFromFd s p fd
    some (toInt ret, s)

/-- What `syscall_openat` comes to: no node, or one that may not be opened; a node that was there; or
one that `vfs_create` has made. -/
inductive Found where
  | nothing
  | existing (r : Nat)
  | created (r refcount : Nat)
  deriving DecidableEq, Repr

def syscallOpenat (dir : Dir) (found : Found) (flags : BitVec 32) (memory : Option Nat) :
    Option (Int × State) :=
  match getParentDir s.files p dir with
  | none => none
  | some files =>
    match found with
    | .nothing => some (-1, { s with files })
    | .existing r => openNode H M { s with files } p r flags memory
    | .created r refcount =>
      openNode H M ({ s with files }.setRes r (.file refcount)) p r flags memory

/-- The flags of a socket's descriptor. -/
def socketFlags (type : BitVec 32) : BitVec 32 :=
  let flags := if type &&& H.sockCloexec ≠ 0 then H.oCloexec else 0
  if type &&& H.sockNonblock ≠ 0 then flags ||| H.oNonblock else flags

def syscallSocket (type : BitVec 32) (sock memory : Option Nat) : Option (Int × State) :=
  match sock with
  | none => some (-1, s)
  | some sock =>
    match fdnumCreateFromResource H M (s.setRes sock .socket) p sock (socketFlags H type) memory with
    | none => none
    | some (.value n, s) => some (n, s)
    | some (_, s) => some (-1, s.free sock)

/-- `unix` says that the domain is `AF_UNIX`. The sockets are used before anything is checked. -/
def syscallSocketpair (unix : Bool) (type : BitVec 32) (sock0 sock1 memory memory' : Option Nat) :
    Option (Int × State) :=
  if unix = false then some (-1, s)
  else
    match sock0, sock1 with
    | some sock0, some sock1 =>
      match fdnumCreateFromResource H M ((s.setRes sock0 .socket).setRes sock1 .socket) p sock0
          (socketFlags H type) memory with
      | none => none
      | some (r, s) =>
        (fdnumCreateFromResource H M s p sock1 (socketFlags H type) memory').map fun (r', s) =>
          (0, { s with fds := (toInt r, toInt r') })
    | _, _ => none

inductive Call where
  | pipe (flags : BitVec 32) (addr memory memory' : Option Nat)
  | openat (dir : Dir) (found : Found) (flags : BitVec 32) (memory : Option Nat)
  | socket (type : BitVec 32) (sock memory : Option Nat)
  | socketpair (unix : Bool) (type : BitVec 32) (sock0 sock1 memory memory' : Option Nat)

def Call.run : Call → Option (Int × State)
  | .pipe flags addr memory memory' => syscallPipe H M s p flags addr memory memory'
  | .openat dir found flags memory => syscallOpenat H M s p dir found flags memory
  | .socket type sock memory => syscallSocket H M s p type sock memory
  | .socketpair unix type sock0 sock1 memory memory' =>
    syscallSocketpair H M s p unix type sock0 sock1 memory memory'

/-- The addresses of the resources that a call makes. -/
def Call.resources : Call → List Nat
  | .pipe _ addr _ _ => addr.toList
  | .openat _ (.created r _) _ _ => [r]
  | .openat _ _ _ _ => []
  | .socket _ sock _ => sock.toList
  | .socketpair _ _ sock0 sock1 _ _ => sock0.toList ++ sock1.toList

/-- The references that a resource has when it is made. -/
def Call.initialRefs : Call → Nat
  | .openat _ (.created _ refcount) _ _ => refcount
  | _ => 0

/-- The addresses of the descriptions that a call makes. -/
def Call.descriptions : Call → List Nat
  | .pipe _ _ memory memory' => memory.toList ++ memory'.toList
  | .openat _ _ _ memory => memory.toList
  | .socket _ _ memory => memory.toList
  | .socketpair _ _ _ _ memory memory' => memory.toList ++ memory'.toList

end Lyre.NewDescriptors
