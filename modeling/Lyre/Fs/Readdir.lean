import Lyre.Infra.Bytes
import Lyre.Lib.Errno
import Lyre.Lib.Hashmap

/-!
# `syscall_readdir` of `fs/vfs/vfs.c`

`struct dirent` comes from the C library. How it is laid out is a parameter; that it ends with the
1024 bytes of `d_name` is what the kernel counts on.

The buffer is memory from address 0 on. Of a child only what is copied from it matters: its own name,
and the inode number and the type of the node that `reduce_node` makes of it.
-/

namespace Lyre.Readdir

open Infra.Bytes

/-- Where the fields of `struct dirent` are. They do not overlap. -/
structure DirentLayout where
  size : Nat
  dIno : Nat
  dOff : Nat
  dReclen : Nat
  dReclenBytes : Nat
  dType : Nat
  dName : Nat
  name_le : dName + 1024 ≤ size
  ino_le : dIno + 8 ≤ dName
  off_le : dOff + 8 ≤ dName
  reclen_le : dReclen + dReclenBytes ≤ dName
  type_le : dType + 1 ≤ dName
  off_apart : Apart dOff 8 dReclen dReclenBytes
  type_apart : Apart dType 1 dReclen dReclenBytes

/-- A child of the directory. The name is a C string. -/
structure Child where
  name : Key
  nul_notMem : (0 : BitVec 8) ∉ name
  stIno : Nat
  /-- The `DT_..` constant for `st_mode`, if there is one. -/
  dType : Option Nat

/-- The directory behind a descriptor. -/
structure Directory where
  /-- `S_ISDIR` of the resource. -/
  isDir : Bool
  children : Hashmap Child

variable (L : DirentLayout)

/-- `sizeof(struct dirent) - 1024 + strlen(child->name) + 1`. -/
def recordSize (child : Child) : Nat := L.size - 1024 + child.name.length + 1

/-- One turn of both loops over the buckets. -/
def overChildren {α : Type} (children : Hashmap Child) (step : α → Child → α) (init : α) : α :=
  match children.buckets with
  | none => init
  | some buckets =>
    (List.range children.cap).foldl
      (fun acc i => (buckets i).foldl (fun acc item => step acc item.2) acc) init

/-- The first pass, with the null entry. -/
def entriesLength (children : Hashmap Child) : Nat :=
  overChildren children (fun length child => length + recordSize L child) 0 + (L.size - 1024)

/-- The `switch` over the type. -/
def putType (buffer : Mem) (a : Nat) (dType : Option Nat) : Mem :=
  match dType with
  | some type => write buffer a 1 type
  | none => buffer

/-- One turn of the second pass, on the buffer and `offset`. -/
def putEntry (state : Mem × Nat) (child : Child) : Mem × Nat :=
  let offset := state.2
  let buffer := write state.1 (offset + L.dIno) 8 child.stIno
  let buffer := write buffer (offset + L.dReclen) L.dReclenBytes (recordSize L child)
  let buffer := write buffer (offset + L.dOff) 8 0
  let buffer := putType buffer (offset + L.dType) child.dType
  let buffer := put buffer (offset + L.dName) (child.name.length + 1) fun k => child.name.getD k 0
  -- what has been stored is added
  (buffer, offset + read buffer (offset + L.dReclen) L.dReclenBytes)

inductive Result where
  /-- -1, with `errno` and `*size`. -/
  | failed (errno : Errno) (size : Nat)
  /-- 0, with the buffer. -/
  | done (buffer : Mem)

def syscallReaddir (dirFd : Option Directory) (buffer : Mem) (size : Nat) : Result :=
  match dirFd with
  | none => .failed .ebadf size
  | some dir =>
    if dir.isDir = false then .failed .enotdir size
    else if size < entriesLength L dir.children then .failed .enobufs (entriesLength L dir.children)
    else
      let (buffer, offset) := overChildren dir.children (putEntry L) (buffer, 0)
      .done (write buffer (offset + L.dReclen) L.dReclenBytes 0)

end Lyre.Readdir
