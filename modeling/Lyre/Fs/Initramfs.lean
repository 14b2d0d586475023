import Lyre.Infra.Bytes
import Lyre.Lib.Misc

/-!
# `fs/initramfs.c`

The archive is in memory. What the VFS makes of a file, a link or a directory is a function of its
own, without a result where `initramfs_init` panics. The pages that are given back are listed; what
becomes of them afterwards, and addresses beyond 64 bits, are not modelled.
-/

namespace Lyre.Initramfs

open Infra.Bytes

/-- What is handed to the VFS. The mode is the one of the header, to which `S_IFREG` or `S_IFDIR` is
added. -/
inductive Body
  | file (mode : BitVec 64) (data : List (BitVec 8))
  | link (target : List (BitVec 8))
  | dir (mode : BitVec 64)

structure Entry where
  name : List (BitVec 8)
  mtime : BitVec 64
  body : Body

/-- `oct2int`. A `char` has a sign. -/
def oct2int (m : Mem) : Nat → Nat → BitVec 64 → BitVec 64
  | _, 0, value => value
  | str, len + 1, value =>
    if m str = 0 then value else oct2int m (str + 1) len (value * 8 + ((m str).signExtend 64 - 0x30))

def stringLoop (m : Mem) : Nat → Nat → List (BitVec 8)
  | 0, _ => []
  | left + 1, str => if m str = 0 then [] else m str :: stringLoop m left (str + 1)

/-- The string at an address. -/
def string (m : Mem) (str : Nat) : List (BitVec 8) := stringLoop m (2 ^ 64) str

/-- `strncmp(current_file->magic, "ustar", 5) == 0`. -/
def Ustar (m : Mem) (file : Nat) : Prop := ∀ k < 5, m (file + 257 + k) = [0x75, 0x73, 0x74, 0x61, 0x72].getD k 0

instance (m : Mem) (file : Nat) : Decidable (Ustar m file) := inferInstanceAs (Decidable (∀ _, _))

/-- `strcmp(name, "./") == 0`. -/
def Here (m : Mem) (name : Nat) : Prop := m name = 0x2e ∧ m (name + 1) = 0x2f ∧ m (name + 2) = 0

instance (m : Mem) (name : Nat) : Decidable (Here m name) := inferInstanceAs (Decidable (_ ∧ _))

/-- The bytes of a file, with its header. -/
def recordSize (size : Nat) : Nat := 512 + alignUp size 512

structure State (σ : Type) where
  mem : Mem
  currentFile : Nat
  nameOverride : Option Nat
  vfs : σ
  /-- Addresses and numbers of pages, as `pmm_free` gets them. -/
  freed : List (Nat × Nat)

variable {σ : Type}

/-- The end of a turn of the loop. -/
def State.next (s : State σ) (size : Nat) (mem : Mem) (nameOverride : Option Nat) (vfs : σ) : State σ where
  mem := mem
  currentFile := s.currentFile + recordSize size
  nameOverride := nameOverride
  vfs := vfs
  freed := s.freed ++ [(s.currentFile, recordSize size / pageSize)]

/-- A turn of the loop behind the look at the name. -/
def turn (call : σ → Entry → Option σ) (s : State σ) : Option (State σ) :=
  let file := s.currentFile
  let name := string s.mem (s.nameOverride.getD file)
  let mode := oct2int s.mem (file + 100) 8 0
  let size := (oct2int s.mem (file + 124) 12 0).toNat
  let mtime := oct2int s.mem (file + 136) 12 0
  let made := fun body => (call s.vfs ⟨name, mtime, body⟩).map (s.next size s.mem none)
  let type := s.mem (file + 156)
  if type = 0x30 then made (.file mode ((List.range size).map fun k => s.mem (file + 512 + k)))
  else if type = 0x32 then made (.link (string s.mem (file + 157)))
  else if type = 0x35 then made (.dir mode)
  else if type = 0x4c then
    some (s.next size (Function.update s.mem (file + 512 + size) 0) (some (file + 512)) s.vfs)
  else some (s.next size s.mem none s.vfs)

/-- The loop of `initramfs_init`. A file of the name `./` is looked at again and again. -/
def unpackLoop (call : σ → Entry → Option σ) : Nat → State σ → Option (State σ)
  | 0, _ => none
  | fuel + 1, s =>
    if Ustar s.mem s.currentFile then
      if Here s.mem (s.nameOverride.getD s.currentFile) then
        unpackLoop call fuel { s with nameOverride := none }
      else (turn call s).bind (unpackLoop call fuel)
    else some s

end Lyre.Initramfs
