import Lyre.Infra.Rows
import Lyre.Mm.Mmap

/-!
# `lib/elf.c`: the loader

The file is given by what `read` of its resource returns. A segment gets pages of its own, which
are mapped with `mmap_range`; its bytes are then read into them through the kernel's own view of
the memory, where a pointer `phys + VMM_HIGHER_HALF` is named by `phys`.
-/

namespace Lyre.Elf

open Mmap

/-! ## The file -/

structure Ehdr where
  /-- `e_ident`. -/
  ident : List Nat
  machine : Nat
  entry : Nat
  phoff : Nat
  phentsize : Nat
  phnum : Nat

structure Phdr where
  type : Nat
  flags : Nat
  vaddr : Nat
  offset : Nat
  filesz : Nat
  memsz : Nat
  deriving DecidableEq

/-- What `read` returns: the header, the program header at an offset, and for an offset and a count
the number of bytes that are read, and the bytes. -/
structure File where
  header : Option Ehdr
  phdr : Nat → Option Phdr
  read : Nat → Nat → Option (Nat × (Nat → BitVec 8))

structure Auxval where
  atEntry : Nat
  atPhdr : Nat
  atPhent : Nat
  atPhnum : Nat
  deriving DecidableEq

def elfMag : List Nat := [0x7f, 0x45, 0x4c, 0x46]
def eiClass : Nat := 4
def eiData : Nat := 5
def eiOsabi : Nat := 7
def elfClass64 : Nat := 2
def elfData2Lsb : Nat := 1
def emX8664 : Nat := 62
def ptLoad : Nat := 1
def ptInterp : Nat := 3
def ptPhdr : Nat := 6
def pfX : Nat := 1
def pfW : Nat := 2

/-- The tests that end in `ENOEXEC`. -/
def Ehdr.executable (h : Ehdr) : Bool :=
  h.ident.take 4 == elfMag && h.ident[eiClass]? == some elfClass64
    && h.ident[eiData]? == some elfData2Lsb && h.ident[eiOsabi]? == some 0
    && h.machine == emX8664

/-- `PROT_READ`, and the rest as the segment has it. -/
def Phdr.prot (p : Phdr) : Prot := ⟨p.flags &&& pfW != 0, p.flags &&& pfX != 0, 1⟩

/-- `MAP_ANONYMOUS` alone. -/
def anonymous : MapFlags := ⟨false, false, true, 0⟩

/-! ## `elf_load` -/

/-- What the loop carries: the auxiliary values, and the segment that `*ld_path` was read from. -/
abbrev Loaded := Auxval × Option Phdr

section

variable {σ : Type} (A : RunAllocator σ)

/-- `read` of a resource, into memory at `phys`. -/
def readInto (s : State σ) (file : File) (phys offset count : Nat) : Bool × State σ :=
  match file.read offset count with
  | none => (false, s)
  | some (n, bytes) =>
    (true, { s with
      vm := { s.vm with mem := Infra.Rows.store pageSize s.vm.mem phys n bytes } })

/-- `PT_LOAD`. -/
def loadSegment (s : State σ) (pagemap : Option Nat) (file : File) (loadBase : Nat) (phdr : Phdr) :
    Option (Bool × State σ) :=
  let misalign := phdr.vaddr % pageSize
  let pageCount := divRoundup (u64 (phdr.memsz + misalign)) pageSize
  match pmmAllocRun A s pageCount with
  | (none, s) => some (false, s)
  | (some phys, s) =>
    match mmapRange A s pagemap (u64 (phdr.vaddr + loadBase)) phys
        (u64 (pageCount * pageSize)) phdr.prot anonymous with
    | none => none
    | some (false, s) => some (false, pmmFreeRun A s phys pageCount)
    | some (true, s) => some (readInto s file (phys + misalign) phdr.offset phdr.filesz)

/-- One turn of the loop over the program headers; the flag is false if it is left for `fail`. -/
def loadPhdr (s : State σ) (pagemap : Option Nat) (file : File) (loadBase : Nat) (phdr : Phdr)
    (acc : Loaded) : Option (Option Loaded × State σ) :=
  if phdr.type = ptLoad then
    (loadSegment A s pagemap file loadBase phdr).map fun (ok, s) =>
      (if ok then some acc else none, s)
  else if phdr.type = ptPhdr then
    some (some ({ acc.1 with atPhdr := u64 (phdr.vaddr + loadBase) }, acc.2), s)
  else if phdr.type = ptInterp then
    match heapAlloc s with
    | (none, s) => some (none, s)
    | (some _, s) =>
      some (if (file.read phdr.offset phdr.filesz).isSome then some (acc.1, some phdr) else none, s)
  else some (some acc, s)

/-- The loop, for `k` program headers from `i` on. -/
def loadPhdrs (pagemap : Option Nat) (file : File) (h : Ehdr) (loadBase : Nat) :
    Nat → Nat → Loaded → State σ → Option (Option Loaded × State σ)
  | 0, _, acc, s => some (some acc, s)
  | k + 1, i, acc, s =>
    match file.phdr (u64 (h.phoff + i * h.phentsize)) with
    | none => some (none, s)
    | some phdr =>
      match loadPhdr A s pagemap file loadBase phdr acc with
      | none => none
      | some (none, s) => some (none, s)
      | some (some acc, s) => loadPhdrs pagemap file h loadBase k (i + 1) acc s

def elfLoad (s : State σ) (pagemap : Option Nat) (file : File) (loadBase : Nat) :
    Option (Option Loaded × State σ) :=
  match file.header with
  | none => some (none, s)
  | some h =>
    if h.executable then
      (loadPhdrs A pagemap file h loadBase h.phnum 0 (⟨0, 0, 0, 0⟩, none) s).map fun (r, s) =>
        (r.map fun (auxv, ldPath) =>
          ({ auxv with
              atEntry := u64 (h.entry + loadBase)
              atPhent := h.phentsize
              atPhnum := h.phnum }, ldPath), s)
    else some (none, setErrno s .enoexec)

end

end Lyre.Elf
