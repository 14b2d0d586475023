import Lyre.Infra.Radix
import Lyre.Lib.Errno
import Lyre.Lib.Misc
import Lyre.Spec.PageAllocator

/-!
# `mm/vmm.c`: four-level page tables

Physical memory is a function from page addresses to rows of 512 words: a table pointer
`phys + VMM_HIGHER_HALF` is named by `phys`, and `table[idx]` is `mem table idx`. Table pages
come from a `PageAllocator`.

Every function that looks at an address goes down three levels with `get_next_level` and then
uses an entry of the last table; `walkLevels` is that common part. `tlb_shootdown` and the
spinlocks have no counterpart.
-/

namespace Lyre.Vmm

/-! ## Page table entries -/

def ptePresent : Nat := 1 <<< 0
def pteWritable : Nat := 1 <<< 1
def pteUser : Nat := 1 <<< 2
def pteNx : Nat := 1 <<< 63

def pteAddrMask : Nat := 0x000ffffffffff000

/-- `~PTE_ADDR_MASK` in 64 bits. -/
def pteFlagsMask : Nat := 2 ^ 64 - 1 - pteAddrMask

def pteGetAddr (value : Nat) : Nat := value &&& pteAddrMask
def pteGetFlags (value : Nat) : Nat := value &&& pteFlagsMask

def invalidPhys : Nat := 0xffffffffffffffff

def pml4Entry (virt : Nat) : Nat := (virt &&& (0x1ff <<< 39)) >>> 39
def pml3Entry (virt : Nat) : Nat := (virt &&& (0x1ff <<< 30)) >>> 30
def pml2Entry (virt : Nat) : Nat := (virt &&& (0x1ff <<< 21)) >>> 21
def pml1Entry (virt : Nat) : Nat := (virt &&& (0x1ff <<< 12)) >>> 12

/-- The indices used above the last level. -/
def levels (virt : Nat) : List Nat := [pml4Entry virt, pml3Entry virt, pml2Entry virt]

/-- The table an entry leads to. -/
def nextTable (entry : Nat) : Option Nat :=
  if entry &&& ptePresent ≠ 0 then some (pteGetAddr entry) else none

/-! ## Memory -/

/-- Physical memory, the page allocator and `errno`. -/
structure State (σ : Type) where
  mem : Infra.Radix.Mem Nat Nat Nat
  pmm : σ
  errno : Option Errno

/-- `table[idx] = value`. -/
def store {σ : Type} (s : State σ) (table idx value : Nat) : State σ :=
  { s with mem := Infra.Radix.setEntry s.mem table idx value }

/-- `memset(page, 0, PAGE_SIZE)`. -/
def zeroPage (mem : Infra.Radix.Mem Nat Nat Nat) (page : Nat) : Infra.Radix.Mem Nat Nat Nat :=
  fun t i => if t = page then 0 else mem t i

section

variable {σ : Type} (A : PageAllocator σ)

/-- `pmm_alloc(1)`: a page, zeroed unless it is `NULL`. -/
def pmmAlloc (s : State σ) : Nat × State σ :=
  ((A.alloc s.pmm).1,
    { s with
      pmm := (A.alloc s.pmm).2
      mem := if (A.alloc s.pmm).1 = 0 then s.mem else zeroPage s.mem (A.alloc s.pmm).1 })

/-- `pmm_alloc_nozero(1)`. -/
def pmmAllocNozero (s : State σ) : Nat × State σ :=
  ((A.alloc s.pmm).1, { s with pmm := (A.alloc s.pmm).2 })

/-- `pmm_free(page, 1)`. -/
def pmmFree (s : State σ) (page : Nat) : State σ := { s with pmm := A.free s.pmm page }

/-! ## Walking the tables -/

def getNextLevel (s : State σ) (topLevel idx : Nat) (allocate : Bool) :
    Option Nat × State σ :=
  match nextTable (s.mem topLevel idx) with
  | some table => (some table, s)
  | none =>
    if allocate = false then (none, s)
    else
      let (page, s) := pmmAlloc A s
      if page = 0 then (none, { s with errno := some .enomem })
      else (some page, store s topLevel idx (page ||| ptePresent ||| pteWritable ||| pteUser))

/-- `get_next_level` along a path, as long as it does not return `NULL`. -/
def walkLevels (allocate : Bool) : State σ → Nat → List Nat → Option Nat × State σ
  | s, table, [] => (some table, s)
  | s, table, idx :: path =>
    match getNextLevel A s table idx allocate with
    | (none, s) => (none, s)
    | (some table, s) => walkLevels allocate s table path

def vmmMapPage (s : State σ) (topLevel virt phys flags : Nat) : Bool × State σ :=
  match walkLevels A true s topLevel (levels virt) with
  | (none, s) => (false, s)
  | (some pml1, s) =>
    if s.mem pml1 (pml1Entry virt) &&& ptePresent ≠ 0 then
      (false, { s with errno := some .einval })
    else
      (true, store s pml1 (pml1Entry virt) (phys ||| flags))

def vmmFlagPage (s : State σ) (topLevel virt flags : Nat) : Bool × State σ :=
  match walkLevels A false s topLevel (levels virt) with
  | (none, s) => (false, s)
  | (some pml1, s) =>
    if s.mem pml1 (pml1Entry virt) &&& ptePresent = 0 then
      (false, { s with errno := some .einval })
    else
      (true, store s pml1 (pml1Entry virt) (pteGetAddr (s.mem pml1 (pml1Entry virt)) ||| flags))

def vmmUnmapPage (s : State σ) (topLevel virt : Nat) : Bool × State σ :=
  match walkLevels A false s topLevel (levels virt) with
  | (none, s) => (false, s)
  | (some pml1, s) =>
    if s.mem pml1 (pml1Entry virt) &&& ptePresent = 0 then
      (false, { s with errno := some .einval })
    else (true, store s pml1 (pml1Entry virt) 0)

/-- The result is the pointer `&pml1[pml1_entry]`, as table and index. -/
def vmmVirt2pte (s : State σ) (topLevel virt : Nat) (allocate : Bool) :
    Option (Nat × Nat) × State σ :=
  match walkLevels A allocate s topLevel (levels virt) with
  | (none, s) => (none, s)
  | (some pml1, s) => (some (pml1, pml1Entry virt), s)

def vmmVirt2phys (s : State σ) (topLevel virt : Nat) : Nat :=
  match (vmmVirt2pte A s topLevel virt false).1 with
  | none => invalidPhys
  | some (pml1, idx) =>
    if pteGetFlags (s.mem pml1 idx) &&& ptePresent = 0 then invalidPhys
    else pteGetAddr (s.mem pml1 idx)

/-! ## New pagemaps -/

/-- Copies the upper half of the kernel's top level. -/
def copyUpper (mem : Infra.Radix.Mem Nat Nat Nat) (kernel topLevel : Nat) :
    Infra.Radix.Mem Nat Nat Nat :=
  fun t i => if t = topLevel ∧ 256 ≤ i ∧ i < 512 then mem kernel i else mem t i

/--
`vmm_new_pagemap` without the `struct pagemap` around it: the new top level page, or `NULL`.
`kernel` is `vmm_kernel_pagemap->top_level`.
-/
def vmmNewPagemap (s : State σ) (kernel : Nat) : Option Nat × State σ :=
  let (page, s) := pmmAlloc A s
  if page = 0 then (none, { s with errno := some .enomem })
  else (some page, { s with mem := copyUpper s.mem kernel page })

end

end Lyre.Vmm

/-!
## `vmm_init`: the kernel's pagemap

The kernel's top level gets a table behind each of its upper entries before anything else, so that
`vmm_new_pagemap` can copy them. What is then mapped comes from the linker script and from the boot
loader: the sections of the kernel, the first four gigabytes and the memory map.

A failed `ASSERT` stops the machine and has no result. The interrupt vector for TLB shootdowns and
the switch to the new pagemap have no counterpart.
-/

namespace Lyre.Vmm

/-- What the boot loader and the linker script tell `vmm_init`. -/
structure BootInfo where
  /-- `VMM_HIGHER_HALF`. -/
  higherHalf : Nat
  text : Nat × Nat
  rodata : Nat × Nat
  data : Nat × Nat
  virtualBase : Nat
  physicalBase : Nat
  /-- `base` and `length` of each entry of the memory map. -/
  memmap : List (Nat × Nat)

/-- A page to map: `virt`, `phys` and `flags`. -/
abbrev BootPage := Nat × Nat × Nat

/-- `for (addr = start; addr < stop; addr += PAGE_SIZE)`. -/
def pagesOf (start stop : Nat) : List Nat :=
  (List.range ((stop - start + (pageSize - 1)) / pageSize)).map fun k => start + k * pageSize

/-- The pages of one section of the kernel. -/
def sectionPages (info : BootInfo) (bounds : Nat × Nat) (flags : Nat) : List BootPage :=
  (pagesOf (alignDown bounds.1 pageSize) (alignUp bounds.2 pageSize)).map fun addr =>
    (addr, u64 (addr + (2 ^ 64 - info.virtualBase) + info.physicalBase), flags)

/-- Each page of physical memory is mapped twice, at its own address and in the higher half. -/
def identityPages (info : BootInfo) (addr : Nat) : List BootPage :=
  [(addr, addr, ptePresent ||| pteWritable),
    (u64 (addr + info.higherHalf), addr, ptePresent ||| pteWritable ||| pteNx)]

/-- The pages of one entry of the memory map that lie above four gigabytes. -/
def memmapPages (info : BootInfo) (entry : Nat × Nat) : List BootPage :=
  let base := alignDown entry.1 pageSize
  let top := alignUp (u64 (entry.1 + entry.2)) pageSize
  if top ≤ 0x100000000 then []
  else ((pagesOf base top).filter fun j => 0x100000000 ≤ j).flatMap (identityPages info)

/-- Everything `vmm_init` maps, in its order. -/
def bootPages (info : BootInfo) : List BootPage :=
  sectionPages info info.text ptePresent
    ++ sectionPages info info.rodata (ptePresent ||| pteNx)
    ++ sectionPages info info.data (ptePresent ||| pteWritable ||| pteNx)
    ++ (pagesOf 0x1000 0x100000000).flatMap (identityPages info)
    ++ info.memmap.flatMap (memmapPages info)

section

variable {σ : Type} (A : PageAllocator σ)

/-- `get_next_level(top_level, i, true)` for each of the entries. -/
def initUpper (topLevel : Nat) : List Nat → State σ → Option (State σ)
  | [], s => some s
  | i :: is, s =>
    match getNextLevel A s topLevel i true with
    | (none, _) => none
    | (some _, s) => initUpper topLevel is s

/-- `vmm_map_page` for each of the pages. -/
def initPages (topLevel : Nat) : List BootPage → State σ → Option (State σ)
  | [], s => some s
  | (virt, phys, flags) :: pages, s =>
    match vmmMapPage A s topLevel virt phys flags with
    | (false, _) => none
    | (true, s) => initPages topLevel pages s

/-- The pages are `bootPages` of what the boot loader says. The result is the top level of
`vmm_kernel_pagemap`. -/
def vmmInit (pages : List BootPage) (s : State σ) : Option (Nat × State σ) :=
  let (topLevel, s) := pmmAlloc A s
  if topLevel = 0 then none
  else
    match initUpper A topLevel (List.range' 256 256) s with
    | none => none
    | some s => (initPages A topLevel pages s).map fun s => (topLevel, s)

end

end Lyre.Vmm
