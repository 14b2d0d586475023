import Lyre.Mm.Vmm

/-!
# `mm/mmap.c`: mappings of a process

A mapping has one `mmap_range_global`, which owns a shadow pagemap with every page the mapping
was ever given, and `mmap_range_local`s, the pieces in which it shows in pagemaps. The pieces of
a pagemap are in its `mmap_ranges`; the global range has a list `locals` of its own.

A `struct pagemap` is named by its top level page, local and global ranges by numbers drawn from
one counter, the order in which the kernel heap hands them out. Whether the n-th `ALLOC`
succeeds is part of the state (`heapOk`), so that every theorem is about every behaviour of the
heap. A freed local range keeps its number: `mmap_page_in_range` is the one place that may look
at a freed one, and has no result then.

Loops run on fuel for the `2 ^ 52` pages of the address space; the cursor is a 64-bit value.
Functions return `none` where the kernel faults on a null or freed pointer. `pmm_free` calls of
`munmap` are recorded in `freed`.
-/

namespace Lyre.Mmap

open Vmm

/-- `a - b` in 64 bits. -/
def sub64 (a b : Nat) : Nat := u64 (a + (2 ^ 64 - b))

/-- `flags` of `mmap`: the bits the kernel looks at, and the rest of the word. -/
structure MapFlags where
  shared : Bool
  fixed : Bool
  anonymous : Bool
  rest : Nat
  deriving DecidableEq, Repr

/-- `prot`: the bits the kernel looks at, and the rest of the word. -/
structure Prot where
  write : Bool
  exec : Bool
  rest : Nat
  deriving DecidableEq, Repr

structure LocalRange where
  pagemap : Nat
  global : Nat
  base : Nat
  length : Nat
  offset : Nat
  prot : Prot
  flags : MapFlags
  deriving DecidableEq, Repr

structure GlobalRange where
  shadowPagemap : Nat
  locals : List Nat
  res : Option Nat
  base : Nat
  length : Nat
  offset : Nat
  deriving DecidableEq, Repr

/-- What a resource is asked: whether it can be mapped, and the page behind a file page. -/
structure Resource where
  canMmap : Bool
  mmap : Nat → MapFlags → Nat

structure State (σ : Type) where
  vm : Vmm.State σ
  kernelTop : Nat
  ranges : Nat → List Nat
  locals : Nat → LocalRange
  localFreed : Nat → Bool
  globals : Nat → GlobalRange
  resources : Nat → Resource
  refcount : Nat → Nat
  heapOk : Nat → Bool
  nextId : Nat
  mmapAnonBase : Nat
  freed : List Nat

/-! ## Ranges -/

/-- `base + length` as the code computes it. -/
def LocalRange.stop (l : LocalRange) : Nat := u64 (l.base + l.length)

/-- The address is inside the range, by the test of `addr2range` and `mmap_page_in_range`. -/
def LocalRange.covers (l : LocalRange) (virt : Nat) : Bool :=
  !(decide (virt < l.base) || decide (l.stop ≤ virt))

/-- `struct addr2range`; `none` stands for a `NULL` range. -/
structure Addr2range where
  range : Nat
  memoryPage : Nat
  filePage : Nat

/-- `offset / PAGE_SIZE` as a `size_t`. An `off_t` has a sign, and the division rounds towards
zero. -/
def offsetPage (offset : Nat) : Nat :=
  (BitVec.ofInt 64 ((BitVec.ofNat 64 offset).toInt.tdiv pageSize)).toNat

section

variable {σ : Type}

def addr2range (s : State σ) (pagemap virt : Nat) : Option Addr2range :=
  ((s.ranges pagemap).find? fun id => (s.locals id).covers virt).map fun id =>
    let memoryPage := virt / pageSize
    { range := id
      memoryPage
      filePage := u64 (offsetPage (s.locals id).offset
        + sub64 memoryPage ((s.locals id).base / pageSize)) }

/-- `ALLOC`: the number of the new object unless the heap is exhausted. -/
def heapAlloc (s : State σ) : Option Nat × State σ :=
  (if s.heapOk s.nextId then some s.nextId else none, { s with nextId := s.nextId + 1 })

def setLocal (s : State σ) (id : Nat) (l : LocalRange) : State σ :=
  { s with locals := Function.update s.locals id l }

def setErrno (s : State σ) (e : Errno) : State σ :=
  { s with vm := { s.vm with errno := some e } }

/-- `VECTOR_PUSH_BACK(&pagemap->mmap_ranges, id)`. -/
def pushRange (s : State σ) (pagemap id : Nat) : State σ :=
  { s with ranges := Function.update s.ranges pagemap (s.ranges pagemap ++ [id]) }

/-- `VECTOR_REMOVE_BY_VALUE(&pagemap->mmap_ranges, id)` of a range that is in the vector. -/
def removeRange (s : State σ) (pagemap id : Nat) : State σ :=
  { s with ranges := Function.update s.ranges pagemap ((s.ranges pagemap).erase id) }

/-- `free(local_range)`. -/
def freeLocal (s : State σ) (id : Nat) : State σ :=
  { s with localFreed := Function.update s.localFreed id true }

/-! ## Loops over pages -/

/-- Turns enough for every page of the address space. -/
def loopFuel : Nat := 2 ^ 64

/-- `for (j = begin; j < stop; j += PAGE_SIZE)`. -/
def pageLoop {α : Type} (body : Nat → α → α) (stop : Nat) : Nat → Nat → α → α
  | 0, _, a => a
  | fuel + 1, j, a =>
    if j < stop then pageLoop body stop fuel (u64 (j + pageSize)) (body j a) else a

/-- The inner loop that finds the end of a snip: `i` advances until one of the bounds. -/
def snipLoop (rangeStop stop : Nat) : Nat → Nat → Nat
  | 0, i => i
  | fuel + 1, i =>
    let i := u64 (i + pageSize)
    if rangeStop ≤ i ∨ stop ≤ i then i else snipLoop rangeStop stop fuel i

/-! ## Page faults -/

/-- The page table flags of a protection. -/
def ptFlags (prot : Prot) : Nat :=
  ptePresent ||| pteUser ||| (if prot.write then pteWritable else 0)
    ||| (if prot.exec then 0 else pteNx)

variable (A : PageAllocator σ)

/-- The loop over `global->locals`. -/
def mapInLocals (virt phys flags : Nat) : List Nat → State σ → Option (Bool × State σ)
  | [], s => some (true, s)
  | id :: rest, s =>
    if s.localFreed id then none
    else if (s.locals id).covers virt then
      match vmmMapPage A s.vm (s.locals id).pagemap virt phys flags with
      | (false, vm) => some (false, { s with vm })
      | (true, vm) => mapInLocals virt phys flags rest { s with vm }
    else mapInLocals virt phys flags rest s

def mmapPageInRange (s : State σ) (global virt phys : Nat) (prot : Prot) :
    Option (Bool × State σ) :=
  match vmmMapPage A s.vm (s.globals global).shadowPagemap virt phys (ptFlags prot) with
  | (false, vm) => some (false, { s with vm })
  | (true, vm) => mapInLocals A virt phys (ptFlags prot) (s.globals global).locals { s with vm }

/-- The page to install: a zeroed one, or what the resource gives. -/
def faultPage (s : State σ) (l : LocalRange) (filePage : Nat) : Option (Nat × State σ) :=
  if l.flags.anonymous then
    let (page, vm) := pmmAlloc A s.vm
    some (page, { s with vm })
  else
    match (s.globals l.global).res with
    | none => none
    | some res => some ((s.resources res).mmap filePage l.flags, s)

/-- `err` and `cr2` are what the processor reports, `pagemap` that of the current process. -/
def mmapHandlePf (s : State σ) (pagemap err cr2 : Nat) : Option (Bool × State σ) :=
  if err &&& 0x1 ≠ 0 then some (false, s)
  else
    match addr2range s pagemap cr2 with
    | none => some (false, s)
    | some range =>
      match faultPage A s (s.locals range.range) range.filePage with
      | none => none
      | some (page, s') =>
        if page = 0 then some (false, s')
        else
          mmapPageInRange A s' (s.locals range.range).global (range.memoryPage * pageSize) page
            (s.locals range.range).prot

/-! ## `munmap` -/

/-- Both `munmap` and `mprotect` cut a piece out of the middle of a range by giving the part
behind it to a new range. -/
def postsplit (s : State σ) (pagemap id new snipEnd : Nat) : State σ :=
  let l := s.locals id
  let length := sub64 (l.base + l.length) snipEnd
  let post := { l with
    base := snipEnd
    length
    offset := u64 (l.offset + sub64 snipEnd l.base) }
  setLocal (pushRange (setLocal s new post) pagemap new) id
    { l with length := sub64 l.length length }

/-- The test for a cut in the middle. -/
def needsSplit (l : LocalRange) (snipBegin snipEnd : Nat) : Bool :=
  decide (l.base < snipBegin) && decide (snipEnd < l.stop)

/-- Takes the snip off the front or the back of the range. -/
def trimRange (s : State σ) (id snipBegin snipEnd : Nat) : State σ :=
  let l := s.locals id
  let snipLength := sub64 snipEnd snipBegin
  let l := if snipBegin = l.base then
    { l with offset := u64 (l.offset + snipLength), base := snipEnd } else l
  setLocal s id { l with length := sub64 l.length snipLength }

/-- `vmm_unmap_page` on every page of the snip. -/
def unmapPages (s : State σ) (pagemap snipBegin snipEnd : Nat) : State σ :=
  { s with vm := pageLoop (fun j vm => (vmmUnmapPage A vm pagemap j).2) snipEnd loopFuel
             snipBegin s.vm }

/-- One page of the shadow pagemap is given back. The flag says that nothing went wrong yet. -/
def releasePage (shadow j : Nat) (acc : Bool × State σ) : Bool × State σ :=
  if acc.1 = false then acc
  else
    let s := acc.2
    let phys := vmmVirt2phys A s.vm shadow j
    if phys = invalidPhys then acc
    else
      match vmmUnmapPage A s.vm shadow j with
      | (false, vm) => (false, setErrno { s with vm } .einval)
      | (true, vm) => (true, { s with vm := pmmFree A vm phys, freed := phys :: s.freed })

/-- The pages of a global range go back to the page allocator. -/
def releaseShadow (s : State σ) (global : Nat) : Bool × State σ :=
  let g := s.globals global
  pageLoop (releasePage A g.shadowPagemap) (u64 (g.base + g.length)) loopFuel g.base (true, s)

/-- The end of one turn of `munmap`: a range that the snip covers whole leaves the list, and its
pages are given back when its global range has one local. -/
def dropOrTrim (s : State σ) (pagemap id snipBegin snipEnd : Nat) : Bool × State σ :=
  let l := s.locals id
  if sub64 snipEnd snipBegin = l.length then
    let s := removeRange s pagemap id
    if (s.globals l.global).locals.length = 1 then
      let (ok, s) := if l.flags.anonymous then releaseShadow A s l.global else (true, s)
      if ok = false then (false, s) else (true, freeLocal s id)
    else (true, trimRange s id snipBegin snipEnd)
  else (true, trimRange s id snipBegin snipEnd)

/-- One turn of `munmap` that found a range. -/
def munmapSnip (s : State σ) (pagemap id snipBegin snipEnd : Nat) : Bool × State σ :=
  if needsSplit (s.locals id) snipBegin snipEnd then
    match heapAlloc s with
    | (none, s) => (false, setErrno s .enomem)
    | (some new, s) =>
      dropOrTrim A (unmapPages A (postsplit s pagemap id new snipEnd) pagemap snipBegin snipEnd)
        pagemap id snipBegin snipEnd
  else
    dropOrTrim A (unmapPages A s pagemap snipBegin snipEnd) pagemap id snipBegin snipEnd

def munmapLoop (pagemap stop : Nat) : Nat → Nat → State σ → Option (Bool × State σ)
  | 0, _, _ => none
  | fuel + 1, i, s =>
    if i < stop then
      match addr2range s pagemap i with
      | none => munmapLoop pagemap stop fuel (u64 (i + pageSize)) s
      | some range =>
        let snipEnd := snipLoop (s.locals range.range).stop stop loopFuel i
        match munmapSnip A s pagemap range.range i snipEnd with
        | (false, s) => some (false, s)
        | (true, s) => munmapLoop pagemap stop fuel (u64 (snipEnd + pageSize)) s
    else some (true, s)

def munmap (s : State σ) (pagemap addr length : Nat) : Option (Bool × State σ) :=
  if length = 0 then some (false, setErrno s .einval)
  else
    munmapLoop A pagemap (u64 (addr + alignUp length pageSize)) loopFuel addr s

/-! ## `mprotect` -/

/-- `vmm_flag_page` on every page of the snip. -/
def flagPages (s : State σ) (pagemap : Nat) (prot : Prot) (snipBegin snipEnd : Nat) : State σ :=
  { s with vm := pageLoop (fun j vm => (vmmFlagPage A vm pagemap j (ptFlags prot)).2) snipEnd
             loopFuel snipBegin s.vm }

/-- The snip becomes a range of its own with the new protection. -/
def newProtRange (s : State σ) (pagemap id : Nat) (prot : Prot) (snipBegin snipEnd : Nat) :
    Option (State σ) :=
  let l := s.locals id
  let newOffset := u64 (l.offset + sub64 snipBegin l.base)
  let s := trimRange s id snipBegin snipEnd
  match heapAlloc s with
  | (none, _) => none
  | (some new, s) =>
    let l := s.locals id
    let r := { l with
      base := snipBegin
      length := sub64 snipEnd snipBegin
      offset := newOffset
      prot }
    some (pushRange (setLocal s new r) pagemap new)

/-- One turn of `mprotect` that found a range with another protection. -/
def mprotectSnip (s : State σ) (pagemap id : Nat) (prot : Prot) (snipBegin snipEnd : Nat) :
    Option (State σ) :=
  if needsSplit (s.locals id) snipBegin snipEnd then
    match heapAlloc s with
    | (none, _) => none
    | (some new, s) =>
      newProtRange (flagPages A (postsplit s pagemap id new snipEnd) pagemap prot snipBegin snipEnd)
        pagemap id prot snipBegin snipEnd
  else newProtRange (flagPages A s pagemap prot snipBegin snipEnd) pagemap id prot snipBegin snipEnd

def mprotectLoop (pagemap : Nat) (prot : Prot) (stop : Nat) :
    Nat → Nat → State σ → Option (State σ)
  | 0, _, _ => none
  | fuel + 1, i, s =>
    if i < stop then
      match addr2range s pagemap i with
      | none => none
      | some range =>
        if (s.locals range.range).prot = prot then
          mprotectLoop pagemap prot stop fuel (u64 (i + pageSize)) s
        else
          let snipEnd := snipLoop (s.locals range.range).stop stop loopFuel i
          match mprotectSnip A s pagemap range.range prot i snipEnd with
          | none => none
          | some s => mprotectLoop pagemap prot stop fuel (u64 (snipEnd + pageSize)) s
    else some s

def mprotect (s : State σ) (pagemap addr length : Nat) (prot : Prot) : Option (Int × State σ) :=
  if length = 0 then some (-1, setErrno s .einval)
  else
    (mprotectLoop A pagemap prot (u64 (addr + alignUp length pageSize)) loopFuel addr s).map
      fun s => (0, s)

/-! ## `vmm_destroy_pagemap` -/

/-- `destroy_level`: gives back the tables below `pml`, then `pml` itself. -/
def destroyLevel : Nat → Vmm.State σ → Nat → Nat → Nat → Vmm.State σ
  | 0, vm, _, _, _ => vm
  | level + 1, vm, pml, start, stop =>
    pmmFree A
      ((List.range' start (stop - start)).foldl
        (fun vm i =>
          match nextTable (vm.mem pml i) with
          | none => vm
          | some next => destroyLevel level vm next 0 512) vm)
      pml

/-- The loop that unmaps the first range until none is left. -/
def destroyLoop (pagemap : Nat) : Nat → State σ → Option (State σ)
  | 0, _ => none
  | fuel + 1, s =>
    match s.ranges pagemap with
    | [] => some s
    | id :: _ =>
      match munmap A s pagemap (s.locals id).base (s.locals id).length with
      | none => none
      | some (_, s) => destroyLoop pagemap fuel s

/-- `fuel` bounds the turns of the loop over the ranges. -/
def vmmDestroyPagemap (fuel : Nat) (s : State σ) (pagemap : Nat) : Option (State σ) :=
  (destroyLoop A pagemap fuel s).map fun s =>
    { s with vm := destroyLevel A 4 s.vm pagemap 0 256 }

/-! ## `mmap` -/

/-- `vmm_new_pagemap` with its `struct pagemap`, whose list of ranges is empty. -/
def newPagemap (s : State σ) : Option Nat × State σ :=
  match heapAlloc s with
  | (none, s) => (none, setErrno s .enomem)
  | (some _, s) =>
    match vmmNewPagemap A s.vm s.kernelTop with
    | (none, vm) => (none, { s with vm })
    | (some top, vm) => (some top, { s with vm, ranges := Function.update s.ranges top [] })

/-- The clean-up of a failed `mmap`: the shadow pagemap has no ranges. -/
def mmapCleanup (s : State σ) (shadow : Nat) : Option (Option Nat × State σ) :=
  (vmmDestroyPagemap A 1 s shadow).map fun s => (none, s)

/-- The second half of `mmap`, once the base is known. The result is `none` for `MAP_FAILED`. -/
def mmapAt (s : State σ) (pagemap base length : Nat) (prot : Prot) (flags : MapFlags)
    (res : Option Nat) (offset : Nat) : Option (Option Nat × State σ) :=
  match heapAlloc s with
  | (none, s) => some (none, setErrno s .enomem)
  | (some global, s) =>
    match newPagemap A s with
    | (none, s) => some (none, s)
    | (some shadow, s) =>
      match heapAlloc s with
      | (none, s) => mmapCleanup A s shadow
      | (some id, s) =>
        let g : GlobalRange :=
          { shadowPagemap := shadow, locals := [id], res, base, length, offset }
        let l : LocalRange := { pagemap, global, base, length, offset, prot, flags }
        let s := { s with globals := Function.update s.globals global g }
        let s := pushRange (setLocal s id l) pagemap id
        let s := match res with
          | none => s
          | some r => { s with refcount := Function.update s.refcount r (s.refcount r + 1) }
        some (some base, s)

/-- `mmap` on behalf of the process whose pagemap this is. -/
def mmap (s : State σ) (pagemap addr length : Nat) (prot : Prot) (flags : MapFlags)
    (res : Option Nat) (offset : Nat) : Option (Option Nat × State σ) :=
  if length = 0 then some (none, setErrno s .einval)
  else
    let length := alignUp length pageSize
    if flags.anonymous = false ∧ (res.map fun r => (s.resources r).canMmap) = some false then
      some (none, setErrno s .enodev)
    else if flags.fixed then
      match munmap A s pagemap addr length with
      | none => none
      | some (false, s) => some (none, s)
      | some (true, s) => mmapAt A s pagemap addr length prot flags res offset
    else
      mmapAt A { s with mmapAnonBase := u64 (s.mmapAnonBase + (length + pageSize)) } pagemap
        s.mmapAnonBase length prot flags res offset

end

end Lyre.Mmap

/-!
## `mmap_range`: mappings of given pages

`mmap_range` maps a run of pages that its caller has allocated. It makes a global range with a
shadow pagemap, and one local range, before it looks at the pages; a page that cannot be mapped
leaves the local range, freed by then, in both lists.
-/

namespace Lyre

/-- `pmm_alloc_nozero` and `pmm_free` for several pages as well. -/
structure RunAllocator (σ : Type) extends PageAllocator σ where
  allocRun : σ → Nat → Nat × σ
  freeRun : σ → Nat → Nat → σ

def Pmm.runs : RunAllocator Pmm.State where
  toPageAllocator := Pmm.allocator
  allocRun := Pmm.pmmAllocNozero
  freeRun := Pmm.pmmFree

namespace Mmap

open Vmm

section

variable {σ : Type} (A : RunAllocator σ)

/-- `memset(page, 0, pages * PAGE_SIZE)`. -/
def zeroPages (mem : Infra.Radix.Mem Nat Nat Nat) (page pages : Nat) :
    Infra.Radix.Mem Nat Nat Nat :=
  fun t i => if page ≤ t ∧ t < page + pages * pageSize then 0 else mem t i

/-- `pmm_alloc(pages)`; `none` is `NULL`. -/
def pmmAllocRun (s : State σ) (pages : Nat) : Option Nat × State σ :=
  let (page, pmm) := A.allocRun s.vm.pmm pages
  if page = 0 then (none, { s with vm := { s.vm with pmm } })
  else (some page, { s with vm := { s.vm with pmm, mem := zeroPages s.vm.mem page pages } })

/-- `pmm_free(page, pages)`. -/
def pmmFreeRun (s : State σ) (page pages : Nat) : State σ :=
  { s with vm := { s.vm with pmm := A.freeRun s.vm.pmm page pages } }

/-- The loop over the pages, from `i` on. -/
def mmapRangePages (global virt phys length : Nat) (prot : Prot) :
    Nat → Nat → State σ → Option (Bool × State σ)
  | 0, _, _ => none
  | fuel + 1, i, s =>
    if i < length then
      match mmapPageInRange A.toPageAllocator s global (u64 (virt + i)) (u64 (phys + i)) prot with
      | none => none
      | some (false, s) => some (false, s)
      | some (true, s) => mmapRangePages global virt phys length prot fuel (u64 (i + pageSize)) s
    else some (true, s)

/-- The second half of `mmap_range`, once there is memory for both ranges. A pagemap that is `NULL`
is looked at here. -/
def mmapRangeAt (s : State σ) (pagemap : Option Nat) (global shadow id virt phys length : Nat)
    (prot : Prot) (flags : MapFlags) : Option (Bool × State σ) :=
  match pagemap with
  | none => none
  | some pagemap =>
    let g : GlobalRange :=
      { shadowPagemap := shadow, locals := [id], res := none, base := virt, length, offset := 0 }
    let l : LocalRange :=
      { pagemap, global, base := virt, length, offset := 0, prot
        flags := { flags with anonymous := true } }
    let s := { s with globals := Function.update s.globals global g }
    let s := pushRange (setLocal s id l) pagemap id
    match mmapRangePages A global virt phys length prot loopFuel 0 s with
    | none => none
    | some (true, s) => some (true, s)
    | some (false, s) =>
      (vmmDestroyPagemap A.toPageAllocator 1 (freeLocal s id) shadow).map fun s => (false, s)

def mmapRange (s : State σ) (pagemap : Option Nat) (virt phys length : Nat) (prot : Prot)
    (flags : MapFlags) : Option (Bool × State σ) :=
  let alignedVirt := alignDown virt pageSize
  let alignedLength := alignUp (u64 (length + (virt - alignedVirt))) pageSize
  match heapAlloc s with
  | (none, s) => some (false, setErrno s .enomem)
  | (some global, s) =>
    match newPagemap A.toPageAllocator s with
    | (none, s) => some (false, s)
    | (some shadow, s) =>
      match heapAlloc s with
      | (none, s) =>
        (vmmDestroyPagemap A.toPageAllocator 1 (setErrno s .enomem) shadow).map fun s => (false, s)
      | (some id, s) =>
        mmapRangeAt A s pagemap global shadow id alignedVirt phys alignedLength prot flags

end

end Mmap

end Lyre
