import Lyre.Mm.Mmap

/-!
# `vmm_fork_pagemap`: the address space of a child process

The child gets a local range for each one of its parent. A shared range joins the locals of the
global range, and the child's page table gets the parent's entries. A private range gets a global
range and a shadow pagemap of its own, and every page that is present is copied. Private ranges of
a file are not supported: the kernel panics.

The loops over pages carry a flag: false once the code has left for `cleanup`.
-/

namespace Lyre.Mmap

open Vmm

/-- `memcpy(page, oldPage, PAGE_SIZE)`. -/
def copyPage (mem : Infra.Radix.Mem Nat Nat Nat) (page oldPage : Nat) :
    Infra.Radix.Mem Nat Nat Nat :=
  fun t i => if t = page then mem oldPage i else mem t i

section

variable {σ : Type} (A : PageAllocator σ)

/-- One page of a shared range. The entry is copied as it is, present or not. -/
def forkSharedPage (pagemap newPagemap i : Nat) (acc : Bool × Vmm.State σ) :
    Bool × Vmm.State σ :=
  if acc.1 = false then acc
  else
    match (vmmVirt2pte A acc.2 pagemap i false).1 with
    | none => acc
    | some oldPte =>
      match vmmVirt2pte A acc.2 newPagemap i true with
      | (none, vm) => (false, vm)
      | (some newPte, vm) => (true, store vm newPte.1 newPte.2 (vm.mem oldPte.1 oldPte.2))

/-- A page of a private range is copied, the three entries at hand. -/
def forkCopy (vm : Vmm.State σ) (oldPte newPte newSpte : Nat × Nat) : Bool × Vmm.State σ :=
  let oldPage := pteGetAddr (vm.mem oldPte.1 oldPte.2)
  let (page, vm) := pmmAllocNozero A vm
  if page = 0 then (false, vm)
  else
    let vm := { vm with mem := copyPage vm.mem page oldPage }
    let vm := store vm newPte.1 newPte.2 (pteGetFlags (vm.mem oldPte.1 oldPte.2) ||| page)
    (true, store vm newSpte.1 newSpte.2 (vm.mem newPte.1 newPte.2))

/-- One page of a private range. -/
def forkPrivatePage (pagemap newPagemap shadow i : Nat) (acc : Bool × Vmm.State σ) :
    Bool × Vmm.State σ :=
  if acc.1 = false then acc
  else
    match (vmmVirt2pte A acc.2 pagemap i false).1 with
    | none => acc
    | some oldPte =>
      if pteGetFlags (acc.2.mem oldPte.1 oldPte.2) &&& ptePresent = 0 then acc
      else
        match vmmVirt2pte A acc.2 newPagemap i true with
        | (none, vm) => (false, vm)
        | (some newPte, vm) =>
          match vmmVirt2pte A vm shadow i true with
          | (none, vm) => (false, vm)
          | (some newSpte, vm) => forkCopy A vm oldPte newPte newSpte

/-- The end of a turn: the new range goes to the child's list unless a loop failed. -/
def forkPush (s : State σ) (newPagemap new : Nat) (pages : Bool × Vmm.State σ) :
    Bool × State σ :=
  if pages.1 = false then (false, { s with vm := pages.2 })
  else (true, pushRange { s with vm := pages.2 } newPagemap new)

/-- The rest of a turn for a shared range. -/
def forkShared (s : State σ) (pagemap newPagemap new : Nat) (l : LocalRange) : Bool × State σ :=
  let g := s.globals l.global
  let s := { s with
    globals := Function.update s.globals l.global { g with locals := g.locals ++ [new] } }
  forkPush s newPagemap new
    (pageLoop (forkSharedPage A pagemap newPagemap) l.stop loopFuel l.base (true, s.vm))

/-- The rest of a turn for a private range. -/
def forkPrivate (s : State σ) (pagemap newPagemap new : Nat) (l : LocalRange) :
    Option (Bool × State σ) :=
  match heapAlloc s with
  | (none, s) => some (false, s)
  | (some newGlobal, s) =>
    match Mmap.newPagemap A s with
    | (none, s) => some (false, s)
    | (some shadow, s) =>
      let g := { s.globals l.global with shadowPagemap := shadow, locals := [new] }
      let s := { s with globals := Function.update s.globals newGlobal g }
      if l.flags.anonymous then
        some (forkPush s newPagemap new
          (pageLoop (forkPrivatePage A pagemap newPagemap shadow) l.stop loopFuel l.base
            (true, s.vm)))
      else none

/-- One turn of the loop over the parent's ranges. -/
def forkRange (s : State σ) (pagemap newPagemap id : Nat) : Option (Bool × State σ) :=
  let l := s.locals id
  match heapAlloc s with
  | (none, s) => some (false, s)
  | (some new, s) =>
    let s := setLocal s new { l with pagemap := newPagemap }
    let s := match (s.globals l.global).res with
      | none => s
      | some r => { s with refcount := Function.update s.refcount r (s.refcount r + 1) }
    if l.flags.shared then some (forkShared A s pagemap newPagemap new l)
    else forkPrivate A s pagemap newPagemap new l

/-- The loop over the parent's ranges. -/
def forkRanges (pagemap newPagemap : Nat) : List Nat → State σ → Option (Bool × State σ)
  | [], s => some (true, s)
  | id :: rest, s =>
    match forkRange A s pagemap newPagemap id with
    | none => none
    | some (false, s) => some (false, s)
    | some (true, s) => forkRanges pagemap newPagemap rest s

/-- `fuel` bounds the turns of the loop in `vmm_destroy_pagemap` when the fork fails. -/
def vmmForkPagemap (fuel : Nat) (s : State σ) (pagemap : Nat) : Option (Option Nat × State σ) :=
  match newPagemap A s with
  | (none, s) => some (none, s)
  | (some new, s) =>
    match forkRanges A pagemap new (s.ranges pagemap) s with
    | none => none
    | some (true, s) => some (some new, s)
    | some (false, s) => (vmmDestroyPagemap A fuel s new).map fun s => (none, s)

end

end Lyre.Mmap
