import Lyre.Infra.Rows
import Lyre.Sched.Fork

/-!
# The first thread of a program

`sched_new_user_thread` of a caller that has no stack (`sp == NULL`), with what it puts on the stack
of the first thread of a process. The kernel writes to the stack through its own mapping of physical
memory: the pointer `phys + VMM_HIGHER_HALF` is named by `phys`. A C string is the list of its bytes
in front of the terminator.
-/

namespace Lyre.Sched

open Mmap Infra.Rows

abbrev CString := List (BitVec 8)

/-! ## The auxiliary vector -/

def atNull : Nat := 0
def atPhdr : Nat := 3
def atPhent : Nat := 4
def atPhnum : Nat := 5
def atEntry : Nat := 9
def atSecure : Nat := 23

/-! ## Writing to the stack -/

/-- Memory, and the pointer `stack`. -/
structure Cursor where
  mem : Mem
  stack : Nat

namespace Cursor

/-- `stack = (void *)stack - length - 1` and `memcpy(stack, string, length)`. The terminator is what
is in memory already. -/
def pushString (c : Cursor) (string : CString) : Cursor :=
  let stack := sub64 (sub64 c.stack string.length) 1
  ⟨storeList pageSize c.mem stack string, stack⟩

/-- `*(--stack) = value`. -/
def push (c : Cursor) (value : Nat) : Cursor :=
  let stack := sub64 c.stack 8
  ⟨storeList pageSize c.mem stack (word value), stack⟩

/-- `stack -= 2; stack[0] = type, stack[1] = value`. -/
def pushPair (c : Cursor) (type value : Nat) : Cursor :=
  let stack := sub64 c.stack 16
  ⟨storeList pageSize (storeList pageSize c.mem stack (word type)) (u64 (stack + 8)) (word value),
    stack⟩

def pushAuxv (c : Cursor) (auxval : Elf.Auxval) : Cursor :=
  let c := (c.push 0).push 0
  let c := c.pushPair atSecure 0
  let c := c.pushPair atEntry auxval.atEntry
  let c := c.pushPair atPhdr auxval.atPhdr
  let c := c.pushPair atPhent auxval.atPhent
  c.pushPair atPhnum auxval.atPhnum

end Cursor

/-- The loop over the strings, from `i` on: `old_rsp -= strlen(string) + 1; stack[i] = old_rsp`. -/
def putPointers (stack : Nat) : Nat → List CString → Nat → Mem → Nat × Mem
  | _, [], oldRsp, mem => (oldRsp, mem)
  | i, string :: strings, oldRsp, mem =>
    let oldRsp := sub64 oldRsp (string.length + 1)
    putPointers stack (i + 1) strings oldRsp
      (storeList pageSize mem (u64 (stack + 8 * i)) (word oldRsp))

/-- `NULL`, and in front of it the pointers to the strings. -/
def Cursor.pushPointers (c : Cursor) (strings : List CString) (oldRsp : Nat) : Nat × Cursor :=
  let c := c.push 0
  let stack := sub64 c.stack (8 * strings.length)
  let r := putPointers stack 0 strings oldRsp c.mem
  (r.1, ⟨r.2, stack⟩)

/-- The stack of the first thread, and its `rsp`. -/
def initialStack (mem : Mem) (stack rsp : Nat) (argv envp : List CString) (auxval : Elf.Auxval) :
    Mem × Nat :=
  let stackTop := stack
  let c := envp.foldl Cursor.pushString ⟨mem, stack⟩
  let c := argv.foldl Cursor.pushString c
  let c : Cursor := { c with stack := alignDown c.stack 16 }
  let c : Cursor :=
    if (argv.length + envp.length + 1) &&& 1 ≠ 0 then { c with stack := sub64 c.stack 8 } else c
  let c := c.pushAuxv auxval
  let env := c.pushPointers envp rsp
  let arg := env.2.pushPointers argv env.1
  let c := arg.2.push argv.length
  (c.mem, sub64 rsp (sub64 stackTop c.stack))

/-! ## The thread -/

section

variable {σ : Type} (A : RunAllocator σ) (fpuPages : Nat)

/-- `sched_new_user_thread(proc, pc, arg, NULL, argv, envp, auxval, enqueue)`: the thread and its
`rsp`. -/
def newUserThread (s : State σ) (p : Nat) (argv envp : List CString) (auxval : Elf.Auxval) :
    Option (Option (Nat × Nat) × State σ) :=
  match heapAlloc s.mm with
  | (none, mm) => some (none, { s with mm := setErrno mm .enomem })
  | (some thread, mm) =>
    match pmmAllocRun A mm (stackSize / pageSize) with
    | (none, mm) => some (none, { s with mm := setErrno mm .enomem })
    | (some stackPhys, mm) =>
      let v := s.image p
      match mmapRange A mm v.pagemap (sub64 v.threadStackTop stackSize) stackPhys stackSize
          ⟨true, false, 1⟩ Elf.anonymous with
      | none => none
      | some (false, mm) =>
        some (none, { s with mm := pmmFreeRun A mm stackPhys (stackSize / pageSize) })
      | some (true, mm) =>
        let s := forkThread A fpuPages ({ s with mm }.setImage p
          { v with threadStackTop := sub64 v.threadStackTop (stackSize - pageSize) }) p thread
        if v.threads.length = 0 then
          let r := initialStack s.mm.vm.mem (u64 (stackPhys + stackSize)) v.threadStackTop argv envp
            auxval
          some (some (thread, r.2), { s with mm.vm.mem := r.1 })
        else some (some (thread, v.threadStackTop), s)

end

end Lyre.Sched
