import Lyre.Fs.Ext2

/-!
# The entries of directories in `fs/ext2fs.c`

A buffer is memory of its own, counted from its first byte. Names are the bytes in front of the NUL.
Loops that go as far as the sizes on the disk lead them have no result where they do not end.
-/

namespace Lyre.Ext2

open Infra.Bytes

/-! ## `struct ext2fs_direntry`, at an offset of a buffer -/

namespace Direntry

/-- Without the name. -/
def size : Nat := 8

variable (buf : Mem) (off : Nat)

def inodeidx : Nat := read buf off 4
def entsize : Nat := read buf (off + 4) 2
def namelen : Nat := read buf (off + 6) 1
def dirtype : Nat := read buf (off + 7) 1

def setEntsize (v : Nat) : Mem := write buf (off + 4) 2 v

/-- A new entry, as `ext2fs_createdirentry` makes it: zeros, the fields, and the name with its NUL. -/
def make (newidx entsize dirtype : Nat) (name : List (BitVec 8)) : Mem :=
  let buf := fill buf off size
  let buf := write buf off 4 newidx
  let buf := write buf (off + 4) 2 entsize
  let buf := write buf (off + 6) 1 name.length
  let buf := write buf (off + 7) 1 dirtype
  put buf (off + 8) (name.length + 1) fun k => name.getD k 0

end Direntry

/-- `contracted` of an entry. -/
def contracted (buf : Mem) (off : Nat) : Nat := (Direntry.size + Direntry.namelen buf off + 3) / 4 * 4

/-- `required` for a name. -/
def required (name : List (BitVec 8)) : Nat := (Direntry.size + name.length + 1 + 3) / 4 * 4

/-- `available` of an entry. -/
def available (buf : Mem) (off : Nat) : Nat :=
  u64 (Direntry.entsize buf off + (2 ^ 64 - contracted buf off))

/-- The loop of `ext2fs_createdirentry`: the last offset, and whether the entry there has room. An
entry without room is at least eight bytes long. -/
def slackLoop (buf : Mem) (size required : Nat) : Nat → Nat → Nat × Bool
  | 0, off => (off, false)
  | left + 1, off =>
    if off < size then
      if required ≤ available buf off then (off, true)
      else slackLoop buf size required left (off + Direntry.entsize buf off)
    else (off, false)

namespace Ext2fs

/-- The part of `ext2fs_createdirentry` for an entry that has room. -/
def splitdirentry (fs : Ext2fs) (parent : Inode) (parentidx newidx dirtype : Nat)
    (name : List (BitVec 8)) (buf : Mem) (off : Nat) : Ext2fs × Inode × Int :=
  let entry := off + contracted buf off
  let buf := Direntry.make (Direntry.setEntsize buf off (contracted buf off)) entry newidx
    (available buf off) dirtype name
  let written := fs.inodewrite parent buf parentidx 0 parent.inodesize
  (written.1, written.2.1, 0)

/-- The part of `ext2fs_createdirentry` behind the loop. What is read into the second buffer is the
inode `newidx`. -/
def expanddir (fs : Ext2fs) (parent : Inode) (parentidx newidx dirtype : Nat)
    (name : List (BitVec 8)) (buf : Mem) (off : Nat) : Ext2fs × Inode × Int :=
  let grown := fs.inodegrow (fs.inodereadentry newidx) newidx 0 (u64 (parent.inodesize + fs.blksize))
  let fs := grown.1.inodewriteentry grown.2 newidx
  let buf := (fs.inoderead grown.2 buf 0 parent.inodesize).1
  let buf := Direntry.make buf off newidx (u64 (grown.2.inodesize + (2 ^ 64 - off))) dirtype name
  let written := fs.inodewrite parent buf parentidx 0 parent.inodesize
  (written.1, written.2.1, -1)

/-- `ext2fs_createdirentry`, with the inode of the directory behind the call. `buf` and `buf'` are what
the two buffers hold when they are allocated. -/
def createdirentry (fs : Ext2fs) (parent : Inode) (parentidx newidx dirtype : Nat)
    (name : List (BitVec 8)) (buf buf' : Mem) : Ext2fs × Inode × Int :=
  let buf := (fs.inoderead parent buf 0 parent.inodesize).1
  let stop := slackLoop buf parent.inodesize (required name) parent.inodesize 0
  if stop.2 then fs.splitdirentry parent parentidx newidx dirtype name buf stop.1
  else fs.expanddir parent parentidx newidx dirtype name buf' stop.1

/-! ## Entries are removed -/

/-- The loop of `ext2fs_removedirentry` up to the entry of the inode, with the entry in front of it. -/
def removeLoop (buf : Mem) (size inodeidx : Nat) :
    Nat → Option Nat → Nat → Option (Option (Option Nat × Nat))
  | 0, _, _ => none
  | fuel + 1, preventry, off =>
    if off < size then
      if Direntry.inodeidx buf off = inodeidx then some (some (preventry, off))
      else removeLoop buf size inodeidx fuel (some off) (off + Direntry.entsize buf off)
    else some none

/-- The loop over the direct blocks of an inode that is deleted. -/
def freedirect : Nat → Nat → Ext2fs → Inode → Ext2fs × Inode
  | 0, _, fs, inode => (fs, inode)
  | left + 1, j, fs, inode =>
    if inode.blocks j = 0 then freedirect left (j + 1) fs inode
    else freedirect left (j + 1) (fs.freeblock (inode.blocks j)) (inode.setBlocks j 0)

/-- What `ext2fs_removedirentry` does to an inode without links. `now` is the time in seconds. -/
def deleteinode (fs : Ext2fs) (inode : Inode) (inodeidx now : Nat) : Ext2fs :=
  let (fs, inode) := freedirect 12 0 fs (inode.setDeletedtime now)
  let fs := (fs.freeblocklist 0 (inode.blocks 12)).1
  let fs := (fs.freeblocklist 1 (inode.blocks 13)).1
  let fs := (fs.freeblocklist 2 (inode.blocks 14)).1
  let inode := ((inode.setBlocks 12 0).setBlocks 13 0).setBlocks 14 0
  let fs := (fs.inodewriteentry inode inodeidx).freeinode inodeidx
  if inode.perms / 2 ^ 12 * 2 ^ 12 = 0x4000 then
    let bgdidx := u32 (inodeidx + (2 ^ 32 - 1)) / fs.sb.inodespergroup
    let bgd := fs.bgdreadentry bgdidx
    fs.bgdwriteentry (bgd.setDircnt (bgd.dircnt + (2 ^ 16 - 1))) bgdidx
  else fs

/-- `ext2fs_removedirentry`. The first entry has none in front of it, and `NULL` is written to. -/
def removedirentry (fs : Ext2fs) (parent : Inode) (parentidx inodeidx : Nat) (deletes : Bool)
    (now : Nat) (buf : Mem) (fuel : Nat) : Option (Ext2fs × Inode × Bool) :=
  let buf := (fs.inoderead parent buf 0 parent.inodesize).1
  match removeLoop buf parent.inodesize inodeidx fuel none 0 with
  | none => none
  | some none => some (fs, parent, false)
  | some (some (none, _)) => none
  | some (some (some preventry, off)) =>
    let buf := Direntry.setEntsize buf preventry
      (Direntry.entsize buf preventry + Direntry.entsize buf off)
    let (fs, parent, _) := fs.inodewrite parent buf parentidx 0 parent.inodesize
    let inode := fs.inodereadentry (Direntry.inodeidx buf off)
    let inode := inode.setHardlinkcnt (inode.hardlinkcnt + (2 ^ 16 - 1))
    let fs := fs.inodewriteentry inode (Direntry.inodeidx buf off)
    if inode.hardlinkcnt = 0 ∧ deletes = true then
      some (fs.deleteinode inode inodeidx now, parent, true)
    else some (fs, parent, true)

/-! ## A directory is read -/

/-- `strncpy` out of `f`. -/
def strncpy (m : Mem) (a : Nat) (f : Nat → BitVec 8) (n : Nat) : Mem :=
  put m a n fun k => if ∀ j < k, f j ≠ 0 then f k else 0

/-- `ext2fs_readlink`, with the buffer as it is behind the call. -/
def readlink (fs : Ext2fs) (inode : Inode) (buffer : Mem) : Mem :=
  if inode.inodesize ≤ 60 then strncpy buffer 0 (fun k => inode.raw (40 + k)) inode.inodesize
  else (fs.inoderead inode buffer 0 inode.inodesize).1

end Ext2fs

/-- A node that `ext2fs_populate` creates, with the inode that the numbers of its resource are taken
from. The target of a link is the string at the beginning of `link`. -/
structure Child where
  name : List (BitVec 8)
  inodeidx : Nat
  mode : Nat
  inode : Inode
  link : Option Mem

/-- The type of a node for the type of an entry. -/
def filetype (dirtype : Nat) : Nat :=
  if dirtype = 1 then 0x8000
  else if dirtype = 2 then 0x4000
  else if dirtype = 3 then 0x2000
  else if dirtype = 4 then 0x6000
  else if dirtype = 5 then 0x1000
  else if dirtype = 6 then 0xc000
  else 0xa000

/-- The string that an entry has in `namebuf`. -/
def Direntry.namebuf (buf : Mem) (off : Nat) : List (BitVec 8) :=
  ((List.range (Direntry.namelen buf off)).map fun k => buf (off + Direntry.size + k)).takeWhile
    fun b => decide (b ≠ 0)

namespace Ext2fs

/-- One turn of `ext2fs_populate`. `linkbuffer` is what is found from the address of that buffer on
when it is allocated. -/
def populateEntry (fs : Ext2fs) (buf : Mem) (linkbuffer : Mem) (i : Nat) : Option Child :=
  let name := Direntry.namebuf buf i
  if Direntry.inodeidx buf i = 0 then none
  else if name = [46] ∨ name = [46, 46] then none
  else
    let inode := fs.inodereadentry (Direntry.inodeidx buf i)
    let type := filetype (Direntry.dirtype buf i)
    some {
      name
      inodeidx := Direntry.inodeidx buf i
      mode := inode.perms % 2 ^ 12 + type
      inode
      link := if type = 0xa000 then some (fs.readlink inode linkbuffer) else none }

/-- The loop of `ext2fs_populate`. -/
def populateLoop (fs : Ext2fs) (buf : Mem) (size : Nat) (linkbuffer : Nat → Mem) :
    Nat → Nat → Option (List Child)
  | 0, _ => none
  | fuel + 1, i =>
    if i < size then do
      let children ← populateLoop fs buf size linkbuffer fuel (i + Direntry.entsize buf i)
      some ((fs.populateEntry buf (linkbuffer i) i).toList ++ children)
    else some []

/-- `ext2fs_populate`, with the children in the order in which they are inserted. -/
def populate (fs : Ext2fs) (inodeidx : Nat) (buf : Mem) (linkbuffer : Nat → Mem) (fuel : Nat) :
    Option (List Child) :=
  let parent := fs.inodereadentry inodeidx
  let buf := (fs.inoderead parent buf 0 parent.inodesize).1
  fs.populateLoop buf parent.inodesize linkbuffer fuel 0

end Ext2fs

end Lyre.Ext2
