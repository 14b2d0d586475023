import Lyre.Lib.Errno
import Lyre.Lib.Hashmap

/-!
# Names in `fs/vfs/vfs.c`

A pointer to a node is its index among the nodes there are; nodes are never freed. Where the code
reads through `NULL`, calls a function that a file system does not have, or uses memory that
`vfs_unlink` has freed, a call has no result.

What a file system reads from its disk when it populates a directory, and whether it has memory for
what it is asked for, are arguments of the calls. File systems only differ in the functions they
have. Locks are not modelled.
-/

namespace Lyre.Vfs

abbrev Path := List (BitVec 8)

def slash : BitVec 8 := 0x2f

def dotName : Key := [0x2e]

def dotdotName : Key := [0x2e, 0x2e]

/-- The types of `st_mode` that are told apart. -/
inductive Kind
  | dir
  | lnk
  | other
  deriving DecidableEq

/-- `struct vfs_filesystem`: which of its functions are not `NULL`. Every file system has `create`. -/
structure Filesystem where
  id : Nat
  populate : Bool
  symlink : Bool
  link : Bool
  deriving DecidableEq

/-- `struct vfs_node`. Of its resource only the type matters. -/
structure VfsNode where
  mountpoint : Option Nat
  redir : Option Nat
  resource : Option Kind
  filesystem : Option Filesystem
  parent : Option Nat
  children : Hashmap (Option Nat)
  symlinkTarget : Option Path
  populated : Bool
  /-- Memory that `vfs_unlink` frees without setting the pointers to it. -/
  childrenFreed : Bool
  symlinkTargetFreed : Bool

/-- All nodes there are. -/
structure Tree where
  nodes : List VfsNode
  /-- `vfs_root`. -/
  root : Nat
  /-- `errno` of the thread that runs. -/
  errno : Option Errno

/-- An entry of a directory as a file system reads it from its disk. -/
structure DiskEntry where
  name : Key
  kind : Kind
  symlinkTarget : Option Path

/-- What `populate` of a file system reads before it is done, or before it runs out of memory. -/
structure Reading where
  entries : List DiskEntry
  complete : Bool

/-- What would be read for each directory. -/
abbrev Disk := Nat → Reading

namespace Tree

def node (s : Tree) (n : Nat) : Option VfsNode := s.nodes[n]?

def setNode (s : Tree) (n : Nat) (v : VfsNode) : Tree := { s with nodes := s.nodes.set n v }

def setErrno (s : Tree) (errno : Errno) : Tree := { s with errno := some errno }

/-- A node of `vfs_create_node`, with what its users set. -/
def newNode (fs : Option Filesystem) (parent : Option Nat) (dir : Bool) (resource : Option Kind)
    (redir : Option Nat) (symlinkTarget : Option Path) : VfsNode where
  mountpoint := none
  redir := redir
  resource := resource
  filesystem := fs
  parent := parent
  children := .init (if dir then 256 else 0)
  symlinkTarget := symlinkTarget
  populated := false
  childrenFreed := false
  symlinkTargetFreed := false

/-- One more node; the pointer to it is `s.nodes.length`. -/
def push (s : Tree) (v : VfsNode) : Tree := { s with nodes := s.nodes ++ [v] }

/-- `HASHMAP_SGET(&node->children, ..)`. An item may be `NULL`. -/
def sget (s : Tree) (n : Nat) (name : Key) : Option (Option (Option Nat)) := do
  let v ← s.node n
  if v.childrenFreed then none else some (v.children.get name)

/-- `HASHMAP_SINSERT(&node->children, ..)`. -/
def sinsert (s : Tree) (n : Nat) (name : Key) (item : Option Nat) : Option Tree := do
  let v ← s.node n
  if v.childrenFreed then none
  else
    let children ← v.children.insert name item
    some (s.setNode n { v with children := children })

/-- `HASHMAP_SREMOVE(&node->children, ..)`, with whether there was such a name. -/
def sremove (s : Tree) (n : Nat) (name : Key) : Option (Tree × Bool) := do
  let v ← s.node n
  if v.childrenFreed then none
  else
    match v.children.remove name with
    | some children => some (s.setNode n { v with children := children }, true)
    | none => some (s, false)

/-- `vfs_create_dotentries`. -/
def createDotentries (s : Tree) (n parent : Nat) : Option Tree := do
  let v ← s.node n
  let dot := s.nodes.length
  let s := s.push (newNode v.filesystem (some n) false none (some n) none)
  let dotdot := s.nodes.length
  let s := s.push (newNode v.filesystem (some n) false none (some parent) none)
  let s ← s.sinsert n dotName (some dot)
  s.sinsert n dotdotName (some dotdot)

def reduceLoop (s : Tree) : Nat → Nat → Option Nat
  | 0, _ => none
  | fuel + 1, n => do
    let v ← s.node n
    match v.redir, v.mountpoint with
    | some m, _ => reduceLoop s fuel m
    | none, some m => reduceLoop s fuel m
    | none, none => some n

/-- `reduce_node(node, false)`. A chain with more nodes than there are does not end. -/
def reduce (s : Tree) (n : Nat) : Option Nat := reduceLoop s (s.nodes.length + 1) n

/-- One turn of the loop of `populate` of a file system: the dot entries are left to the VFS. -/
def populateEntry (n : Nat) (s : Tree) (e : DiskEntry) : Option Tree :=
  if e.name = dotName ∨ e.name = dotdotName then some s
  else do
    let v ← s.node n
    let fnode := s.nodes.length
    let s := s.push
      (newNode v.filesystem (some n) (e.kind = .dir) (some e.kind) none e.symlinkTarget)
    let s ← s.sinsert n e.name (some fnode)
    if e.kind = .dir then s.createDotentries fnode n else some s

/-- `populate` of a file system. -/
def fsPopulate (disk : Disk) (s : Tree) (n : Nat) : Option Tree := do
  let s ← (disk n).entries.foldlM (populateEntry n) s
  let v ← s.node n
  some (s.setNode n { v with populated := (disk n).complete })

/-- Whether `populate` asks the file system. -/
def unread (v : VfsNode) : Bool :=
  v.filesystem.any (·.populate) && !v.populated && v.resource == some .dir

/-- `populate`. -/
def populate (disk : Disk) (s : Tree) (n : Nat) : Option (Tree × Bool) := do
  let v ← s.node n
  if unread v then
    let s ← s.fsPopulate disk n
    let v ← s.node n
    some (s, v.populated)
  else some (s, true)

/-! ## `path2node` -/

/-- `struct path2node_res`. -/
structure Res where
  targetParent : Option Nat
  target : Option Nat
  basename : Option Key

def Res.null : Res := ⟨none, none, none⟩

/-- How a symbolic link is resolved: `path2node` itself, called on a node and a path. -/
abbrev Resolve := Tree → Option Nat → Option Path → Option (Tree × Res)

/-- How a turn of the loop of `path2node` ends: it returns, it has found the last name of the path, or
it goes on in a directory. -/
inductive Turn
  | done (s : Tree) (r : Res)
  | found (s : Tree) (current new : Nat) (kind : Kind)
  | down (s : Tree) (n : Nat)

/-- One turn, for a name and what is left of the path behind it. -/
def turn (disk : Disk) (resolve : Resolve) (s : Tree) (current : Nat) (elem : Key) (rest : Path) :
    Option Turn := do
  let current ← s.reduce current
  match ← s.sget current elem with
  | none =>
    let s := s.setErrno .enoent
    if rest = [] then some (.done s ⟨some current, none, some elem⟩) else some (.done s .null)
  | some item => do
    let new ← item
    let new ← s.reduce new
    let (s, ok) ← s.populate disk new
    if ok = false then some (.done s .null)
    else
      let v ← s.node new
      let kind ← v.resource
      if rest = [] then some (.found s current new kind)
      else if kind = .lnk then
        if v.symlinkTargetFreed then none
        else do
          let (s, r) ← resolve s v.parent v.symlinkTarget
          match r.target with
          | none => some (.done s .null)
          | some target => do
            let v ← s.node target
            let kind ← v.resource
            if kind = .dir then some (.down s target)
            else some (.done (s.setErrno .enotdir) .null)
      else if kind = .dir then some (.down s new)
      else some (.done (s.setErrno .enotdir) .null)

/-- The loop of `path2node`, at a path that is not empty and does not begin with a slash. The first
number bounds the turns by the length of the path. -/
def walk (disk : Disk) (resolve : Resolve) (askForDir : Bool) :
    Nat → Tree → Nat → Path → Option (Tree × Res)
  | 0, _, _, _ => none
  | fuel + 1, s, current, path => do
    let elem := path.takeWhile (· ≠ slash)
    let rest := (path.dropWhile (· ≠ slash)).dropWhile (· = slash)
    match ← s.turn disk resolve current elem rest with
    | .done s r => some (s, r)
    | .found s current new kind =>
      if askForDir = true ∧ kind ≠ .dir then
        some (s.setErrno .enotdir, ⟨some current, none, some elem⟩)
      else some (s, ⟨some current, some new, some elem⟩)
    | .down s n => walk disk resolve askForDir fuel s n rest

/-- `path2node` on a path that is not empty, with `ask_for_dir`. -/
def path2nodeFrom (disk : Disk) (resolve : Resolve) (askForDir : Bool) (s : Tree)
    (parent : Option Nat) (path : Path) : Option (Tree × Res) := do
  let parent ← parent
  let current ← s.reduce parent
  let (s, ok) ← s.populate disk current
  if ok = false then some (s, .null)
  else if path.head? = some slash then
    let current ← s.reduce s.root
    let rest := path.dropWhile (· = slash)
    if rest = [] then some (s, ⟨some current, some current, some [slash]⟩)
    else walk disk resolve askForDir path.length s current rest
  else walk disk resolve askForDir path.length s current path

/-- `ask_for_dir`. -/
def askForDir (path : Path) : Bool := path.getLast? = some slash

/-- `path2node`, for links that are nested less than `depth` deep. -/
def path2node (disk : Disk) : Nat → Tree → Option Nat → Option Path → Option (Tree × Res)
  | 0, _, _, _ => none
  | depth + 1, s, parent, path =>
    match path with
    | none | some [] => some (s.setErrno .enoent, .null)
    | some path => path2nodeFrom disk (path2node disk depth) (askForDir path) s parent path

/-- `reduce_node(node, true)`. -/
def reduceFollow (disk : Disk) (depth : Nat) : Nat → Tree → Nat → Option (Tree × Option Nat)
  | 0, _, _ => none
  | fuel + 1, s, n => do
    let v ← s.node n
    match v.redir, v.mountpoint, v.symlinkTarget with
    | some m, _, _ => reduceFollow disk depth fuel s m
    | none, some m, _ => reduceFollow disk depth fuel s m
    | none, none, some target =>
      if v.symlinkTargetFreed then none
      else do
        let (s, r) ← s.path2node disk depth v.parent (some target)
        match r.target with
        | none => some (s, none)
        | some t => reduceFollow disk depth fuel s t
    | none, none, none => some (s, some n)

/-- `vfs_get_node`. -/
def getNode (disk : Disk) (depth : Nat) (s : Tree) (parent : Option Nat) (path : Option Path)
    (followLinks : Bool) : Option (Tree × Option Nat) := do
  let (s, r) ← s.path2node disk depth parent path
  match r.target with
  | none => some (s, none)
  | some t => if followLinks then reduceFollow disk depth depth s t else some (s, some t)

/-! ## The operations -/

/-- `vfs_create` for a mode of a type; `made` says whether the file system has made a node. -/
def create (disk : Disk) (depth : Nat) (s : Tree) (parent : Option Nat) (name : Option Path)
    (kind : Kind) (made : Bool) : Option (Tree × Option Nat) := do
  let (s, r) ← s.path2node disk depth parent name
  match r.targetParent, r.target, r.basename with
  | none, _, _ => some (s, none)
  | some _, some _, _ => some (s.setErrno .eexist, none)
  | some targetParent, none, basename => do
    let basename ← basename
    let v ← s.node targetParent
    let fs ← v.filesystem
    let target := s.nodes.length
    if made then
      let s := s.push (newNode (some fs) (some targetParent) (kind = .dir) (some kind) none none)
      let s ← s.sinsert targetParent basename (some target)
      if kind = .dir then
        let s ← s.createDotentries target targetParent
        some (s, some target)
      else some (s, some target)
    else none

/-- `vfs_symlink`. A node that the file system has not made is inserted all the same. -/
def symlink (disk : Disk) (depth : Nat) (s : Tree) (parent : Option Nat) (dest : Path)
    (target : Option Path) (made : Bool) : Option (Tree × Option Nat) := do
  let (s, r) ← s.path2node disk depth parent target
  match r.targetParent, r.target, r.basename with
  | none, _, _ => some (s, none)
  | some _, some _, _ => some (s.setErrno .eexist, none)
  | some targetParent, none, basename => do
    let basename ← basename
    let v ← s.node targetParent
    let fs ← v.filesystem
    if fs.symlink = false then none
    else
      let targetNode := if made then some s.nodes.length else none
      let s := if made then
          s.push (newNode (some fs) (some targetParent) false (some .lnk) none (some dest))
        else s
      let s ← s.sinsert targetParent basename targetNode
      some (s, targetNode)

/-- `vfs_unlink`; `unref` says what the function of the resource returns. -/
def unlink (disk : Disk) (depth : Nat) (s : Tree) (parent : Option Nat) (path : Option Path)
    (unref : Bool) : Option (Tree × Bool) := do
  let (s, r) ← s.path2node disk depth parent path
  match r.targetParent, r.target, r.basename with
  | none, _, _ => some (s, false)
  | some _, none, _ => some (s, false)
  | some targetParent, some target, basename => do
    let basename ← basename
    let v ← s.node target
    if v.mountpoint ≠ none then some (s.setErrno .ebusy, false)
    else
      let (s, found) ← s.sremove targetParent basename
      if found = false then some (s, false)
      else
        let v ← s.node target
        let kind ← v.resource
        if unref = false then some (s, false)
        else if v.symlinkTargetFreed ∨ v.childrenFreed then none
        else
          some (s.setNode target { v with
            symlinkTargetFreed := v.symlinkTarget.isSome
            childrenFreed := kind == .dir }, true)

/-- `unix_bind`. The node gets the resource of the socket, which has the same type. -/
def unixBind (disk : Disk) (depth : Nat) (s : Tree) (cwd : Nat) (sunPath : Path) (made : Bool) :
    Option (Tree × Bool) := do
  let (s, n) ← s.create disk depth (some cwd) (some sunPath) .other made
  some (s, n.isSome)

/-- `get_parent_dir`, where `dir` is what it finds for the number of the directory. -/
def getParentDir (s : Tree) (dir : Option Nat) (path : Option Path) : Option Nat :=
  if (path.bind List.head?) = some slash then some s.root else dir

/-- `syscall_linkat`; `made` says whether the file system has made a node. -/
def linkat (disk : Disk) (depth : Nat) (s : Tree) (olddir : Option Nat) (oldPath : Option Path)
    (newdir : Option Nat) (newPath : Option Path) (symlinkNofollow made : Bool) :
    Option (Tree × Int) :=
  if oldPath = none ∨ oldPath = some [] then some (s.setErrno .enoent, -1)
  else
    match s.getParentDir olddir oldPath, s.getParentDir newdir newPath with
    | none, _ => some (s, -1)
    | some _, none => some (s, -1)
    | some oldParent, some newParent => do
      let (s, oldRes) ← s.path2node disk depth (some oldParent) oldPath
      let (s, newRes) ← s.path2node disk depth (some newParent) newPath
      let oldTargetParent ← oldRes.targetParent
      let newTargetParent ← newRes.targetParent
      let old ← s.node oldTargetParent
      let new ← s.node newTargetParent
      if old.filesystem ≠ new.filesystem then some (s.setErrno .exdev, -1)
      else
        let (s, oldNode) ← s.getNode disk depth (some oldParent) oldPath (!symlinkNofollow)
        match oldNode with
        | none => some (s, -1)
        | some oldNode => do
          let basename ← newRes.basename
          let fs ← new.filesystem
          let v ← s.node oldNode
          let kind ← v.resource
          if fs.link = false then none
          else if kind = .dir then some (s.setErrno .eisdir, -1)
          else if made = false then some (s, -1)
          else
            let n := s.nodes.length
            let s := s.push (newNode (some fs) (some newTargetParent) false (some kind) none none)
            let s ← s.sinsert newTargetParent basename (some n)
            some (s, 0)

/-- `syscall_mkdirat`. -/
def mkdirat (disk : Disk) (depth : Nat) (s : Tree) (dir : Option Nat) (path : Option Path)
    (made : Bool) : Option (Tree × Int) :=
  if path = none ∨ path = some [] then some (s.setErrno .enoent, -1)
  else do
    let (s, r) ← s.path2node disk depth (s.getParentDir dir path) path
    match r.targetParent with
    | none => some (s.setErrno .enoent, -1)
    | some parent => do
      let (s, n) ← s.create disk depth (some parent) r.basename .dir made
      some (s, if n = none then -1 else 0)

/-- `syscall_unlinkat`. -/
def unlinkat (disk : Disk) (depth : Nat) (s : Tree) (dir : Option Nat) (path : Option Path)
    (removedir unref : Bool) : Option (Tree × Int) :=
  if path = none ∨ path = some [] then some (s.setErrno .enoent, -1)
  else do
    let (s, r) ← s.path2node disk depth (s.getParentDir dir path) path
    if r.target = none ∧ s.errno = some .enoent then some (s, -1)
    else
      let n ← r.target
      let v ← s.node n
      let kind ← v.resource
      if kind = .dir ∧ removedir = false then some (s.setErrno .eisdir, -1)
      else
        let (s, _) ← s.unlink disk depth r.targetParent r.basename unref
        some (s, 0)

end Tree

/-! ## Calls -/

/-- The operations, each with what its file system and its resource do. -/
inductive Call
  | create (parent : Nat) (name : Path) (kind : Kind) (made : Bool)
  | symlink (parent : Nat) (dest target : Path) (made : Bool)
  | bind (cwd : Nat) (sunPath : Path) (made : Bool)
  | linkat (olddir : Option Nat) (oldPath : Option Path) (newdir : Option Nat)
      (newPath : Option Path) (symlinkNofollow made : Bool)
  | mkdirat (dir : Option Nat) (path : Option Path) (made : Bool)
  | unlink (parent : Nat) (path : Path) (unref : Bool)
  | unlinkat (dir : Option Nat) (path : Option Path) (removedir unref : Bool)

/-- What a call leaves. -/
def Tree.run (disk : Disk) (depth : Nat) (s : Tree) : Call → Option Tree
  | .create parent name kind made =>
    (s.create disk depth (some parent) (some name) kind made).map Prod.fst
  | .symlink parent dest target made =>
    (s.symlink disk depth (some parent) dest (some target) made).map Prod.fst
  | .bind cwd sunPath made => (s.unixBind disk depth cwd sunPath made).map Prod.fst
  | .linkat olddir oldPath newdir newPath symlinkNofollow made =>
    (s.linkat disk depth olddir oldPath newdir newPath symlinkNofollow made).map Prod.fst
  | .mkdirat dir path made => (s.mkdirat disk depth dir path made).map Prod.fst
  | .unlink parent path unref =>
    (s.unlink disk depth (some parent) (some path) unref).map Prod.fst
  | .unlinkat dir path removedir unref =>
    (s.unlinkat disk depth dir path removedir unref).map Prod.fst

/-- A call that returns, whatever the file systems read meanwhile. -/
def Step (s : Tree) (call : Disk × Call) (s' : Tree) : Prop :=
  ∃ depth, s.run call.1 depth call.2 = some s'

end Lyre.Vfs

/-!
## Mounting in `fs/vfs/vfs.c`

`vfs_init` and `vfs_mount`, with tmpfs as the file system that is mounted.
-/

namespace Lyre.Vfs

/-- What `tmpfs_instantiate` makes. -/
def tmpfs (id : Nat) : Filesystem := ⟨id, false, true, true⟩

namespace Tree

/-- `vfs_init`. -/
def vfsInit : Tree where
  nodes := [newNode none none false none none none]
  root := 0
  errno := none

/-- `tmpfs_mount`, with memory. -/
def tmpfsMount (s : Tree) (parent : Option Nat) : Tree :=
  s.push (newNode (some (tmpfs s.nodes.length)) parent true (some .dir) none none)

/-- The part of `vfs_mount` that looks for the source, which must not be a directory. -/
def mountSource (disk : Disk) (depth : Nat) (s : Tree) (parent : Option Nat) (source : Option Path) :
    Option (Tree × Bool) :=
  match source with
  | none | some [] => some (s, true)
  | some source => do
    let (s, rr) ← s.path2node disk depth parent (some source)
    match rr.target with
    | none => some (s, false)
    | some sourceNode => do
      let v ← s.node sourceNode
      let kind ← v.resource
      if kind = .dir then some (s.setErrno .eisdir, false) else some (s, true)

/-- The part of `vfs_mount` that is left when there is a directory to mount on; `made` says whether
there is memory for the file system. -/
def mountOn (s : Tree) (target : Nat) (targetParent : Option Nat) (made : Bool) :
    Option (Tree × Bool) :=
  if made then do
    let mountNode := s.nodes.length
    let s := s.tmpfsMount targetParent
    let v ← s.node target
    let s := s.setNode target { v with mountpoint := some mountNode }
    let parent ← targetParent
    let s ← s.createDotentries mountNode parent
    some (s, true)
  else some (s, false)

/-- `vfs_mount`; `registered` says whether there is a file system of the name. -/
def mount (disk : Disk) (depth : Nat) (s : Tree) (parent : Option Nat) (source target : Option Path)
    (registered made : Bool) : Option (Tree × Bool) :=
  if registered = false then some (s.setErrno .enodev, false)
  else do
    let (s, found) ← s.mountSource disk depth parent source
    if found = false then some (s, false)
    else
      let (s, r) ← s.path2node disk depth parent target
      match r.target with
      | none => some (s, false)
      | some t =>
        if t = s.root then s.mountOn t r.targetParent made
        else do
          let v ← s.node t
          let kind ← v.resource
          if kind = .dir then s.mountOn t r.targetParent made
          else some (s.setErrno .eisdir, false)

end Tree

/-- The calls that build a tree without links. -/
inductive Growth
  | create (parent : Nat) (name : Path) (kind : Kind) (made : Bool)
  | mount (parent : Nat) (source : Option Path) (target : Path) (registered made : Bool)

def Tree.grow (s : Tree) (disk : Disk) (depth : Nat) : Growth → Option Tree
  | .create parent name kind made =>
    (s.create disk depth (some parent) (some name) kind made).map Prod.fst
  | .mount parent source target registered made =>
    (s.mount disk depth (some parent) source (some target) registered made).map Prod.fst

/-- A call that returns, whatever the file systems read meanwhile. -/
def Grows (s : Tree) (call : Disk × Growth) (s' : Tree) : Prop :=
  ∃ depth, s.grow call.1 depth call.2 = some s'

/-- The tree with a file system mounted on `/`, as `kmain` leaves it. -/
def Booted (s : Tree) : Prop :=
  ∃ disk depth, Tree.vfsInit.mount disk depth (some 0) none (some [slash]) true true = some (s, true)

end Lyre.Vfs

/-!
## `syscall_openat` and `syscall_stat`, and the working directory

What a descriptor or a stat buffer is made of is left out: the calls return the node whose resource is
opened, or whose stat is copied. `dir` is what `get_parent_dir` finds for the number of the directory.

The names that nodes are created with are an argument of `vfs_pathname`. Where it writes or reads
outside of the buffer that `syscall_getcwd` has on its stack, or calls itself without end, there is no
result.
-/

namespace Lyre.Vfs

structure OpenFlags where
  creat : Bool
  nofollow : Bool
  directory : Bool

structure StatFlags where
  nofollow : Bool
  emptyPath : Bool

namespace Tree

/-- `vfs_fdnum_path_to_node`, as `syscall_openat` calls it: the result of `path2node`, or `none` for
an empty path. A directory that is not found is not noticed. -/
def fdnumPathToNode (disk : Disk) (depth : Nat) (s : Tree) (dir : Option Nat) (path : Option Path) :
    Option (Tree × Option Res) :=
  if path = none ∨ path = some [] then some (s.setErrno .enoent, none)
  else do
    let (s, r) ← s.path2node disk depth (s.getParentDir dir path) path
    some (s, some r)

/-- The end of `syscall_openat`, when it has a node; `fd` says whether there is memory and a slot for
the descriptor. -/
def openFound (disk : Disk) (depth : Nat) (s : Tree) (n : Nat) (directory fd : Bool) :
    Option (Tree × Option Nat) := do
  let v ← s.node n
  let kind ← v.resource
  if kind = .lnk then some (s.setErrno .eloop, none)
  else
    let (s, n) ← s.reduceFollow disk depth depth n
    match n with
    | none => some (s, none)
    | some n => do
      let v ← s.node n
      let kind ← v.resource
      if kind ≠ .dir ∧ directory = true then some (s.setErrno .enotdir, none)
      else if fd then some (s, some n) else some (s, none)

/-- `syscall_openat`; `made` says whether the file system makes a file. -/
def openat (disk : Disk) (depth : Nat) (s : Tree) (dir : Option Nat) (path : Option Path)
    (flags : OpenFlags) (made fd : Bool) : Option (Tree × Option Nat) := do
  let (s, r) ← s.fdnumPathToNode disk depth dir path
  match r with
  | none => some (s, none)
  | some r =>
    match r.targetParent with
    | none => some (s.setErrno .enoent, none)
    | some parent => do
      let (s, n) ← s.getNode disk depth (some parent) r.basename (!flags.nofollow)
      match n with
      | some n => s.openFound disk depth n flags.directory fd
      | none =>
        if flags.creat then do
          let (s, n) ← s.create disk depth (some parent) r.basename .other made
          match n with
          | none => some (s, none)
          | some n => s.openFound disk depth n flags.directory fd
        else some (s.setErrno .enoent, none)

/-- `syscall_stat`, with a buffer; `self` is what the number of the directory itself stands for. -/
def stat (disk : Disk) (depth : Nat) (s : Tree) (dir self : Option Nat) (path : Option Path)
    (flags : StatFlags) : Option (Tree × Option Nat) := do
  let path ← path
  if path = [] then
    if flags.emptyPath = false then some (s.setErrno .enoent, none) else some (s, self)
  else
    match s.getParentDir dir (some path) with
    | none => some (s, none)
    | some parent => do
      let (s, n) ← s.getNode disk depth (some parent) (some path) (!flags.nofollow)
      match n with
      | none => some (s, none)
      | some n => do
        let v ← s.node n
        let _ ← v.resource
        some (s, some n)

/-! ## The working directory -/

/-- The difference of two numbers of the type `size_t`. -/
def sizeSub (a b : Nat) : Nat := (a + 2 ^ 64 - b) % 2 ^ 64

/-- `strncpy(buffer + offset, name, n)`. -/
def strncpyAt (buffer : List (BitVec 8)) (offset : Nat) (name : Key) (n : Nat) :
    Option (List (BitVec 8)) :=
  if offset + n ≤ buffer.length then
    some (buffer.take offset ++ (name.take n ++ List.replicate (n - name.length) 0) ++
      buffer.drop (offset + n))
  else none

/-- The directory whose name `vfs_pathname` writes before that of a node, if it does. -/
def above (s : Tree) (v : VfsNode) : Option (Option Nat) :=
  match v.parent with
  | none => some none
  | some parent =>
    if parent = s.root then some none
    else do
      let parent ← s.reduce parent
      some (if parent = s.root then none else some parent)

/-- `vfs_pathname`, for paths of less than `fuel` names. -/
def vfsPathname (names : Nat → Key) (s : Tree) :
    Nat → Nat → List (BitVec 8) → Nat → Option (List (BitVec 8) × Nat)
  | 0, _, _, _ => none
  | fuel + 1, n, buffer, len => do
    let v ← s.node n
    let parent ← s.above v
    let (buffer, offset) ←
      match parent with
      | none => some (buffer, 0)
      | some parent => do
        let (buffer, offset) ← vfsPathname names s fuel parent buffer (sizeSub len 1)
        if offset < buffer.length then some (buffer.set offset slash, offset + 1) else none
    if names n = [slash] then some (buffer, offset)
    else do
      let buffer ← strncpyAt buffer offset (names n) (sizeSub len offset)
      some (buffer, (names n).length + offset)

/-- The string that `strncpy` copies out of the buffer on the stack. -/
def copyOut (pathBuffer : List (BitVec 8)) (len : Nat) : Option Path :=
  if 0 ∈ pathBuffer ∨ len ≤ pathBuffer.length then
    some ((pathBuffer.takeWhile (· ≠ 0)).take len)
  else none

/-- `syscall_getcwd`, with the string that it puts into the buffer of the user. -/
def getcwd (names : Nat → Key) (fuel : Nat) (s : Tree) (cwd len : Nat) :
    Option (Tree × Option Path) := do
  let (pathBuffer, n) ← s.vfsPathname names fuel cwd (List.replicate 4096 0) 4096
  if len ≤ n then some (s.setErrno .erange, none)
  else do
    let path ← copyOut pathBuffer len
    some (s, some path)

/-- `syscall_chdir`, with the working directory that it leaves. -/
def chdir (disk : Disk) (depth : Nat) (s : Tree) (cwd : Nat) (path : Option Path) :
    Option (Tree × Nat × Int) :=
  match path with
  | none => some (s.setErrno .einval, cwd, -1)
  | some [] => some (s.setErrno .enoent, cwd, -1)
  | some path => do
    let (s, node) ← s.getNode disk depth (some cwd) (some path) true
    match node with
    | none => some (s.setErrno .enoent, cwd, -1)
    | some node => do
      let v ← s.node node
      let kind ← v.resource
      if kind ≠ .dir then some (s.setErrno .enotdir, cwd, -1) else some (s, node, 0)

end Tree

end Lyre.Vfs

/-!
## Where a name is inserted

`vfs_create`, `vfs_symlink` and `syscall_linkat` once more, up to where they insert the name of a new
node: what they pass to `HASHMAP_SINSERT`, or the tree that they leave if they return before.
-/

namespace Lyre.Vfs

inductive Until
  | returned (s : Tree)
  | inserting (s : Tree) (targetParent : Nat) (basename : Key) (item : Option Nat)

namespace Tree

/-- `vfs_create`, up to the insertion. -/
def createUntil (disk : Disk) (depth : Nat) (s : Tree) (parent : Option Nat) (name : Option Path)
    (kind : Kind) (made : Bool) : Option Until := do
  let (s, r) ← s.path2node disk depth parent name
  match r.targetParent, r.target, r.basename with
  | none, _, _ => some (.returned s)
  | some _, some _, _ => some (.returned (s.setErrno .eexist))
  | some targetParent, none, basename => do
    let basename ← basename
    let v ← s.node targetParent
    let fs ← v.filesystem
    let target := s.nodes.length
    if made then
      let s := s.push (newNode (some fs) (some targetParent) (kind = .dir) (some kind) none none)
      some (.inserting s targetParent basename (some target))
    else some (.inserting s targetParent basename none)

/-- `vfs_symlink`, up to the insertion. -/
def symlinkUntil (disk : Disk) (depth : Nat) (s : Tree) (parent : Option Nat) (dest : Path)
    (target : Option Path) (made : Bool) : Option Until := do
  let (s, r) ← s.path2node disk depth parent target
  match r.targetParent, r.target, r.basename with
  | none, _, _ => some (.returned s)
  | some _, some _, _ => some (.returned (s.setErrno .eexist))
  | some targetParent, none, basename => do
    let basename ← basename
    let v ← s.node targetParent
    let fs ← v.filesystem
    if fs.symlink = false then none
    else
      let targetNode := if made then some s.nodes.length else none
      let s := if made then
          s.push (newNode (some fs) (some targetParent) false (some .lnk) none (some dest))
        else s
      some (.inserting s targetParent basename targetNode)

/-- `syscall_linkat`, up to the insertion. -/
def linkatUntil (disk : Disk) (depth : Nat) (s : Tree) (olddir : Option Nat) (oldPath : Option Path)
    (newdir : Option Nat) (newPath : Option Path) (symlinkNofollow made : Bool) : Option Until :=
  if oldPath = none ∨ oldPath = some [] then some (.returned (s.setErrno .enoent))
  else
    match s.getParentDir olddir oldPath, s.getParentDir newdir newPath with
    | none, _ => some (.returned s)
    | some _, none => some (.returned s)
    | some oldParent, some newParent => do
      let (s, oldRes) ← s.path2node disk depth (some oldParent) oldPath
      let (s, newRes) ← s.path2node disk depth (some newParent) newPath
      let oldTargetParent ← oldRes.targetParent
      let newTargetParent ← newRes.targetParent
      let old ← s.node oldTargetParent
      let new ← s.node newTargetParent
      if old.filesystem ≠ new.filesystem then some (.returned (s.setErrno .exdev))
      else
        let (s, oldNode) ← s.getNode disk depth (some oldParent) oldPath (!symlinkNofollow)
        match oldNode with
        | none => some (.returned s)
        | some oldNode => do
          let basename ← newRes.basename
          let fs ← new.filesystem
          let v ← s.node oldNode
          let kind ← v.resource
          if fs.link = false then none
          else if kind = .dir then some (.returned (s.setErrno .eisdir))
          else if made = false then some (.returned s)
          else
            let n := s.nodes.length
            let s := s.push (newNode (some fs) (some newTargetParent) false (some kind) none none)
            some (.inserting s newTargetParent basename (some n))

end Tree

/-- The calls that insert a name into a directory themselves. -/
inductive Insertion
  | create (parent : Nat) (name : Path) (kind : Kind) (made : Bool)
  | symlink (parent : Nat) (dest target : Path) (made : Bool)
  | linkat (olddir : Option Nat) (oldPath : Option Path) (newdir : Option Nat)
      (newPath : Option Path) (symlinkNofollow made : Bool)

/-- A call, up to the insertion. -/
def Tree.insertUntil (disk : Disk) (depth : Nat) (s : Tree) : Insertion → Option Until
  | .create parent name kind made => s.createUntil disk depth (some parent) (some name) kind made
  | .symlink parent dest target made =>
    s.symlinkUntil disk depth (some parent) dest (some target) made
  | .linkat olddir oldPath newdir newPath symlinkNofollow made =>
    s.linkatUntil disk depth olddir oldPath newdir newPath symlinkNofollow made

/-- A call, with whether it succeeds. -/
def Tree.insertName (disk : Disk) (depth : Nat) (s : Tree) : Insertion → Option (Tree × Bool)
  | .create parent name kind made =>
    (s.create disk depth (some parent) (some name) kind made).map fun x => (x.1, x.2.isSome)
  | .symlink parent dest target made =>
    (s.symlink disk depth (some parent) dest (some target) made).map fun x => (x.1, x.2.isSome)
  | .linkat olddir oldPath newdir newPath symlinkNofollow made =>
    (s.linkat disk depth olddir oldPath newdir newPath symlinkNofollow made).map fun x =>
      (x.1, x.2 = 0)

/-- What is left of a call behind the insertion. -/
def Tree.insertEnd (s : Tree) (targetParent : Nat) (item : Option Nat) :
    Insertion → Option (Tree × Bool)
  | .create _ _ kind _ => do
    let target ← item
    if kind = .dir then
      let s ← s.createDotentries target targetParent
      some (s, true)
    else some (s, true)
  | _ => some (s, item.isSome)

end Lyre.Vfs
