import Lyre.Infra.Bytes
import Lyre.Infra.Linked
import Lyre.Lib.Misc
import Mathlib.Logic.Function.Basic

/-!
# Cluster chains of `fs/fat32fs.c`

Of the device, the copies of the FAT and the clusters are modelled. Only entries that belong to a
cluster can be read and written here; what the code finds behind them is no entry, and a call that
goes there has no result, as one that fails an assertion or does not end. Reads and writes of the
device itself succeed.
-/

namespace Lyre.Fat32

open Infra

abbrev Byte := BitVec 8

def finalCluster : Nat := 0xffffff8

/-- `IS_FINALCLUSTER`. -/
abbrev IsFinalCluster (c : Nat) : Prop := finalCluster ≤ c

/-- `struct fat32fs`: what of it the chains need, and the device. -/
structure Fat32fs where
  /-- `br.fatcount`. -/
  fatcount : Nat
  /-- `fsinfo.free` and `fsinfo.startat`. -/
  free : Nat
  startat : Nat
  clustersize : Nat
  /-- The number of entries of a FAT, the two reserved ones included. -/
  entries : Nat
  /-- The entries of each copy. -/
  fat : Nat → Nat → Nat
  /-- The bytes of each cluster. -/
  data : Nat → Nat → Byte

namespace Fat32fs

/-- `fat32fs_next`, which reads the first copy. -/
def next (fs : Fat32fs) (cluster : Nat) : Option Nat :=
  if cluster < fs.entries then some (fs.fat 0 cluster) else none

/-- One turn of `fat32fs_setnext`. -/
def setEntry (cluster val : Nat) (fat : Nat → Nat → Nat) (copy : Nat) : Nat → Nat → Nat :=
  Function.update fat copy (Function.update (fat copy) cluster val)

/-- `fat32fs_setnext`: the entry changes on all FATs. -/
def setnext (fs : Fat32fs) (cluster val : Nat) : Option Fat32fs :=
  if cluster < fs.entries then
    some { fs with fat := (List.range fs.fatcount).foldl (setEntry cluster val) fs.fat }
  else none

/-- `fat32fs_skip`; the flag is `*end`. -/
def skip (fs : Fat32fs) (cluster : Nat) : Nat → Option (Nat × Bool)
  | 0 => some (cluster, false)
  | count + 1 => do
    let next ← fs.next cluster
    if IsFinalCluster next then some (cluster, true) else skip fs next count

/-- More turns than a loop over the entries has before it repeats itself. -/
def turns (fs : Fat32fs) : Nat := fs.entries + 2

def getchainsizeLoop (fs : Fat32fs) : Nat → Nat → Nat → Option Nat
  | 0, _, _ => none
  | fuel + 1, cluster, count =>
    if IsFinalCluster cluster then some count
    else do
      let next ← fs.next cluster
      getchainsizeLoop fs fuel next (count + 1)

/-- `fat32fs_getchainsize`. -/
def getchainsize (fs : Fat32fs) (cluster : Nat) : Option Nat :=
  getchainsizeLoop fs fs.turns cluster 0

/-- `fat32fs_rwcluster` with the zeroed buffer, which is one cluster long. -/
def zero (fs : Fat32fs) (cluster : Nat) : Fat32fs :=
  { fs with
    data := Function.update fs.data cluster fun i =>
      if i < fs.clustersize then 0 else fs.data cluster i }

def nextfreeLoop (fs : Fat32fs) : Nat → Nat → Option Nat
  | 0, _ => none
  | fuel + 1, cluster =>
    if cluster = 0 then some 0
    else do
      let next ← fs.next cluster
      if next = 0 then some cluster else nextfreeLoop fs fuel ((cluster + 1) % 2 ^ 32)

/-- `nextfree`. -/
def nextfree (fs : Fat32fs) (cluster : Nat) : Option Nat := nextfreeLoop fs fs.turns cluster

def freeclustersLoop : Nat → Fat32fs → Nat → Option Fat32fs
  | 0, _, _ => none
  | fuel + 1, fs, cluster =>
    if IsFinalCluster cluster then some fs
    else do
      let next ← fs.next cluster
      let fs ← fs.setnext cluster 0
      let fs := { fs with
        free := (fs.free + 1) % 2 ^ 32
        startat := if cluster < fs.startat then cluster else fs.startat }
      freeclustersLoop fuel fs next

/-- `fat32fs_freeclusters`. -/
def freeclusters (fs : Fat32fs) (cluster : Nat) : Option Fat32fs :=
  freeclustersLoop fs.turns fs cluster

/-- The loop of `fat32fs_allocateclusters`, with the cluster it is at, and false where it goes to
`_fail`. -/
def allocateLoop : Nat → Fat32fs → Nat → Option (Fat32fs × Nat × Bool)
  | 0, fs, cluster => some (fs, cluster, true)
  | count + 1, fs, cluster => do
    let next ← fs.nextfree ((cluster + 1) % 2 ^ 32)
    if next = 0 then
      let fs ← fs.setnext cluster finalCluster
      some (fs, cluster, false)
    else
      let fs ← fs.setnext cluster next
      allocateLoop count (fs.zero cluster) next

/-- `fat32fs_allocateclusters`; `memory` says whether there is memory for `zerobuf`. -/
def allocateclusters (fs : Fat32fs) (count : Nat) (memory : Bool) : Option (Fat32fs × Nat) :=
  if fs.free < count then some (fs, 0)
  else do
    let ret ← fs.nextfree fs.startat
    if ret = 0 then some (fs, 0)
    else if memory = false then some (fs, 0)
    else
      let (fs, cluster, ok) ← allocateLoop (u64 (count + (2 ^ 64 - 1))) fs ret
      if ok then
        let fs ← (fs.zero cluster).setnext cluster finalCluster
        some ({ fs with free := fs.free - count, startat := cluster }, ret)
      else
        let fs ← fs.freeclusters ret
        some (fs, 0)

/-- `fat32fs_resize`, with the value that is returned and `*newstart`. `diff` is an `ssize_t`. -/
def resize (fs : Fat32fs) (cluster oldsize newsize : Nat) (memory : Bool) :
    Option (Fat32fs × Bool × Nat) :=
  let diff := (BitVec.ofNat 64 newsize - BitVec.ofNat 64 oldsize).toInt
  if diff = 0 then some (fs, true, cluster)
  else if cluster = 0 then do
    let (fs, newstart) ← fs.allocateclusters newsize memory
    some (fs, decide (0 < newstart), newstart)
  else if newsize = 0 then do
    let fs ← fs.freeclusters cluster
    some (fs, true, 0)
  else if 0 < diff then do
    let (last, isEnd) ← fs.skip cluster (2 ^ 64 - 1)
    if isEnd then
      let (fs, allocated) ← fs.allocateclusters diff.toNat memory
      if allocated = 0 then some (fs, false, cluster)
      else
        let fs ← fs.setnext last allocated
        some (fs, true, cluster)
    else none
  else do
    let (last, isEnd) ← fs.skip cluster (newsize - 1)
    if isEnd then none
    else
      let next ← fs.next last
      let fs ← fs.setnext last finalCluster
      let fs ← fs.freeclusters next
      some (fs, true, cluster)

end Fat32fs

/-! ## Files -/

/-- The file system and the first cluster of each file, which is 0 for a file without clusters. -/
structure Disk (F : Type) where
  fs : Fat32fs
  start : F → Nat

/-- The calls on the chain of a file. Clusters are allocated for a file that has none, and at least
one of them; only clusters that a file has are given back. -/
inductive Call (F : Type) where
  | allocate (file : F) (count : Nat) (memory : Bool)
  | free (file : F)
  | resize (file : F) (newsize : Nat) (memory : Bool)

namespace Disk

variable {F : Type}

def setStart [DecidableEq F] (s : Disk F) (fs : Fat32fs) (file : F) (start : Nat) : Disk F :=
  ⟨fs, Function.update s.start file start⟩

/-- The size of a chain as it is. -/
def chainsize (s : Disk F) (file : F) : Option Nat :=
  if s.start file = 0 then some 0 else s.fs.getchainsize (s.start file)

/-- What a call leaves, with whether it succeeds. -/
def run [DecidableEq F] (s : Disk F) : Call F → Option (Disk F × Bool)
  | .allocate file count memory =>
    if s.start file = 0 ∧ 0 < count ∧ count < 2 ^ 64 then do
      let (fs, ret) ← s.fs.allocateclusters count memory
      some (s.setStart fs file ret, decide (ret ≠ 0))
    else none
  | .free file =>
    if s.start file ≠ 0 then do
      let fs ← s.fs.freeclusters (s.start file)
      some (s.setStart fs file 0, true)
    else none
  | .resize file newsize memory =>
    if newsize < 2 ^ 64 then do
      let oldsize ← s.chainsize file
      let (fs, ok, newstart) ← s.fs.resize (s.start file) oldsize newsize memory
      some (s.setStart fs file (if ok then newstart else s.start file), ok)
    else none

/-- One call. -/
def Step [DecidableEq F] (s : Disk F) (call : Call F) (s' : Disk F) : Prop := ∃ ok, s.run call = some (s', ok)

/-- The clusters of a file. -/
def chain (s : Disk F) (file : F) : List Nat :=
  if s.start file = 0 then []
  else follow (s.fs.fat 0) IsFinalCluster (s.fs.entries + 1) (s.start file)

end Disk

end Lyre.Fat32

/-!
## Reads and writes of `fs/fat32fs.c`

Here the device is its bytes, and the FATs and clusters of `Fs/Fat32.lean` are what is found in them
(`Volume.chains`). A buffer begins at 0. Reads and writes of the device itself succeed, and a call
that fails an assertion has no result.
-/

namespace Lyre.Fat32

open Infra.Bytes

/-- `struct fat32fs` as it is after the mount. -/
structure Volume where
  /-- `br.fatcount`. -/
  fatcount : Nat
  /-- `fsinfo.free` and `fsinfo.startat`. -/
  free : Nat
  startat : Nat
  clustersize : Nat
  /-- The number of clusters. The first of them is cluster 2. -/
  clustercount : Nat
  fatoffset : Nat
  /-- `br.sectorsperfat` sectors. -/
  fatsize : Nat
  dataoffset : Nat

/-- What a transfer changes. -/
structure Transfer where
  device : Mem
  buffer : Mem

namespace Volume

/-- `fat32fs_clusterdiskoffset`. -/
def clusterdiskoffset (fs : Volume) (cluster : Nat) : Nat :=
  fs.dataoffset + fs.clustersize * (cluster - 2)

/-- The copies of the FAT and the clusters that are on a device. -/
def chains (fs : Volume) (device : Mem) : Fat32fs where
  fatcount := fs.fatcount
  free := fs.free
  startat := fs.startat
  clustersize := fs.clustersize
  entries := fs.clustercount + 2
  fat copy cluster := read device (fs.fatoffset + fs.fatsize * copy + cluster * 4) 4
  data cluster i := device (fs.clusterdiskoffset cluster + i)

/-- The same with any number of entries: a FAT is as long as its sectors are, and a search in it
goes on as far as it finds words. -/
def table (fs : Volume) (device : Mem) (entries : Nat) : Fat32fs :=
  { fs.chains device with entries := entries }

/-- An entry in `fat32fs_updatefsinfo`. -/
def countEntry (device : Mem) (fs : Volume) (cluster : Nat) : Volume :=
  if read device (fs.fatoffset + cluster * 4) 4 = 0 then
    { fs with
      startat := if fs.startat = 0xffffffff then cluster % 2 ^ 32 else fs.startat
      free := (fs.free + 1) % 2 ^ 32 }
  else fs

/-- `fat32fs_updatefsinfo` for `br.sectorsperfat` and `st_blksize`. What it then writes lies in
front of the FAT. -/
def updatefsinfo (fs : Volume) (device : Mem) (sectorsperfat blksize : Nat) : Volume :=
  if fs.free = 0xffffffff ∨ fs.startat = 0xffffffff then
    (List.range sectorsperfat).foldl
      (fun fs sector => (List.range (blksize / 4)).foldl
        (fun fs cluster => countEntry device fs (cluster + sector * (blksize / 4))) fs)
      { fs with free := 0 }
  else fs

/-- `fat32fs_rwcluster`. The buffer that is passed begins at `buffer`. -/
def rwcluster (fs : Volume) (s : Transfer) (buffer cluster offset count : Nat) (write : Bool) :
    Transfer :=
  let diskoffset := fs.clusterdiskoffset cluster + offset
  if write then { s with device := put s.device diskoffset count fun k => s.buffer (buffer + k) }
  else { s with buffer := put s.buffer buffer count fun k => s.device (diskoffset + k) }

/-- The loop of `fat32fs_rwclusters` from turn `i` on, with `*endcluster` and the value that is
returned. -/
def rwclustersLoop (fs : Volume) (buffer : Nat) (write : Bool) :
    Nat → Nat → Transfer → Nat → Option (Transfer × Nat × Nat)
  | 0, i, s, cluster => some (s, cluster, i)
  | left + 1, i, s, cluster =>
    if cluster = 0 then none
    else if IsFinalCluster cluster then some (s, cluster, i)
    else if fs.clustercount ≤ cluster then none
    else do
      let s := fs.rwcluster s (buffer + fs.clustersize * i) cluster 0 fs.clustersize write
      let next ← (fs.chains s.device).next cluster
      rwclustersLoop fs buffer write left (i + 1) s next

/-- `fat32fs_rwclusters`. -/
def rwclusters (fs : Volume) (s : Transfer) (buffer cluster count : Nat) (write : Bool) :
    Option (Transfer × Nat × Nat) :=
  rwclustersLoop fs buffer write count 0 s cluster

/-- The part of `fat32fs_rwbytes` for the first cluster, with the cluster, the buffer and the count
that are left. -/
def rwfirst (fs : Volume) (s : Transfer) (cluster offset count : Nat) (write : Bool) :
    Option (Transfer × Nat × Nat × Nat) :=
  let clusteroffset := offset % fs.clustersize
  if 0 < clusteroffset then do
    let rcount := if fs.clustersize < count then fs.clustersize - clusteroffset else count
    let s := fs.rwcluster s 0 cluster clusteroffset rcount write
    let next ← (fs.chains s.device).next cluster
    some (s, next, rcount, count - rcount)
  else some (s, cluster, 0, count)

/-- The rest of it: the middle of the chain and the final cluster. -/
def rwrest (fs : Volume) (s : Transfer) (cluster buffer count : Nat) (write : Bool) :
    Option Transfer := do
  let clustersremaining := count / fs.clustersize
  let (s, cluster, _) ←
    if clustersremaining = 0 then some (s, cluster, 0)
    else fs.rwclusters s buffer cluster clustersremaining write
  let left := count - clustersremaining * fs.clustersize
  if 0 < left then
    some (fs.rwcluster s (buffer + clustersremaining * fs.clustersize) cluster 0 left write)
  else some s

/-- `fat32fs_rwbytes`. -/
def rwbytes (fs : Volume) (s : Transfer) (cluster offset count : Nat) (write : Bool) :
    Option Transfer := do
  let (cluster, isEnd) ← (fs.chains s.device).skip cluster (offset / fs.clustersize)
  if isEnd then none
  else
    let (s, cluster, buffer, left) ← fs.rwfirst s cluster offset count write
    fs.rwrest s cluster buffer left write

/-- The count of `fat32fs_resread`, as far as the file goes. -/
def resreadCount (stSize : Int) (offset count : Nat) : Nat :=
  let endoffset := (BitVec.ofNat 64 (offset + count)).toInt
  if stSize < endoffset then if stSize ≤ offset then 0 else (stSize - offset).toNat else count

/-- `fat32fs_resread`, with the number that it returns. -/
def resread (fs : Volume) (s : Transfer) (cluster : Nat) (stSize : Int) (offset count : Nat) :
    Option (Transfer × Int) :=
  let count := resreadCount stSize offset count
  if count = 0 then some (s, 0)
  else (fs.rwbytes s cluster offset count false).map fun s => (s, (BitVec.ofNat 64 count).toInt)

end Volume

end Lyre.Fat32
