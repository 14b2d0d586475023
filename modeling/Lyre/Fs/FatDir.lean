import Lyre.Fs.Ext2Dir
import Lyre.Fs.Fat32
import Mathlib.Data.Nat.Digits.Defs

/-!
# Directories of `fs/fat32fs.c`

A buffer is memory of its own, counted from its first byte. Only `namebuffer` begins at 13, as the
code can come to the 13 bytes in front of it. Reads and writes of the device itself succeed; a call
that returns an error or fails an assertion has no result.
-/

namespace Lyre.Fat32

open Infra Infra.Bytes

/-! ## `struct fat_direntry` and `struct fat_lfndirentry`, at an offset of a buffer -/

/-- The size of both. -/
def dentSize : Nat := 32

namespace Dent

variable (buf : Mem) (off : Nat)

def name (k : Nat) : Byte := buf (off + k)
def attributes : Byte := buf (off + 11)
def clusterhigh : Nat := read buf (off + 20) 2
def clusterlow : Nat := read buf (off + 26) 2
def size : Nat := read buf (off + 28) 4

/-- `DENT_GETCLUSTER`. -/
def cluster : Nat := clusterlow buf off ||| clusterhigh buf off <<< 16

end Dent

namespace Lfn

variable (buf : Mem) (off : Nat)

def order : Byte := buf off
def name1 (i : Nat) : Nat := read buf (off + 1 + 2 * i) 2
def checksum : Byte := buf (off + 13)
def name2 (i : Nat) : Nat := read buf (off + 14 + 2 * i) 2
def name3 (i : Nat) : Nat := read buf (off + 28 + 2 * i) 2

end Lfn

def attrVolumeid : Byte := 0x8
def attrDir : Byte := 0x10
def attrLfn : Byte := 0xf

/-- What the code takes for a record of a long name. -/
abbrev IsLfn (buf : Mem) (off : Nat) : Prop := Dent.attributes buf off &&& attrLfn ≠ 0

/-- `lfnchecksum`. -/
def lfnchecksum (shortname : Nat → Byte) : Byte :=
  (List.range 11).foldl (fun sum k => ((sum &&& 1) <<< 7) + (sum >>> 1) + shortname k) 0

/-- `fat32fs_copylfntostring`. -/
def copylfntostring (buf : Mem) (entry : Nat) (m : Mem) (str : Nat) : Mem :=
  let m := Bytes.put m str 5 fun i => BitVec.ofNat 8 (Lfn.name1 buf entry i)
  let m := Bytes.put m (str + 5) 6 fun i => BitVec.ofNat 8 (Lfn.name2 buf entry i)
  Bytes.put m (str + 11) 2 fun i => BitVec.ofNat 8 (Lfn.name3 buf entry i)

/-! ## `insertdent` -/

/-- The loop of `copytolfn`. A `char` is signed. -/
def copytolfnLoop (str : List Byte) (lfn : Nat) : Nat → Nat → Nat → Bool → Mem → Mem
  | 0, _, _, _, m => m
  | left + 1, i, slen, putnull, m =>
    if slen = 0 then
      if putnull then copytolfnLoop str lfn left (i + 1) slen putnull (write m (lfn + 2 * i) 2 0xffff)
      else copytolfnLoop str lfn left (i + 1) slen true (write m (lfn + 2 * i) 2 0)
    else
      copytolfnLoop str lfn left (i + 1) (slen - 1) putnull
        (write m (lfn + 2 * i) 2 ((str.getD i 0).signExtend 16).toNat)

/-- `copytolfn`. -/
def copytolfn (str : List Byte) (m : Mem) (lfn limit : Nat) : Mem :=
  copytolfnLoop str lfn limit 0 str.length false m

/-- What it returns. -/
def copied (str : List Byte) (limit : Nat) : Nat :=
  if str.length < limit then str.length else limit

/-- The record `ent` of the `i`-th part of a name. -/
def lfnEntry (name : List Byte) (entriesneeded : Nat) (checksum : Byte) (i : Nat) : Mem :=
  let ent : Mem := fun _ => 0
  let ent := write ent 11 1 attrLfn.toNat
  let ent := write ent 0 1 (i ||| if i + 1 = entriesneeded then 0x40 else 0)
  let ent := write ent 13 1 checksum.toNat
  let str₁ := name.drop ((i - 1) * 13)
  let str₂ := str₁.drop (copied str₁ 5)
  let str₃ := str₂.drop (copied str₂ 6)
  let ent := copytolfn str₁ ent 1 5
  let ent := copytolfn str₂ ent 14 6
  copytolfn str₃ ent 28 2

/-- What `snprintf` makes of `%011lu` in the name of an entry. -/
def shortname (n : Nat) : List Byte :=
  let digits := (Nat.digits 10 n).reverse.map fun d => BitVec.ofNat 8 (48 + d)
  (List.replicate (11 - digits.length) 48 ++ digits).take 11

/-- The resource of a directory: `st_blksize`, `st_blocks` and the bytes. A block is a cluster, and so
some sectors. -/
structure DirFile where
  blksize : Nat
  blocks : Nat
  data : Mem
  sectors : 512 ∣ blksize
  blksize_pos : 0 < blksize

namespace DirFile

def size (dir : DirFile) : Nat := dir.blksize * dir.blocks

def records (dir : DirFile) : Nat := dir.size / dentSize

/-- `fat32fs_reswrite` for a directory. New clusters are zeroed; `grow` says whether
`fat32fs_resize` has so many of them. -/
def reswrite (dir : DirFile) (grow : Nat → Bool) (offset count : Nat) (buffer : Nat → Byte) :
    Option DirFile :=
  if dir.size < offset + count then
    let newblkcount := (offset + count + dir.blksize - 1) / dir.blksize
    if grow newblkcount then
      some { dir with
        blocks := newblkcount
        data := Bytes.put (fill dir.data dir.size (dir.blksize * newblkcount - dir.size)) offset count buffer }
    else none
  else some { dir with data := Bytes.put dir.data offset count buffer }

end DirFile

/-- Where the search of `insertdent` is. -/
structure Search where
  diroffset : Nat
  found : Nat
  /-- It has come to the end mark. -/
  ended : Bool

/-- The search of `insertdent`, with the records that are left. -/
def searchLoop (dir : DirFile) (entriesneeded : Nat) : Nat → Nat → Nat → Search
  | 0, diroffset, found => ⟨diroffset, found, false⟩
  | left + 1, diroffset, found =>
    if Dent.name dir.data diroffset 0 = 0 then ⟨diroffset, found, true⟩
    else if Dent.name dir.data diroffset 0 = 0xe5 then
      if found + 1 = entriesneeded then ⟨diroffset, found + 1, false⟩
      else searchLoop dir entriesneeded left (diroffset + dentSize) (found + 1)
    else searchLoop dir entriesneeded left (diroffset + dentSize) 0

/-- The loop of `insertdent` that walks backwards. -/
def lfnLoop (grow : Nat → Bool) (name : List Byte) (entriesneeded : Nat) (checksum : Byte) :
    Nat → Nat → Nat → DirFile → Option DirFile
  | 0, _, _, dir => some dir
  | left + 1, i, diroffset, dir =>
    -- in front of the directory an assertion of `fat32fs_rwbytes` fails
    if diroffset < dentSize then none
    else do
      let dir ← dir.reswrite grow (diroffset - dentSize) dentSize (lfnEntry name entriesneeded checksum i)
      lfnLoop grow name entriesneeded checksum left (i + 1) (diroffset - dentSize) dir

/-- The number of records for a name. -/
def entriesneeded (name : List Byte) : Nat := 2 + name.length / 13

/-- The part of `insertdent` that finds the place of the entry and moves the end mark. -/
def findplace (dir : DirFile) (grow : Nat → Bool) (entriesneeded : Nat) : Option (DirFile × Nat) :=
  let s := searchLoop dir entriesneeded dir.records 0 0
  if s.ended then do
    let diroffset := s.diroffset + (entriesneeded - s.found - 1) * dentSize
    let dir ← dir.reswrite grow (diroffset + dentSize) dentSize fun k => dir.data (s.diroffset + k)
    some (dir, diroffset)
  else some (dir, s.diroffset)

/-- `insertdent`, with the offset of the entry. -/
def insertdent (dir : DirFile) (grow : Nat → Bool) (entry : Mem) (name : List Byte) :
    Option (DirFile × Nat) := do
  let found ← findplace dir grow (entriesneeded name)
  let entry := Bytes.put entry 0 11 fun k => (shortname (found.2 / dentSize)).getD k 0
  let dir ← found.1.reswrite grow found.2 dentSize entry
  let dir ← lfnLoop grow name (entriesneeded name) (lfnchecksum entry) (entriesneeded name - 1) 1 found.2 dir
  some (dir, found.2)

/-! ## `fat32fs_populate` -/

/-- `countspacepadding`. -/
def countspacepadding (str : Nat → Byte) : Nat → Nat
  | 0 => 0
  | len + 1 => if str len = 0x20 then countspacepadding str len + 1 else 0

/-- A node that `fat32fs_populate` creates, with what its resource has of the entry. The name is the
string at the beginning of `name`. -/
structure Child where
  name : Mem
  mode : Nat
  cluster : Nat
  ino : Nat
  size : Nat
  blocks : Nat
  diroffset : Nat

/-- The variables of `fat32fs_populate`. -/
structure Scan where
  buffer : Mem
  namebuffer : Mem
  islfn : Bool
  checksum : Byte
  /-- `currentinode` of the file system. -/
  currentinode : Nat
  children : List Child
  /-- The records that have been read, and the places of `namebuffer` that have been written. -/
  reads : List Nat
  writes : List (Nat × Nat)

namespace Scan

/-- What is done with a record of a long name; false if its checksum is bad. -/
def lfn (s : Scan) (i : Nat) : Scan × Bool :=
  let order := (Lfn.order s.buffer (dentSize * i) &&& 0x1f).toNat
  let s := { s with buffer := Function.update s.buffer (dentSize * i) (BitVec.ofNat 8 order) }
  let copy (s : Scan) : Scan := { s with
    namebuffer := copylfntostring s.buffer (dentSize * i) s.namebuffer (order * 13)
    writes := s.writes ++ [(order * 13, 13)] }
  if s.islfn = false then
    (copy { s with
      checksum := lfnchecksum (Dent.name s.buffer (dentSize * (i + order)))
      islfn := true
      reads := s.reads ++ [i + order] }, true)
  else if Lfn.checksum s.buffer (dentSize * i) ≠ s.checksum then (s, false)
  else (copy s, true)

/-- The name of an entry that has no long one. -/
def shortName (s : Scan) (i : Nat) : Scan :=
  let name := Dent.name s.buffer (dentSize * i)
  let ext k := name (8 + k)
  let namesize := 8 - countspacepadding name 8
  let extsize := 3 - countspacepadding ext 3
  let s := if namesize = 0 then s else { s with
    namebuffer := Ext2.Ext2fs.strncpy s.namebuffer 13 name namesize
    writes := s.writes ++ [(13, namesize)] }
  if extsize = 0 then s else { s with
    namebuffer := Ext2.Ext2fs.strncpy (Function.update s.namebuffer (13 + namesize) 46)
      (13 + namesize + 1) ext extsize
    writes := s.writes ++ [(13 + namesize, 1), (13 + namesize + 1, extsize)] }

/-- `strcmp` of the name with the dot entries. -/
abbrev IsDot (s : Scan) : Prop :=
  (s.namebuffer 13 = 46 ∧ s.namebuffer 14 = 0) ∨
    (s.namebuffer 13 = 46 ∧ s.namebuffer 14 = 46 ∧ s.namebuffer 15 = 0)

/-- The node of an entry. `chainsize` is what `fat32fs_getchainsize` returns. -/
def child (s : Scan) (fs : Volume) (chainsize : Nat → Nat) (i : Nat) : Child :=
  let entry := dentSize * i
  let isdir := Dent.attributes s.buffer entry &&& attrDir ≠ 0
  let cluster := Dent.cluster s.buffer entry
  let size := if isdir then chainsize cluster * fs.clustersize else Dent.size s.buffer entry
  { name := fun k => s.namebuffer (13 + k)
    mode := 0x1e9 + if isdir then 0x4000 else 0x8000
    cluster
    ino := s.currentinode
    size
    blocks := (size + fs.clustersize - 1) / fs.clustersize
    diroffset := entry }

/-- What is done with an entry; false if there is no memory for its node. -/
def entry (s : Scan) (fs : Volume) (chainsize : Nat → Nat) (memory : Bool) (i : Nat) : Scan × Bool :=
  let s := if s.islfn = false then s.shortName i else s
  let s := { s with islfn := false }
  if s.IsDot then (s, true)
  else if memory = false then (s, false)
  else
    ({ s with
      currentinode := s.currentinode + 1
      children := s.children ++ [s.child fs chainsize i] }, true)

end Scan

/-- The loop of `fat32fs_populate` from record `i` on, with whether it leaves the node populated. -/
def scanLoop (fs : Volume) (chainsize : Nat → Nat) (memory : Nat → Bool) : Nat → Nat → Scan → Scan × Bool
  | 0, _, s => (s, true)
  | left + 1, i, s =>
    let s := { s with reads := s.reads ++ [i] }
    if Dent.name s.buffer (dentSize * i) 0 = 0 then (s, true)
    else if Dent.name s.buffer (dentSize * i) 0 = 0xe5 then
      scanLoop fs chainsize memory left (i + 1) s
    else if IsLfn s.buffer (dentSize * i) then
      if (s.lfn i).2 then scanLoop fs chainsize memory left (i + 1) (s.lfn i).1
      else ((s.lfn i).1, false)
    else if Dent.attributes s.buffer (dentSize * i) &&& attrVolumeid ≠ 0 then
      scanLoop fs chainsize memory left (i + 1) s
    else
      if (s.entry fs chainsize (memory i) i).2 then
        scanLoop fs chainsize memory left (i + 1) (s.entry fs chainsize (memory i) i).1
      else ((s.entry fs chainsize (memory i) i).1, false)

/-- What `fat32fs_populate` begins with: the contents of the directory in `buffer`, and whatever is in
the memory of `namebuffer`. -/
def Scan.start (buffer namebuffer : Mem) (currentinode : Nat) : Scan where
  buffer
  namebuffer
  islfn := false
  checksum := 0
  currentinode
  children := []
  reads := []
  writes := []

/-- `fat32fs_populate` of a directory with `size` bytes. -/
def populate (fs : Volume) (chainsize : Nat → Nat) (memory : Nat → Bool) (buffer namebuffer : Mem)
    (currentinode size : Nat) : Scan × Bool :=
  scanLoop fs chainsize memory (size / dentSize) 0 (.start buffer namebuffer currentinode)

end Lyre.Fat32
