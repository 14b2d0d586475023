import Lyre.Infra.Bytes
import Lyre.Lib.Bitmap
import Lyre.Lib.Misc

/-!
# Blocks and inodes of `fs/ext2fs.c`

The packed structures are the bytes that they consist of, with a definition for each field, as they
are copied from the device and to it as a whole. The device is its bytes; reads and writes of it
succeed, and there is memory for the buffers of the functions.
-/

namespace Lyre.Ext2

open Infra.Bytes

/-- A value as an `uint32_t` holds it. -/
def u32 (n : Nat) : Nat := n % 2 ^ 32

/-! ## The structures -/

/-- `struct ext2fs_superblock`, of 200 bytes. -/
structure Superblock where
  raw : Mem

namespace Superblock

def size : Nat := 200

variable (sb : Superblock)

def blockcnt : Nat := read sb.raw 4 4
def unallocb : Nat := read sb.raw 12 4
def unalloci : Nat := read sb.raw 16 4
def blksize : Nat := read sb.raw 24 4
def blockspergroup : Nat := read sb.raw 32 4
def inodespergroup : Nat := read sb.raw 40 4
def first : Nat := read sb.raw 84 4
def inodesize : Nat := read sb.raw 88 2

def setUnallocb (v : Nat) : Superblock := ⟨write sb.raw 12 4 v⟩
def setUnalloci (v : Nat) : Superblock := ⟨write sb.raw 16 4 v⟩
def setLastwritten (v : Nat) : Superblock := ⟨write sb.raw 48 4 v⟩

end Superblock

/-- `struct ext2fs_blockgroupdesc`, of 32 bytes. -/
structure BlockGroupDesc where
  raw : Mem

namespace BlockGroupDesc

def size : Nat := 32

variable (bgd : BlockGroupDesc)

def addrblockbmp : Nat := read bgd.raw 0 4
def addrinodebmp : Nat := read bgd.raw 4 4
def inodetable : Nat := read bgd.raw 8 4
def unallocb : Nat := read bgd.raw 12 2
def unalloci : Nat := read bgd.raw 14 2
def dircnt : Nat := read bgd.raw 16 2

def setUnallocb (v : Nat) : BlockGroupDesc := ⟨write bgd.raw 12 2 v⟩
def setUnalloci (v : Nat) : BlockGroupDesc := ⟨write bgd.raw 14 2 v⟩
def setDircnt (v : Nat) : BlockGroupDesc := ⟨write bgd.raw 16 2 v⟩

end BlockGroupDesc

/-- `struct ext2fs_inode`, of 128 bytes. -/
structure Inode where
  raw : Mem

namespace Inode

def size : Nat := 128

variable (inode : Inode)

def perms : Nat := read inode.raw 0 2
def sizelo : Nat := read inode.raw 4 4
def hardlinkcnt : Nat := read inode.raw 26 2
def sectors : Nat := read inode.raw 28 4
def blocks (i : Nat) : Nat := read inode.raw (40 + 4 * i) 4
def sizehi : Nat := read inode.raw 108 4

def setDeletedtime (v : Nat) : Inode := ⟨write inode.raw 20 4 v⟩
def setHardlinkcnt (v : Nat) : Inode := ⟨write inode.raw 26 2 v⟩
def setSectors (v : Nat) : Inode := ⟨write inode.raw 28 4 v⟩
def setBlocks (i v : Nat) : Inode := ⟨write inode.raw (40 + 4 * i) 4 v⟩

/-- `EXT2FS_INODESIZE`. -/
def inodesize : Nat := inode.sizelo + 2 ^ 32 * inode.sizehi

/-- `EXT2FS_INODESETSIZE`. -/
def setInodesize (v : Nat) : Inode := ⟨write (write inode.raw 4 4 v) 108 4 (v / 2 ^ 32)⟩

end Inode

/-- `struct ext2fs` and the device behind it. -/
structure Ext2fs where
  sb : Superblock
  blksize : Nat
  /-- `st_blksize` of the device. -/
  sectorsize : Nat
  device : Mem

namespace Ext2fs

/-- Word `i` of a block. -/
def word (fs : Ext2fs) (block i : Nat) : Nat := read fs.device (block * fs.blksize + i * 4) 4

/-- A word is written. -/
def setword (fs : Ext2fs) (block i v : Nat) : Ext2fs :=
  { fs with device := write fs.device (block * fs.blksize + i * 4) 4 v }

/-- `ext2fs_writesuperblock`. -/
def writesuperblock (fs : Ext2fs) : Ext2fs :=
  { fs with device := put fs.device (fs.sectorsize * 2) Superblock.size fs.sb.raw }

/-! ## Descriptors and inodes -/

/-- Where the descriptor of a group is. -/
def bgdoffset (fs : Ext2fs) (idx : Nat) : Nat :=
  (if 2048 ≤ fs.blksize then fs.blksize else fs.blksize * 2) + BlockGroupDesc.size * idx

/-- `ext2fs_bgdreadentry`. -/
def bgdreadentry (fs : Ext2fs) (idx : Nat) : BlockGroupDesc :=
  ⟨fun k => fs.device (fs.bgdoffset idx + k)⟩

/-- `ext2fs_bgdwriteentry`. -/
def bgdwriteentry (fs : Ext2fs) (bgd : BlockGroupDesc) (idx : Nat) : Ext2fs :=
  { fs with device := put fs.device (fs.bgdoffset idx) BlockGroupDesc.size bgd.raw }

/-- Where an inode is on the device. -/
def inodeoffset (fs : Ext2fs) (inodeidx : Nat) : Nat :=
  let tableidx := u32 (inodeidx + (2 ^ 32 - 1)) % fs.sb.inodespergroup
  let bgdidx := u32 (inodeidx + (2 ^ 32 - 1)) / fs.sb.inodespergroup
  (fs.bgdreadentry bgdidx).inodetable * fs.blksize + fs.sb.inodesize * tableidx

/-- `ext2fs_inodereadentry`. -/
def inodereadentry (fs : Ext2fs) (inodeidx : Nat) : Inode :=
  ⟨fun k => fs.device (fs.inodeoffset inodeidx + k)⟩

/-- `ext2fs_inodewriteentry`. -/
def inodewriteentry (fs : Ext2fs) (inode : Inode) (inodeidx : Nat) : Ext2fs :=
  { fs with device := put fs.device (fs.inodeoffset inodeidx) Inode.size inode.raw }

/-! ## The bitmaps -/

/-- A bitmap as it is read into a buffer. -/
def readbitmap (fs : Ext2fs) (block : Nat) : Bitmap := fun k => fs.device (block * fs.blksize + k)

def writebitmap (fs : Ext2fs) (block : Nat) (bitmap : Bitmap) : Ext2fs :=
  { fs with device := put fs.device (block * fs.blksize) fs.blksize bitmap }

/-- The loop over the bits of byte `j`, with `block`. -/
def blockBits (first j : Nat) (bitmap : Bitmap) : Nat → Nat → Bitmap × Nat
  | 0, _ => (bitmap, 0)
  | left + 1, bit =>
    if bitmapTest bitmap (bit + j * 8) = false then
      (bitmapSet bitmap (bit + j * 8), first + j * 8 + bit)
    else blockBits first j bitmap left (bit + 1)

/-- The loop over the bytes, with `block`. `first` is the first block of the group. -/
def blockBytes (first : Nat) : Bitmap → Nat → Nat → Bitmap × Nat
  | bitmap, 0, _ => (bitmap, 0)
  | bitmap, left + 1, j =>
    if bitmap j = 0xff then blockBytes first bitmap left (j + 1)
    else
      let (bitmap, block) := blockBits first j bitmap 8 0
      if block ≠ 0 then (bitmap, block) else blockBytes first bitmap left (j + 1)

/-- The part of `ext2fs_allocblock` behind the search in group `i`. -/
def takeblock (fs : Ext2fs) (bitmap : Bitmap) (inode : Inode) (inodeidx i : Nat) : Ext2fs × Inode :=
  let bgd := fs.bgdreadentry i
  let fs := fs.writebitmap bgd.addrblockbmp bitmap
  let fs := { fs with sb := fs.sb.setUnallocb (u32 (fs.sb.unallocb + (2 ^ 32 - 1))) }
  let bgd := bgd.setUnallocb (bgd.unallocb - 1)
  let inode := inode.setSectors (u32 (inode.sectors + fs.blksize / fs.sectorsize))
  let fs := fs.inodewriteentry inode inodeidx
  let fs := fs.bgdwriteentry bgd i
  (fs.writesuperblock, inode)

/-- The loop of `ext2fs_allocblock` over the groups. -/
def allocblockLoop (fs : Ext2fs) (inode : Inode) (inodeidx : Nat) : Nat → Nat → Ext2fs × Inode × Nat
  | 0, _ => (fs, inode, 0)
  | left + 1, i =>
    let bgd := fs.bgdreadentry i
    if bgd.unallocb = 0 then allocblockLoop fs inode inodeidx left (i + 1)
    else
      let (bitmap, block) :=
        blockBytes (i * fs.sb.blockspergroup) (fs.readbitmap bgd.addrblockbmp) fs.blksize 0
      if block = 0 then allocblockLoop fs inode inodeidx left (i + 1)
      else
        let (fs, inode) := fs.takeblock bitmap inode inodeidx i
        (fs, inode, block)

/-- `ext2fs_allocblock`, with the inode as it is behind the call. -/
def allocblock (fs : Ext2fs) (inode : Inode) (inodeidx : Nat) : Ext2fs × Inode × Nat :=
  allocblockLoop fs inode inodeidx fs.sb.blockcnt 0

/-- `ext2fs_freeblock`. -/
def freeblock (fs : Ext2fs) (blockidx : Nat) : Ext2fs :=
  let bgdidx := u32 (blockidx / fs.sb.blockspergroup)
  let bgd := fs.bgdreadentry bgdidx
  let bitmap := bitmapReset (fs.readbitmap bgd.addrblockbmp) (blockidx % fs.sb.blockspergroup)
  let fs := fs.writebitmap bgd.addrblockbmp bitmap
  let bgd := bgd.setUnallocb (bgd.unallocb + 1)
  let fs := { fs with sb := fs.sb.setUnallocb (fs.sb.unallocb + 1) }
  (fs.bgdwriteentry bgd bgdidx).writesuperblock

/-- The loop of `ext2fs_freeblocklist` over the entries `buf`. `entry` is what is done with one of
them, with the calls of `ext2fs_freeblock` that it makes. -/
def freeEntries (entry : Ext2fs → Nat → Ext2fs × List Nat) (buf : Nat → Nat) :
    Nat → Nat → Ext2fs → Ext2fs × List Nat
  | 0, _, fs => (fs, [])
  | left + 1, i, fs =>
    if buf i = 0 then freeEntries entry buf left (i + 1) fs
    else
      let (fs, calls) := entry fs (buf i)
      let (fs, others) := freeEntries entry buf left (i + 1) fs
      (fs, calls ++ others)

/-- The body of `ext2fs_freeblocklist`. -/
def freetable (entry : Ext2fs → Nat → Ext2fs × List Nat) (fs : Ext2fs) (blockidx : Nat) :
    Ext2fs × List Nat :=
  if blockidx = 0 then (fs, [])
  else
    let (fs, calls) := freeEntries entry (fs.word blockidx) (fs.blksize / 4) 0 fs
    let fs := { fs with device := fill fs.device (blockidx * fs.blksize) fs.blksize }
    (fs.freeblock blockidx, calls ++ [blockidx])

/-- `ext2fs_freeblocklist`, with its calls of `ext2fs_freeblock` in their order. -/
def freeblocklist : Nat → Ext2fs → Nat → Ext2fs × List Nat
  | 0 => freetable fun fs block => (fs.freeblock block, [block])
  | indirs + 1 => freetable (freeblocklist indirs)

/-- The loop over the bits of byte `j`, with the candidate `inode`. -/
def inodeBits (first j rsvd : Nat) (bitmap : Bitmap) : Nat → Nat → Nat → Bitmap × Nat
  | 0, _, inode => (bitmap, inode)
  | left + 1, bit, inode =>
    if bitmapTest bitmap (bit + j * 8) = false then
      let inode := first + j * 8 + bit + 1
      if rsvd < inode ∧ 11 < inode then (bitmapSet bitmap (bit + j * 8), inode)
      else inodeBits first j rsvd bitmap left (bit + 1) inode
    else inodeBits first j rsvd bitmap left (bit + 1) inode

/-- The loop over the bytes. `rsvd` is `first` of the superblock. -/
def inodeBytes (first rsvd : Nat) : Bitmap → Nat → Nat → Bitmap × Nat
  | bitmap, 0, _ => (bitmap, 0)
  | bitmap, left + 1, j =>
    if bitmap j = 0xff then inodeBytes first rsvd bitmap left (j + 1)
    else
      let (bitmap, inode) := inodeBits first j rsvd bitmap 8 0 0
      if inode ≠ 0 then (bitmap, inode) else inodeBytes first rsvd bitmap left (j + 1)

/-- The part of `ext2fs_allocinode` behind the search in group `i`. -/
def takeinode (fs : Ext2fs) (bitmap : Bitmap) (i : Nat) : Ext2fs :=
  let bgd := fs.bgdreadentry i
  let fs := fs.writebitmap bgd.addrinodebmp bitmap
  let bgd := bgd.setUnalloci (bgd.unalloci - 1)
  let fs := { fs with sb := fs.sb.setUnalloci (u32 (fs.sb.unalloci + (2 ^ 32 - 1))) }
  (fs.bgdwriteentry bgd i).writesuperblock

/-- The loop of `ext2fs_allocinode` over the groups. -/
def allocinodeLoop (fs : Ext2fs) : Nat → Nat → Ext2fs × Nat
  | 0, _ => (fs, 0)
  | left + 1, i =>
    let bgd := fs.bgdreadentry i
    if bgd.unalloci = 0 then allocinodeLoop fs left (i + 1)
    else
      let (bitmap, inode) := inodeBytes (i * fs.sb.inodespergroup) fs.sb.first
        (fs.readbitmap bgd.addrinodebmp) fs.blksize 0
      if inode = 0 then allocinodeLoop fs left (i + 1)
      else (fs.takeinode bitmap i, inode)

/-- `ext2fs_freeinode`. -/
def freeinode (fs : Ext2fs) (inodeidx : Nat) : Ext2fs :=
  let inodeidx := u64 (inodeidx + (2 ^ 64 - 1))
  let bgdidx := u32 (inodeidx / fs.sb.inodespergroup)
  let bgd := fs.bgdreadentry bgdidx
  let bitmap := bitmapReset (fs.readbitmap bgd.addrinodebmp) (inodeidx % fs.sb.inodespergroup)
  let fs := fs.writebitmap bgd.addrinodebmp bitmap
  let bgd := bgd.setUnalloci (bgd.unalloci + 1)
  let fs := { fs with sb := fs.sb.setUnalloci (fs.sb.unalloci + 1) }
  (fs.bgdwriteentry bgd bgdidx).writesuperblock

/-- `ext2fs_allocinode`. -/
def allocinode (fs : Ext2fs) : Ext2fs × Nat := allocinodeLoop fs fs.sb.blockcnt 0

/-! ## The blocks of an inode -/

/-- `ext2fs_inodegetblock`. -/
def inodegetblock (fs : Ext2fs) (inode : Inode) (iblock : Nat) : Nat :=
  let blocklvl := u32 (fs.blksize / 4)
  if iblock < 12 then inode.blocks iblock
  else
    let iblock := iblock - 12
    if blocklvl ≤ iblock then
      let iblock := iblock - blocklvl
      let singleidx := iblock / blocklvl
      let indirectoff := iblock % blocklvl
      if blocklvl ≤ singleidx then
        let iblock := u32 (iblock + (2 ^ 32 - u32 (blocklvl * blocklvl)))
        let doubleindirect := iblock / blocklvl
        let indirectoff := iblock % blocklvl
        let singleindirectidx :=
          read fs.device (inode.blocks 14 * fs.blksize + u32 (doubleindirect * 4)) 4
        let indirectblock :=
          read fs.device (doubleindirect * fs.blksize + u32 (singleindirectidx * 4)) 4
        fs.word indirectblock indirectoff
      else
        let indirectblock := fs.word (inode.blocks 13) singleidx
        fs.word indirectblock indirectoff
    else fs.word (inode.blocks 12) iblock

end Ext2fs

end Lyre.Ext2

/-!
## The contents of files in `fs/ext2fs.c`

Every turn of the loops over blocks moves `head` on, so that as many turns as there are bytes are
enough.
-/

namespace Lyre.Ext2

open Infra.Bytes

namespace Ext2fs

/-! ## Reading -/

/-- The loop of `ext2fs_inoderead`, which changes `off`. -/
def inodereadLoop (fs : Ext2fs) (inode : Inode) (count : Nat) : Nat → Nat → Nat → Mem → Mem
  | 0, _, _, buf => buf
  | left + 1, off, head, buf =>
    if head < count then
      let iblock := u64 (off + head) / fs.blksize
      let off := u64 (off + head) % fs.blksize
      let size := if fs.blksize - off < count - head then fs.blksize - off else count - head
      let block := fs.inodegetblock inode (u32 iblock)
      inodereadLoop fs inode count left off (head + size)
        (put buf head size fun k => fs.device (block * fs.blksize + off + k))
    else buf

/-- `ext2fs_inoderead`, with the buffer and the value that is returned. -/
def inoderead (fs : Ext2fs) (inode : Inode) (buf : Mem) (off count : Nat) : Mem × Nat :=
  if inode.inodesize < off then (buf, 0)
  else
    let count := if inode.inodesize < u64 (off + count) then inode.inodesize - off else count
    (fs.inodereadLoop inode count count off 0 buf, count)

/-! ## The block map is changed -/

/-- `ext2fs_inodesetblock`, with the inode as it is behind the call. -/
def inodesetblock (fs : Ext2fs) (inode : Inode) (inodeidx iblock dblock : Nat) : Ext2fs × Inode :=
  let blocklvl := u32 (fs.blksize / 4)
  if iblock < 12 then (fs, inode.setBlocks iblock dblock)
  else
    let iblock := iblock - 12
    if blocklvl ≤ iblock then
      let iblock := iblock - blocklvl
      let singleidx := iblock / blocklvl
      let indirectoff := iblock % blocklvl
      if blocklvl ≤ singleidx then
        let iblock := u32 (iblock + (2 ^ 32 - u32 (blocklvl * blocklvl)))
        let doubleindirect := iblock / blocklvl
        let indirectoff := iblock % blocklvl
        let (fs, inode) :=
          if inode.blocks 14 = 0 then
            let (fs, inode, new) := fs.allocblock inode inodeidx
            let inode := inode.setBlocks 14 new
            (fs.inodewriteentry inode inodeidx, inode)
          else (fs, inode)
        let idxoffset := inode.blocks 14 * fs.blksize + u32 (doubleindirect * 4)
        let singleindirectidx := read fs.device idxoffset 4
        let (fs, inode, singleindirectidx) :=
          if singleindirectidx = 0 then
            let (fs, inode, new) := fs.allocblock inode inodeidx
            ({ fs with device := write fs.device idxoffset 4 new }, inode, u32 new)
          else (fs, inode, singleindirectidx)
        let entryoffset := doubleindirect * fs.blksize + u32 (singleindirectidx * 4)
        let indirectblock := read fs.device entryoffset 4
        let (fs, inode, indirectblock) :=
          if indirectblock = 0 then
            let (fs, inode, new) := fs.allocblock inode inodeidx
            -- what is written is the old number
            ({ fs with device := write fs.device entryoffset 4 indirectblock }, inode, u32 new)
          else (fs, inode, indirectblock)
        ({ fs with
            device := write fs.device (u64 (indirectblock * fs.blksize * indirectoff * 4)) 4 dblock },
          inode)
      else
        let (fs, inode) :=
          if inode.blocks 13 = 0 then
            let (fs, inode, new) := fs.allocblock inode inodeidx
            let inode := inode.setBlocks 13 new
            (fs.inodewriteentry inode inodeidx, inode)
          else (fs, inode)
        let indirectblock := fs.word (inode.blocks 13) singleidx
        let (fs, inode, indirectblock) :=
          if indirectblock = 0 then
            let (fs, inode, new) := fs.allocblock inode inodeidx
            (fs.setword (inode.blocks 13) singleidx new, inode, u32 new)
          else (fs, inode, indirectblock)
        (fs.setword indirectblock indirectoff dblock, inode)
    else
      let (fs, inode) :=
        if inode.blocks 12 = 0 then
          let (fs, inode, new) := fs.allocblock inode inodeidx
          let inode := inode.setBlocks 12 new
          (fs.inodewriteentry inode inodeidx, inode)
        else (fs, inode)
      (fs.setword (inode.blocks 12) iblock dblock, inode)

/-- The loop of `ext2fs_inodeassignblocks`. -/
def assignLoop (inodeidx start : Nat) : Nat → Nat → Ext2fs → Inode → Ext2fs × Inode
  | 0, _, fs, inode => (fs, inode)
  | left + 1, i, fs, inode =>
    if fs.inodegetblock inode (u32 (start + i)) ≠ 0 then assignLoop inodeidx start left (i + 1) fs inode
    else
      let (fs, inode, dblock) := fs.allocblock inode inodeidx
      let (fs, inode) := fs.inodesetblock inode inodeidx (u32 (start + i)) (u32 dblock)
      assignLoop inodeidx start left (i + 1) fs inode

/-- `ext2fs_inodeassignblocks`. -/
def inodeassignblocks (fs : Ext2fs) (inode : Inode) (inodeidx start blocks : Nat) : Ext2fs × Inode :=
  let (fs, inode) := assignLoop inodeidx start blocks 0 fs inode
  (fs.inodewriteentry inode inodeidx, inode)

/-- `ext2fs_inodegrow`. The block size is a power of two. -/
def inodegrow (fs : Ext2fs) (inode : Inode) (inodeidx start count : Nat) : Ext2fs × Inode :=
  let boffset := (start - start % fs.blksize) / 2 ^ (10 + fs.sb.blksize)
  let bcount := u64 (start % fs.blksize + count + (fs.blksize - 1)) / 2 ^ (10 + fs.sb.blksize)
  fs.inodeassignblocks inode inodeidx boffset bcount

/-! ## Writing -/

/-- The loop of `ext2fs_inodewrite`. -/
def inodewriteLoop (inode : Inode) (buf : Mem) (off count : Nat) : Nat → Nat → Ext2fs → Ext2fs
  | 0, _, fs => fs
  | left + 1, head, fs =>
    if head < count then
      let iblock := u64 (off + head) / fs.blksize
      let suboff := u64 (off + head) % fs.blksize
      let size := if fs.blksize - suboff < count - head then fs.blksize - suboff else count - head
      let dblock := fs.inodegetblock inode (u32 iblock)
      inodewriteLoop inode buf off count left (head + size)
        { fs with device := put fs.device (dblock * fs.blksize + suboff) size fun k => buf (head + k) }
    else fs

/-- `ext2fs_inodewrite`, which returns the count. -/
def inodewrite (fs : Ext2fs) (inode : Inode) (buf : Mem) (inodeidx off count : Nat) :
    Ext2fs × Inode × Nat :=
  let (fs, inode) := fs.inodegrow inode inodeidx off count
  let (fs, inode) :=
    if inode.inodesize < u64 (off + count) then
      let inode := inode.setInodesize (u64 (off + count))
      (fs.inodewriteentry inode inodeidx, inode)
    else (fs, inode)
  (inodewriteLoop inode buf off count count 0 fs, inode, count)

end Ext2fs

end Lyre.Ext2
