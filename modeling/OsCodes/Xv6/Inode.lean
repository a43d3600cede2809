/-
  The files of xv6-public (fs.c): the block allocator, the inodes on disk, and an inode's content.

  The functions work on the blocks as the buffer cache and the log show them: `bread` gives the
  block, and a `log_write` inside a transaction changes it.  The modules `Bio` and `Log` are about
  what that stands for.  xv6 runs with one device, so no block has a device number.

  An inode has three forms here.

  1. `Dinode` is `struct dinode`, 64 bytes of a block: `getDinode` and `putDinode` are the field
     accesses through `(struct dinode*)bp->data + i%IPB`, little-endian.
  2. `Inode` is the part of `struct inode` that is a copy of it, with the inode number.  The fields
     `ref`, `valid` and `lock` are not here: where `iput` asks for them they are arguments.
  3. `File`, in a later module, is the bytes that the block map stands for.

  The fields are as wide as in fs.h: `short` is an `Int16` and `uint` a `UInt32`, so the tests of
  `readi` and `writei` for `off + n < off` wrap around as they do in C.  Block numbers are `Nat`
  and are stored in a `UInt32`; `Superblock.size_fits` says that they fit.

  What the functions give back is `Except String`: a panic is an error with the message of the
  source, and nothing of the disk is left behind it.  The loops of `readi` and `writei` recurse on
  what is still to be copied, one block in a turn.
-/
import OsCodes.Lib.Bitmap
import OsCodes.Lib.Struct
import OsCodes.Xv6.Log

namespace OsCodes.Inodes

open Bytes Log

/-! ## The layout of the disk -/

abbrev NDIRECT : Nat := 12
abbrev NINDIRECT : Nat := BSIZE / 4
abbrev MAXFILE : Nat := NDIRECT + NINDIRECT
abbrev NDEV : Int16 := 10

abbrev T_DIR : Int16 := 1
abbrev T_FILE : Int16 := 2
abbrev T_DEV : Int16 := 3

/-- `sizeof(struct dinode)`. -/
abbrev DINODE : Nat := 12 + 4 * (NDIRECT + 1)

/-- Inodes per block. -/
abbrev IPB : Nat := BSIZE / DINODE

/-- Bitmap bits per block. -/
abbrev BPB : Nat := BSIZE * 8

/-- The superblock.  The regions are in the order in which `mkfs` lays them out, each as large as
    `mkfs` makes it, and block numbers fit in an `int`. -/
structure Superblock where
  size : Nat
  ninodes : Nat
  inodestart : Nat
  bmapstart : Nat
  inodes_fit : inodestart + ninodes / IPB < bmapstart
  bitmap_fit : bmapstart + size / BPB < size
  size_fits : size + BPB ≤ 2147483648

namespace Superblock

/-- `IBLOCK(i, sb)`. -/
def iblock (sb : Superblock) (i : Nat) : Nat := i / IPB + sb.inodestart

/-- `BBLOCK(b, sb)`. -/
def bblock (sb : Superblock) (b : Nat) : Nat := b / BPB + sb.bmapstart

/-- The number of blocks in front of the data blocks, as `mkfs` counts them. -/
def nmeta (sb : Superblock) : Nat := sb.bmapstart + sb.size / BPB + 1

end Superblock

/-- `struct dinode`. -/
structure Dinode where
  type : Int16
  major : Int16
  minor : Int16
  nlink : Int16
  size : UInt32
  addrs : Fin (NDIRECT + 1) → UInt32

/-- The in-memory copy of an inode. -/
structure Inode extends Dinode where
  inum : Nat

/-! ## Dinodes in their blocks -/

/-- The `dinode` at `p`. -/
def getDinode (m : Mem) (p : Nat) : Dinode where
  type := get16 m p
  major := get16 m (p + 2)
  minor := get16 m (p + 4)
  nlink := get16 m (p + 6)
  size := getU32 m (p + 8)
  addrs k := getU32 m (p + 12 + 4 * k)

/-- The assignments to the fields of the `dinode` at `p`. -/
def putDinode (m : Mem) (p : Nat) (x : Dinode) : Mem :=
  let m := put16 m p x.type
  let m := put16 m (p + 2) x.major
  let m := put16 m (p + 4) x.minor
  let m := put16 m (p + 6) x.nlink
  let m := putU32 m (p + 8) x.size
  blit m (p + 12) (4 * (NDIRECT + 1)) (image x.addrs)

/-- `(struct dinode*)bp->data + i%IPB`, for the block of inode `i`. -/
def dinode (sb : Superblock) (d : Disk) (i : Nat) : Dinode :=
  getDinode (d (sb.iblock i)).mem (DINODE * (i % IPB))

/-- The fields of `ip` go to its record on disk; the other records of the block stay as they are. -/
def iupdate (sb : Superblock) (d : Disk) (ip : Inode) : Disk :=
  let bp := sb.iblock ip.inum
  Function.update d bp
    (Block.ofMem (putDinode (d bp).mem (DINODE * (ip.inum % IPB)) ip.toDinode))

/-- The body of `ialloc` for a free inode: `memset`, and the type. -/
def takeInode (sb : Superblock) (d : Disk) (i : Nat) (type : Int16) : Disk :=
  let bp := sb.iblock i
  let p := DINODE * (i % IPB)
  Function.update d bp (Block.ofMem (put16 (blit (d bp).mem p DINODE fun _ => 0) p type))

/-- `ialloc`, up to the `iget` at its end. -/
def ialloc (sb : Superblock) (d : Disk) (type : Int16) : Except String (Nat × Disk) :=
  match (List.range' 1 (sb.ninodes - 1)).find? fun i => decide ((dinode sb d i).type = 0) with
  | some i => .ok (i, takeInode sb d i type)
  | none => .error "ialloc: no inodes"

/-! ## Blocks -/

/-- A block of zeros, in place of what the block's last owner left. -/
def bzero (d : Disk) (bno : Nat) : Disk := Function.update d bno fun _ => 0

/-- The inner loop of `balloc`: the first free bit of the bitmap block for the blocks from `b` on. -/
def freeBit (sb : Superblock) (d : Disk) (b : Nat) : Option (Nat × Nat) :=
  ((List.range BPB).find? fun bi =>
    decide (b + bi < sb.size) && !bit (d (sb.bblock b)).mem bi).map fun bi => (b, bi)

/-- The first block whose bit is clear in the bitmap.  Its bit is set and its content is zeroed; a
    full disk is a panic. -/
def balloc (sb : Superblock) (d : Disk) : Except String (Nat × Disk) :=
  match (List.range' 0 ((sb.size + BPB - 1) / BPB) BPB).findSome? (freeBit sb d) with
  | some (b, bi) =>
    let bp := sb.bblock b
    let d := Function.update d bp (Block.ofMem (setBit (d bp).mem bi))
    .ok (b + bi, bzero d (b + bi))
  | none => .error "balloc: out of blocks"

/-- The bit is cleared, where it was set.  The content stays until `balloc` gives the block away
    again. -/
def bfree (sb : Superblock) (d : Disk) (b : Nat) : Except String Disk :=
  let bp := sb.bblock b
  if bit (d bp).mem (b % BPB) then
    .ok (Function.update d bp (Block.ofMem (clearBit (d bp).mem (b % BPB))))
  else .error "freeing free block"

/-! ## Inode content -/

/-- `ip->addrs[k] = b`. -/
def Inode.setAddr (ip : Inode) (k : Fin (NDIRECT + 1)) (b : UInt32) : Inode :=
  { ip with addrs := Function.update ip.addrs k b }

/-- `if((addr = ip->addrs[k]) == 0) ip->addrs[k] = addr = balloc(ip->dev);` -/
def addrAt (sb : Superblock) (d : Disk) (ip : Inode) (k : Fin (NDIRECT + 1)) :
    Except String (Nat × Inode × Disk) :=
  if ip.addrs k = 0 then do
    let (addr, d) ← balloc sb d
    return (addr, ip.setAddr k (UInt32.ofNat addr), d)
  else return ((ip.addrs k).toNat, ip, d)

/-- The block that holds block `bn` of the file, allocated where the file has none there.  What is
    new in the indirect block is logged; what is new in `ip` stays in memory until `iupdate`. -/
def bmap (sb : Superblock) (d : Disk) (ip : Inode) (bn : Nat) :
    Except String (Nat × Inode × Disk) :=
  if h : bn < NDIRECT then addrAt sb d ip ⟨bn, Nat.lt_succ_of_lt h⟩
  else
    let bn := bn - NDIRECT
    if bn < NINDIRECT then do
      let (bp, ip, d) ← addrAt sb d ip (Fin.last NDIRECT)
      let addr := getU32 (d bp).mem (4 * bn)
      if addr = 0 then
        let (addr, d) ← balloc sb d
        return (addr, ip,
          Function.update d bp (Block.ofMem (putU32 (d bp).mem (4 * bn) (UInt32.ofNat addr))))
      else return (addr.toNat, ip, d)
    else .error "bmap: out of range"

/-- The first loop of `itrunc`, at `i`. -/
def truncDirect (sb : Superblock) (s : Inode × Disk) (i : Fin NDIRECT) :
    Except String (Inode × Disk) :=
  if s.1.addrs i.castSucc ≠ 0 then do
    let d ← bfree sb s.2 (s.1.addrs i.castSucc).toNat
    return (s.1.setAddr i.castSucc 0, d)
  else return s

/-- The second loop of `itrunc`, at `j`; `a` is the indirect block. -/
def truncIndirect (sb : Superblock) (a : Mem) (d : Disk) (j : Nat) : Except String Disk :=
  if getU32 a (4 * j) ≠ 0 then bfree sb d (getU32 a (4 * j)).toNat else return d

/-- All blocks of the file are given back, those of the indirect block before the indirect block,
    and the empty inode is written. -/
def itrunc (sb : Superblock) (d : Disk) (ip : Inode) : Except String (Inode × Disk) := do
  let (ip, d) ← (List.finRange NDIRECT).foldlM (truncDirect sb) (ip, d)
  let pointer := ip.addrs (Fin.last NDIRECT)
  let (ip, d) ← if pointer ≠ 0 then do
      let a := (d pointer.toNat).mem
      let d ← (List.range NINDIRECT).foldlM (truncIndirect sb a) d
      let d ← bfree sb d pointer.toNat
      pure (ip.setAddr (Fin.last NDIRECT) 0, d)
    else pure (ip, d)
  let ip := { ip with size := 0 }
  return (ip, iupdate sb d ip)

/-- `devsw`: what a driver's `read` puts into the buffer and what its `write` returns, `none` for
    -1. -/
structure Devsw where
  read : Nat → Option (UInt32 → Option (List UInt8))
  write : Nat → Option (Mem → UInt32 → Option UInt32)

/-- The loop of `readi`; `dst` is what it has copied. -/
def readLoop (sb : Superblock) (n tot off : Nat) (dst : List UInt8) (ip : Inode) (d : Disk) :
    Except String (List UInt8 × Inode × Disk) :=
  if _h : tot < n then do
    let (bp, ip, d) ← bmap sb d ip (off / BSIZE)
    let m := min (n - tot) (BSIZE - off % BSIZE)
    let copied := (List.range m).map (view (d bp).mem (off % BSIZE))
    readLoop sb n (tot + m) (off + m) (dst ++ copied) ip d
  else return (dst, ip, d)
termination_by n - tot
decreasing_by
  have := Nat.mod_lt off (show 0 < BSIZE by decide)
  omega

/-- The bytes that were copied out, or `none` for -1.  A read that begins inside the file is cut at
    its end; a device's bytes come from its driver. -/
def readi (dev : Devsw) (sb : Superblock) (d : Disk) (ip : Inode) (off n : UInt32) :
    Except String (Option (List UInt8) × Inode × Disk) :=
  if ip.type = T_DEV then
    if ip.major < 0 ∨ NDEV ≤ ip.major then .ok (none, ip, d)
    else match dev.read ip.major.toNatClampNeg with
      | none => .ok (none, ip, d)
      | some read => .ok (read n, ip, d)
  else if ip.size < off ∨ off + n < off then .ok (none, ip, d)
  else do
    let n := if ip.size < off + n then ip.size - off else n
    let (dst, ip, d) ← readLoop sb n.toNat 0 off.toNat [] ip d
    return (some dst, ip, d)

/-- The loop of `writei`; it gives back `off`. -/
def writeLoop (sb : Superblock) (src : Mem) (n tot off : Nat) (ip : Inode) (d : Disk) :
    Except String (Nat × Inode × Disk) :=
  if _h : tot < n then do
    let (bp, ip, d) ← bmap sb d ip (off / BSIZE)
    let m := min (n - tot) (BSIZE - off % BSIZE)
    let data := blit (d bp).mem (off % BSIZE) m (view src tot)
    writeLoop sb src n (tot + m) (off + m) ip (Function.update d bp (Block.ofMem data))
  else return (off, ip, d)
termination_by n - tot
decreasing_by
  have := Nat.mod_lt off (show 0 < BSIZE by decide)
  omega

/-- The number of bytes that were copied in, or `none` for -1.  A file has no holes: a write may
    begin at its end, but not behind it, and the inode is written only where the size grows. -/
def writei (dev : Devsw) (sb : Superblock) (d : Disk) (ip : Inode) (src : Mem) (off n : UInt32) :
    Except String (Option UInt32 × Inode × Disk) :=
  if ip.type = T_DEV then
    if ip.major < 0 ∨ NDEV ≤ ip.major then .ok (none, ip, d)
    else match dev.write ip.major.toNatClampNeg with
      | none => .ok (none, ip, d)
      | some write => .ok (write src n, ip, d)
  else if ip.size < off ∨ off + n < off then .ok (none, ip, d)
  else if UInt32.ofNat (MAXFILE * BSIZE) < off + n then .ok (none, ip, d)
  else do
    let (off, ip, d) ← writeLoop sb src n.toNat 0 off.toNat ip d
    if 0 < n ∧ ip.size.toNat < off then
      let ip := { ip with size := UInt32.ofNat off }
      return (some n, ip, iupdate sb d ip)
    else return (some n, ip, d)

end OsCodes.Inodes
