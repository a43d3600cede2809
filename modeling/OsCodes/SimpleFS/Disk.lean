/-
  The disk emulation of SimpleFS: `simplefs-code/simplefs-disk.h` and `simplefs-disk.c`.

  The disk is one Unix file.  Every access of the program is an `lseek` to a position computed
  from a block or inode number followed by one `read` or `write`, so the model keeps the file
  as it is, a length and its bytes, and computes the same positions: a number such as `-1`
  reaches the bytes it reaches in the program, and a read past the end of the file is short
  and fails the `assert` behind it.

  What the program leaves uninitialised (`tempBuf` behind the 46 bytes of a superblock, the
  `malloc`ed name of the formatted inodes) is an argument of the function that leaves it so.

  The two structs are encoded byte by byte, in the layout that the compiler gives them: 46 bytes
  of superblock, and 32 of inode, in which `status` comes first, then the 8 bytes of the name, the
  size and the four entries.  The laws need this: a name of 8 characters has its NUL in the size,
  and a block number of -1 leads to the records of inodes 6 and 7.  `Fault` says how a call can
  end without returning: an `assert` that fails, an `lseek` to a negative position, or a subscript
  or a copy outside its object.
-/
import OsCodes.Lib.Bytes

namespace OsCodes.SimpleFS

open Bytes

/-! ## Sizes and flags (`simplefs-disk.h`)

  The sizes of the header stand in the model as the numbers they are: `BLOCKSIZE` 64,
  `NUM_DATA_BLOCKS` 30, `NUM_INODES` 8, `MAX_FILE_SIZE` 4, `MAX_OPEN_FILES` 20,
  `MAX_NAME_STRLEN` 8; data block `b` is block `5 + b` of the disk. -/

/-- `INODE_FREE` (`'x'`) as the `int` kept in `status`. -/
abbrev inodeFree : Int32 := 120
/-- `INODE_IN_USE` (`'1'`). -/
abbrev inodeInUse : Int32 := 49
/-- `INODE_FREE` and `DATA_BLOCK_FREE` as the `char`s of the freelists. -/
abbrev flagFree : UInt8 := 120
/-- `INODE_IN_USE` and `DATA_BLOCK_USED`. -/
abbrev flagUsed : UInt8 := 49

/-- `struct superblock_t`, 46 bytes. -/
structure Superblock where
  name : Fin 8 → UInt8
  inodeFreelist : Fin 8 → UInt8
  datablockFreelist : Fin 30 → UInt8

/-- `struct inode_t`, 32 bytes. -/
structure Inode where
  status : Int32
  name : Fin 8 → UInt8
  fileSize : Int32
  directBlocks : Fin 4 → Int32

/-- `struct filehandle_t`. -/
structure FileHandle where
  offset : Int32
  inodeNumber : Int32
  deriving DecidableEq

/-! ## The structs as bytes -/

namespace Superblock

def encode (s : Superblock) : Mem := fun k =>
  if h : k < 8 then s.name ⟨k, h⟩
  else if h : k < 16 then s.inodeFreelist ⟨k - 8, by omega⟩
  else if h : k < 46 then s.datablockFreelist ⟨k - 16, by omega⟩
  else 0

def decode (m : Mem) : Superblock where
  name k := m k
  inodeFreelist i := m (8 + i)
  datablockFreelist b := m (16 + b)

/-- Only the 46 bytes of the struct matter. -/
theorem decode_congr {m m' : Mem} (h : ∀ k < 46, m k = m' k) : decode m = decode m' := by
  simp only [decode, Superblock.mk.injEq]
  refine ⟨funext fun k => ?_, funext fun i => ?_, funext fun b => ?_⟩
  · exact h k (by omega)
  · exact h (8 + i) (by omega)
  · exact h (16 + b) (by omega)

theorem decode_encode (s : Superblock) : decode s.encode = s := by
  obtain ⟨name, ifree, dfree⟩ := s
  simp only [decode, Superblock.mk.injEq]
  refine ⟨funext fun k => ?_, funext fun i => ?_, funext fun b => ?_⟩
  · simp only [encode, k.isLt, dite_true]
  · simp only [encode, show ¬ 8 + (i : Nat) < 8 by omega,
      show 8 + (i : Nat) < 16 by omega, dite_true, dite_false, Nat.add_sub_cancel_left]
  · simp only [encode, show ¬ 16 + (b : Nat) < 8 by omega,
      show ¬ 16 + (b : Nat) < 16 by omega, show 16 + (b : Nat) < 46 by omega, dite_true,
      dite_false, Nat.add_sub_cancel_left]

end Superblock

namespace Inode

def encode (s : Inode) : Mem := fun k =>
  if k < 4 then le32 s.status k
  else if h : k < 12 then s.name ⟨k - 4, by omega⟩
  else if k < 16 then le32 s.fileSize (k - 12)
  else if h : k < 32 then le32 (s.directBlocks ⟨(k - 16) / 4, by omega⟩) ((k - 16) % 4)
  else 0

def decode (m : Mem) : Inode where
  status := get32 m 0
  name k := m (4 + k)
  fileSize := get32 m 12
  directBlocks c := get32 m (16 + 4 * c)

/-- Only the 32 bytes of the struct matter. -/
theorem decode_congr {m m' : Mem} (h : ∀ k < 32, m k = m' k) : decode m = decode m' := by
  simp only [decode, Inode.mk.injEq]
  refine ⟨?_, funext fun k => ?_, ?_, funext fun c => ?_⟩
  · exact get32_congr fun k hk => h _ (by omega)
  · exact h (4 + k) (by omega)
  · exact get32_congr fun k hk => h _ (by omega)
  · exact get32_congr fun j hj => h _ (by omega)

theorem decode_encode (s : Inode) : decode s.encode = s := by
  obtain ⟨status, name, fileSize, directBlocks⟩ := s
  simp only [decode, Inode.mk.injEq]
  refine ⟨?_, funext fun k => ?_, ?_, funext fun c => ?_⟩
  · refine (get32_congr fun j hj => ?_).trans (get32_le32 status)
    simp only [encode, Nat.zero_add, if_pos hj]
  · simp only [encode, show ¬ 4 + (k : Nat) < 4 by omega,
      show 4 + (k : Nat) < 12 by omega, dite_true, if_false, Nat.add_sub_cancel_left]
  · refine (get32_congr fun j hj => ?_).trans (get32_le32 fileSize)
    simp only [encode, show ¬ 12 + j < 4 by omega, show ¬ 12 + j < 12 by omega,
      show 12 + j < 16 by omega, if_true, if_false, dite_false, Nat.zero_add,
      Nat.add_sub_cancel_left]
  · refine (get32_congr fun j hj => ?_).trans (get32_le32 (directBlocks c))
    have hdiv : (16 + 4 * (c : Nat) + j - 16) / 4 = c := by omega
    have hmod : (16 + 4 * (c : Nat) + j - 16) % 4 = 0 + j := by omega
    simp only [encode, show ¬ 16 + 4 * (c : Nat) + j < 4 by omega,
      show ¬ 16 + 4 * (c : Nat) + j < 12 by omega, show ¬ 16 + 4 * (c : Nat) + j < 16 by omega,
      show 16 + 4 * (c : Nat) + j < 32 by omega, if_false, dite_true, dite_false, hdiv, hmod]

theorem encode_decode (m : Mem) {k : Nat} (hk : k < 32) : (decode m).encode k = m k := by
  unfold encode decode
  by_cases h4 : k < 4
  · rw [if_pos h4, le32_get32 m 0 h4, Nat.zero_add]
  · rw [if_neg h4]
    by_cases h12 : k < 12
    · rw [dif_pos h12]
      simp only [show 4 + (k - 4) = k by omega]
    · rw [dif_neg h12]
      by_cases h16 : k < 16
      · rw [if_pos h16, le32_get32 m 12 (by omega), show 12 + (k - 12) = k by omega]
      · rw [if_neg h16, dif_pos hk, le32_get32 m _ (by omega)]
        congr 1
        simp only
        omega

/-- The record determines its 32 bytes. -/
theorem decode_inj {m m' : Mem} (h : decode m = decode m') {k : Nat} (hk : k < 32) :
    m k = m' k := by
  rw [← encode_decode m hk, ← encode_decode m' hk, h]

/-- The name as `strcmp` sees it: the bytes of the struct from `name` on. -/
def nameMem (s : Inode) : Mem := view s.encode 4

end Inode

/-! ## The file behind the disk -/

/-- How a call can end without returning. -/
inductive Fault
  /-- an `assert` fails -/
  | assertion
  /-- `lseek` to a negative position -/
  | lseek
  /-- a subscript, or a copy, outside its object -/
  | bounds
  deriving DecidableEq

/-- A subscript of an array of `n` elements. -/
def index (n : Nat) (z : Int) : Except Fault (Fin n) :=
  if h : 0 ≤ z ∧ z < n then .ok ⟨z.toNat, by omega⟩ else .error .bounds

/-- The Unix file: its length and its bytes, none of them past the end. -/
@[ext] structure Disk where
  size : Nat
  byte : Mem
  hole : ∀ k, size ≤ k → byte k = 0

namespace Disk

/-- The file after `fopen(.., "w+")`. -/
def empty : Disk := ⟨0, fun _ => 0, fun _ _ => rfl⟩

/-- `write` of `n` bytes at `p`; a gap before `p` reads as zeros. -/
def pwrite (d : Disk) (p n : Nat) (src : Mem) : Disk where
  size := max d.size (p + n)
  byte := blit d.byte p n src
  hole k hk := by
    rw [blit_out (by omega)]
    exact d.hole k (by omega)

/-- `lseek` to `pos`, `read` of `n` bytes, and the `assert` that all were there. -/
def readAt (d : Disk) (pos : Int) (n : Nat) : Except Fault Mem :=
  if pos < 0 then .error .lseek
  else if pos.toNat + n ≤ d.size then .ok (view d.byte pos.toNat)
  else .error .assertion

/-- `lseek` to `pos` and `write` of `n` bytes. -/
def writeAt (d : Disk) (pos : Int) (n : Nat) (src : Mem) : Except Fault Disk :=
  if pos < 0 then .error .lseek else .ok (d.pwrite pos.toNat n src)

end Disk

/-! ## `simplefs-disk.c` -/

/-- `simplefs_readSuperBlock`: 64 bytes from the start of the file, of which the first 46 are
    decoded. -/
def readSuperBlock (d : Disk) : Except Fault Superblock := do
  let tempBuf ← d.readAt 0 64
  return .decode tempBuf

/-- The whole block is written; behind the struct it holds what `tempBuf` held. -/
def writeSuperBlock (tempBuf : Mem) (superblock : Superblock) (d : Disk) : Disk :=
  d.pwrite 0 64 (blit tempBuf 0 46 superblock.encode)

/-- `simplefs_readInode`.  The `assert` has no lower bound, so inode -1 is the last half of the
    superblock's block. -/
def readInode (d : Disk) (inodenum : Int) : Except Fault Inode := do
  if inodenum < 8 then
    let tempBuf ← d.readAt (64 + inodenum * 32) 32
    return .decode tempBuf
  else throw .assertion

/-- `simplefs_writeInode`: all 32 bytes of the record, with the same bound as for reading. -/
def writeInode (d : Disk) (inodenum : Int) (inode : Inode) : Except Fault Disk :=
  if inodenum < 8 then d.writeAt (64 + inodenum * 32) 32 inode.encode
  else throw .assertion

/-- The file system: the file and `file_handle_array`. -/
structure FS where
  disk : Disk
  fileHandleArray : Fin 20 → FileHandle

/-- The bytes of `"simplefs"`. -/
def diskName : Fin 8 → UInt8
  | 0 => 115 | 1 => 105 | 2 => 109 | 3 => 112 | 4 => 108 | 5 => 101 | 6 => 102 | 7 => 115

/-- `name` is the content of the `malloc`ed inode's name, of which only the first byte is set. -/
def formatDisk (tempBuf : Mem) (name : Fin 8 → UInt8) : Except Fault FS := do
  let superblock : Superblock :=
    { name := diskName, inodeFreelist := fun _ => flagFree, datablockFreelist := fun _ => flagFree }
  let d := writeSuperBlock tempBuf superblock .empty
  let inode : Inode :=
    { status := inodeFree, name := fun k => if k = 0 then 0 else name k, fileSize := 0,
      directBlocks := fun _ => -1 }
  let d ← (List.finRange 8).foldlM (fun (d : Disk) i => writeInode d i.val inode) d
  return { disk := d, fileHandleArray := fun _ => { offset := 0, inodeNumber := -1 } }

/-- First free inode, marked used; `none` for `-1`. -/
def allocInode (tempBuf : Mem) (d : Disk) : Except Fault (Option (Fin 8) × Disk) := do
  let superblock ← readSuperBlock d
  match (List.finRange 8).find? fun i => superblock.inodeFreelist i = flagFree with
  | some i =>
    let freelist := Function.update superblock.inodeFreelist i flagUsed
    return (some i, writeSuperBlock tempBuf { superblock with inodeFreelist := freelist } d)
  | none => return (none, d)

/-- `simplefs_freeInode`: the flag is given back first, then the record is marked as free, with no
    block and size 0.  Its name stays. -/
def freeInode (tempBuf : Mem) (inodenum : Int) (d : Disk) : Except Fault Disk := do
  if 8 ≤ inodenum then throw .assertion
  let superblock ← readSuperBlock d
  let inode ← readInode d inodenum
  let i ← index 8 inodenum
  if superblock.inodeFreelist i ≠ flagUsed then throw .assertion
  let freelist := Function.update superblock.inodeFreelist i flagFree
  let d := writeSuperBlock tempBuf { superblock with inodeFreelist := freelist } d
  writeInode d inodenum
    { inode with status := inodeFree, fileSize := 0, directBlocks := fun _ => -1 }

/-- First free data block, marked used; `none` for `-1`. -/
def allocDataBlock (tempBuf : Mem) (d : Disk) :
    Except Fault (Option (Fin 30) × Disk) := do
  let superblock ← readSuperBlock d
  match (List.finRange 30).find? fun b => superblock.datablockFreelist b = flagFree with
  | some b =>
    let freelist := Function.update superblock.datablockFreelist b flagUsed
    return (some b, writeSuperBlock tempBuf { superblock with datablockFreelist := freelist } d)
  | none => return (none, d)

/-- `simplefs_freeDataBlock`, for a block that is in use; the data of the block stays. -/
def freeDataBlock (tempBuf : Mem) (blocknum : Int) (d : Disk) : Except Fault Disk := do
  let superblock ← readSuperBlock d
  let b ← index 30 blocknum
  if superblock.datablockFreelist b ≠ flagUsed then throw .assertion
  let freelist := Function.update superblock.datablockFreelist b flagFree
  return writeSuperBlock tempBuf { superblock with datablockFreelist := freelist } d

/-- `simplefs_readDataBlock`.  Block -1 passes the `assert` and is the block of inodes 6 and 7. -/
def readDataBlock (d : Disk) (blocknum : Int) : Except Fault Mem :=
  if blocknum < 30 then d.readAt (64 * (5 + blocknum)) 64
  else throw .assertion

/-- `simplefs_writeDataBlock`: 64 bytes of `buf` to where `readDataBlock` finds them. -/
def writeDataBlock (d : Disk) (blocknum : Int) (buf : Mem) : Except Fault Disk :=
  if blocknum < 30 then d.writeAt (64 * (5 + blocknum)) 64 buf
  else throw .assertion

end OsCodes.SimpleFS
