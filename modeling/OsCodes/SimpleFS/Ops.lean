/-
  The file operations of SimpleFS: `simplefs-code/simplefs-ops.c`.

  Each function is a run of the program's own steps on the disk file and the handle array.
  `for` loops over inodes, slots or handles are recursions over the list of their indices; the
  `while` loop of `simplefs_write` takes the number of bytes as fuel, one byte at least being
  copied in every turn.  The buffer argument of a write is a memory, as `char *` is.

  What is kept although it looks like a slip, because some law turns on it:

  1. the clean-up loop of a failed write looks at the same slot in every turn (`undoLoop`);
  2. `simplefs_write` adds the number of bytes to `file_size` wherever they go;
  3. bytes pass `strncpy` on their way in and on their way out, which stops at a NUL;
  4. the check of `simplefs_seek` asks for a sum that is negative and above 256 at once;
  5. `simplefs_read` does not look at the status of the inode.

  A call takes the memory that it finds uninitialised as an argument (`Uninit`), so that a law
  over all runs is one over all such memories as well.  The dumps that the tests print are left
  out.
-/
import OsCodes.SimpleFS.Disk
import OsCodes.Lib.Lts

namespace OsCodes.SimpleFS

open Bytes

/-- `for (i ..) { simplefs_readInode(i, &inodeptr); if (hit) stop; }`: the index it stopped at,
    and `inodeptr` as the loop leaves it. -/
def scanInodes (d : Disk) (hit : Inode → Bool) :
    List (Fin 8) → Inode → Except Fault (Option (Fin 8) × Inode)
  | [], inodeptr => .ok (none, inodeptr)
  | i :: is, _ => do
    let inodeptr ← readInode d i.val
    if hit inodeptr then return (some i, inodeptr) else scanInodes d hit is inodeptr

/-- `inodeptr` before the first `simplefs_readInode`; no function looks at it. -/
def Inode.unset : Inode := .decode fun _ => 0

/-- `strcpy(inodeptr.name, s)`.  A string longer than the field runs on into the fields behind
    it; past the struct it is out of bounds. -/
def Inode.strcpyName (inode : Inode) (s : CStr) : Except Fault Inode :=
  if s.len + 1 ≤ 28 then .ok (.decode (blit inode.encode 4 (s.len + 1) s.mem))
  else .error .bounds

/-- `""`. -/
def CStr.empty : CStr := ⟨[], List.not_mem_nil⟩

/-- The test of the search loops: an inode in use under this name. -/
def Inode.isFile (filename : CStr) (inode : Inode) : Bool :=
  inode.status = inodeInUse && strcmpEq inode.nameMem filename

/-- `for (i ..) if (direct_blocks[i] != -1) simplefs_freeDataBlock(direct_blocks[i]);` -/
def freeBlocks (tempBuf : Nat → Mem) (inode : Inode) : List (Fin 4) → Disk → Except Fault Disk
  | [], d => .ok d
  | i :: is, d => do
    if inode.directBlocks i ≠ -1 then
      let d ← freeDataBlock (tempBuf i) (inode.directBlocks i).toInt d
      freeBlocks tempBuf inode is d
    else freeBlocks tempBuf inode is d

/-- `for (i ..) if (direct_blocks[i] != -1) simplefs_readDataBlock(.., temp + i*BLOCKSIZE);`
    `temp` is the memory in and around the staging buffer. -/
def loadBlocks (d : Disk) (inode : Inode) :
    List (Fin 4) → (Int → UInt8) → Except Fault (Int → UInt8)
  | [], temp => .ok temp
  | i :: is, temp => do
    if inode.directBlocks i ≠ -1 then
      let buf ← readDataBlock d (inode.directBlocks i).toInt
      loadBlocks d inode is fun p =>
        if 64 * i.val ≤ p ∧ p < 64 * i.val + 64 then buf (p - 64 * i.val).toNat else temp p
    else loadBlocks d inode is temp

/-- The number of blocks that `z` bytes reach into: `z / BLOCKSIZE`, one more unless `z` is a
    multiple (`num_curr_block` and `num_block_req`). -/
def roundUp (z : Int) : Int := if z.tmod 64 = 0 then z.tdiv 64 else z.tdiv 64 + 1

/-- The values of `i` in `for (int i = lo; i < hi; i++)`. -/
def slotRange (lo hi : Int) : List Int := (List.range (hi - lo).toNat).map fun k : Nat => lo + k

/-- The clean-up loop of a failed write: every turn looks at slot `i`, the one left empty. -/
def undoLoop (tempBuf : Mem) (inode : Inode) (i : Fin 4) : List Int → Disk → Except Fault Disk
  | [], d => .ok d
  | _ :: js, d => do
    if inode.directBlocks i ≠ -1 then
      let d ← freeDataBlock tempBuf (inode.directBlocks i).toInt d
      undoLoop tempBuf inode i js d
    else return d

/-- The allocation loop of `simplefs_write` over the slots `is`; `none` when it returns `-1`. -/
def allocLoop (tempBuf : Nat → Mem) (slots : List Int) :
    List Int → Inode → Disk → Except Fault (Option Inode × Disk)
  | [], inode, d => .ok (some inode, d)
  | i :: is, inode, d => do
    let i ← index 4 i
    if inode.directBlocks i = -1 then
      let (newDatablock, d) ← allocDataBlock (tempBuf i) d
      match newDatablock with
      | none =>
        let d ← undoLoop (tempBuf i) inode i slots d
        return (none, d)
      | some b =>
        let blocks := Function.update inode.directBlocks i (Int32.ofInt b)
        allocLoop tempBuf slots is { inode with directBlocks := blocks } d
    else allocLoop tempBuf slots is inode d

/-- The block of a write that starts inside a block: its old bytes up to the offset, the new
    bytes, then zeros.  Returns the disk, `mem_copied` and `curr_block_index`. -/
def writePartial (inode : Inode) (buf : Mem) (nbytes offsetAtCurrBlock numCurrBlock : Int)
    (d : Disk) : Except Fault (Disk × Nat × Int) := do
  if offsetAtCurrBlock ≠ 0 then
    let i ← index 4 (numCurrBlock - 1)
    let currBlockNum := (inode.directBlocks i).toInt
    let bytesToAdd := (min (64 - offsetAtCurrBlock) nbytes).toNat
    let temp ← readDataBlock d currBlockNum
    if offsetAtCurrBlock < 0 then throw .bounds
    let off := offsetAtCurrBlock.toNat
    let temp := blit temp off bytesToAdd (strncpy buf)
    let temp := blit temp (off + bytesToAdd) (64 - (off + bytesToAdd)) fun _ => 0
    let d ← writeDataBlock d currBlockNum temp
    return (d, bytesToAdd, numCurrBlock - 1 + 1)
  else return (d, 0, numCurrBlock)

/-- `while (mem_copied < nbytes)`: one block after the other. -/
def writeLoop (inode : Inode) (buf : Mem) (nbytes : Nat) :
    Nat → Disk → Nat → Int → Except Fault (Disk × Nat)
  | 0, d, memCopied, _ => .ok (d, memCopied)
  | fuel + 1, d, memCopied, currBlockIndex => do
    if memCopied < nbytes then
      let i ← index 4 currBlockIndex
      let bytesToAdd := min 64 (nbytes - memCopied)
      let temp := blit (fun _ => 0) 0 bytesToAdd (strncpy (view buf memCopied))
      let d ← writeDataBlock d (inode.directBlocks i).toInt temp
      writeLoop inode buf nbytes fuel d (memCopied + bytesToAdd) (currBlockIndex + 1)
    else return (d, memCopied)

/-- `file_handle_array[h] = handle`. -/
def FS.setHandle (fs : FS) (h : Fin 20) (handle : FileHandle) : FS :=
  { fs with fileHandleArray := Function.update fs.fileHandleArray h handle }

namespace Ops

/-! ## `simplefs-ops.c` -/

/-- The inode number, or `none` for `-1`. -/
def create (tempBuf : Mem) (filename : CStr) (fs : FS) :
    Except Fault (Option (Fin 8) × FS) := do
  let (found, inodeptr) ←
    scanInodes fs.disk (Inode.isFile filename) (List.finRange 8) .unset
  if found.isSome then return (none, fs)
  let (inodeNum, d) ← allocInode tempBuf fs.disk
  match inodeNum with
  | none => return (none, { fs with disk := d })
  | some i =>
    -- `inodeptr` still holds the inode that the search read last
    let inodeptr := { inodeptr with status := inodeInUse, fileSize := 0 }
    let inodeptr ← inodeptr.strcpyName filename
    let d ← writeInode d i.val { inodeptr with directBlocks := fun _ => -1 }
    return (some i, { fs with disk := d })

/-- Nothing happens where no file has the name.  The blocks go first, then the name, then the inode;
    handles that are bound to it stay so. -/
def delete (tempBuf : Nat → Mem) (filename : CStr) (fs : FS) : Except Fault FS := do
  let (found, inodeptr) ←
    scanInodes fs.disk (Inode.isFile filename) (List.finRange 8) .unset
  match found with
  | none => return fs
  | some i =>
    let d ← freeBlocks tempBuf inodeptr (List.finRange 4) fs.disk
    let inodeptr ← inodeptr.strcpyName CStr.empty
    let d ← writeInode d i.val inodeptr
    let d ← freeInode (tempBuf 4) i.val d
    return { fs with disk := d }

/-- The first free handle, bound to inode `i` at offset 0. -/
def bindHandle (fs : FS) (i : Fin 8) : Option (Fin 20) × FS :=
  match (List.finRange 20).find? fun h => (fs.fileHandleArray h).inodeNumber = -1 with
  | some h => (some h, fs.setHandle h { offset := 0, inodeNumber := Int32.ofInt i })
  | none => (none, fs)

/-- `simplefs_open`: the handle, or `none` for `-1`. -/
def openFile (filename : CStr) (fs : FS) : Except Fault (Option (Fin 20) × FS) := do
  let (found, _) ← scanInodes fs.disk (Inode.isFile filename) (List.finRange 8) .unset
  match found with
  | none => return (none, fs)
  | some i => return bindHandle fs i

/-- The handle is free again, whatever it was bound to. -/
def close (fileHandle : Fin 20) (fs : FS) : FS :=
  fs.setHandle fileHandle { offset := 0, inodeNumber := -1 }

/-- The return value, and the bytes that a successful call puts into the buffer. -/
def read (temp : Int → UInt8) (fileHandle : Fin 20) (nbytes : Int32) (fs : FS) :
    Except Fault (Int × List UInt8) := do
  let newOffset := (fs.fileHandleArray fileHandle).offset
  let inodeptr ← readInode fs.disk (fs.fileHandleArray fileHandle).inodeNumber.toInt
  if nbytes.toInt < 0 ∨ inodeptr.fileSize.toInt < (newOffset + nbytes).toInt then
    return (-1, [])
  let temp ← loadBlocks fs.disk inodeptr (List.finRange 4) temp
  return (0, (List.range nbytes.toInt.toNat).map (strncpy fun k => temp (newOffset.toInt + k)))

/-- The blocks that the write needs are allocated first, and where the disk is full the call fails
    there.  The offset stays, and the size grows by all that was copied, even where bytes were there
    before. -/
def write (tempBuf : Nat → Mem) (fileHandle : Fin 20) (buf : Mem) (nbytes : Int32) (fs : FS) :
    Except Fault (Int × FS) := do
  let newOffset := (fs.fileHandleArray fileHandle).offset
  let inodeNum := (fs.fileHandleArray fileHandle).inodeNumber.toInt
  let inodeptr ← readInode fs.disk inodeNum
  if inodeptr.status = inodeFree then return (-1, fs)
  let endOffset := (newOffset + nbytes).toInt
  if nbytes.toInt < 0 ∨ 256 < endOffset then return (-1, fs)
  let numCurrBlock := roundUp newOffset.toInt
  let slots := slotRange numCurrBlock (roundUp endOffset)
  let (filled, d) ← allocLoop tempBuf slots slots inodeptr fs.disk
  match filled with
  | none => return (-1, { fs with disk := d })
  | some inodeptr =>
    let (d, memCopied, currBlockIndex) ←
      writePartial inodeptr buf nbytes.toInt (newOffset.toInt.tmod 64) numCurrBlock d
    let n := nbytes.toInt.toNat
    let (d, memCopied) ← writeLoop inodeptr buf n n d memCopied currBlockIndex
    let d ← writeInode d inodeNum
      { inodeptr with fileSize := inodeptr.fileSize + Int32.ofInt memCopied }
    return (0, { fs with disk := d })

/-- No sum is both negative and above 256: the check never rejects. -/
def seek (fileHandle : Fin 20) (nseek : Int32) (fs : FS) : Int × FS :=
  let newOffset := (fs.fileHandleArray fileHandle).offset
  if (newOffset + nseek).toInt < 0 ∧ 256 < (newOffset + nseek).toInt then (-1, fs)
  else
    (0, fs.setHandle fileHandle
      { fs.fileHandleArray fileHandle with offset := newOffset + nseek })

end Ops

/-! ## Calls -/

/-- A call of the interface in `simplefs-ops.h`.  A handle is one that `simplefs_open` can
    return. -/
inductive Op
  | create (filename : CStr)
  | delete (filename : CStr)
  | openFile (filename : CStr)
  | close (fileHandle : Fin 20)
  | seek (fileHandle : Fin 20) (nseek : Int32)
  | read (fileHandle : Fin 20) (nbytes : Int32)
  | write (fileHandle : Fin 20) (buf : Mem) (nbytes : Int32)

/-- The memory a call finds uninitialised: `tempBuf` of its successive superblock writes, and
    the stack in and around the staging buffer of a read. -/
structure Uninit where
  tempBuf : Nat → Mem
  temp : Int → UInt8

/-- What the caller gets: the return value (0 for a `void` function) and the bytes put into
    its buffer. -/
structure Ret where
  val : Int
  data : List UInt8
  deriving DecidableEq

/-- `-1` for `none`. -/
def Ret.ofIndex {n : Nat} (i : Option (Fin n)) : Ret := ⟨i.elim (-1) fun i => i.val, []⟩

/-- One call, by `simplefs-ops.c`. -/
def Ops.exec (u : Uninit) (fs : FS) : Op → Except Fault (Ret × FS)
  | .create filename => do
    let (i, fs') ← create (u.tempBuf 0) filename fs
    return (.ofIndex i, fs')
  | .delete filename => do
    let fs' ← delete u.tempBuf filename fs
    return (⟨0, []⟩, fs')
  | .openFile filename => do
    let (h, fs') ← openFile filename fs
    return (.ofIndex h, fs')
  | .close fileHandle => return (⟨0, []⟩, close fileHandle fs)
  | .seek fileHandle nseek =>
    let (ret, fs') := seek fileHandle nseek fs
    return (⟨ret, []⟩, fs')
  | .read fileHandle nbytes => do
    let (ret, data) ← read u.temp fileHandle nbytes fs
    return (⟨ret, data⟩, fs)
  | .write fileHandle buf nbytes => do
    let (ret, fs') ← write u.tempBuf fileHandle buf nbytes fs
    return (⟨ret, []⟩, fs')

/-- A call with its uninitialised memory and its outcome. -/
structure Event where
  op : Op
  uninit : Uninit
  ret : Ret

/-- SimpleFS as a system: it starts freshly formatted and moves by calls that return. -/
def simplefs : Lts FS Event where
  start fs := ∃ tempBuf name, formatDisk tempBuf name = .ok fs
  step fs e fs' := Ops.exec e.uninit fs e.op = .ok (e.ret, fs')

end OsCodes.SimpleFS
