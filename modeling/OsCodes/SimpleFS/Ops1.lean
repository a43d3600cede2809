/-
  The second implementation of the file operations: `simplefs-code/simplefs-ops_1.c`.

  It shares the disk routines and the handle array with `simplefs-ops.c`.  Its create and open go
  by the name alone, its delete empties the name before it frees the blocks, its read looks at the
  status of the inode, and its seek rejects what lands outside the largest file.

  Only what differs is written down again.  `Equivalence` compares the two, function by function
  and over runs; the laws of the other modules are about `simplefs-ops.c`.
-/
import OsCodes.SimpleFS.Ops

namespace OsCodes.SimpleFS

open Bytes

/-- The test of the search loops: an inode under this name, in use or not. -/
def Inode.hasName (filename : CStr) (inode : Inode) : Bool := strcmpEq inode.nameMem filename

namespace Ops1

/-! ## `simplefs-ops_1.c` -/

/-- As `Ops.create`, but any inode under the name is in the way, in use or not. -/
def create (tempBuf : Mem) (filename : CStr) (fs : FS) :
    Except Fault (Option (Fin 8) × FS) := do
  let (found, inodeptr) ←
    scanInodes fs.disk (Inode.hasName filename) (List.finRange 8) .unset
  if found.isSome then return (none, fs)
  let (newInodeNum, d) ← allocInode tempBuf fs.disk
  match newInodeNum with
  | none => return (none, { fs with disk := d })
  | some i =>
    let inodeptr := { inodeptr with status := inodeInUse }
    let inodeptr ← inodeptr.strcpyName filename
    let d ← writeInode d i.val { inodeptr with fileSize := 0, directBlocks := fun _ => -1 }
    return (some i, { fs with disk := d })

/-- As `Ops.delete`, with the name emptied before the blocks are freed. -/
def delete (tempBuf : Nat → Mem) (filename : CStr) (fs : FS) : Except Fault FS := do
  let (found, inodeptr) ←
    scanInodes fs.disk (Inode.isFile filename) (List.finRange 8) .unset
  match found with
  | none => return fs
  | some i =>
    let inodeptr ← inodeptr.strcpyName CStr.empty
    let d ← freeBlocks tempBuf inodeptr (List.finRange 4) fs.disk
    let d ← writeInode d i.val inodeptr
    let d ← freeInode (tempBuf 4) i.val d
    return { fs with disk := d }

/-- As `Ops.openFile`, by the name alone. -/
def openFile (filename : CStr) (fs : FS) : Except Fault (Option (Fin 20) × FS) := do
  let (t, _) ← scanInodes fs.disk (Inode.hasName filename) (List.finRange 8) .unset
  match t with
  | none => return (none, fs)
  | some i => return Ops.bindHandle fs i

/-- As in `simplefs-ops.c`: the two files have the same code here. -/
def close (fileHandle : Fin 20) (fs : FS) : FS := Ops.close fileHandle fs

/-- As `Ops.read`, where an inode that is not in use ends the call with -1. -/
def read (temp : Int → UInt8) (fileHandle : Fin 20) (nbytes : Int32) (fs : FS) :
    Except Fault (Int × List UInt8) := do
  let newOffset := (fs.fileHandleArray fileHandle).offset
  let inodeptr ← readInode fs.disk (fs.fileHandleArray fileHandle).inodeNumber.toInt
  if inodeptr.status = inodeFree then return (-1, [])
  if nbytes.toInt < 0 ∨ inodeptr.fileSize.toInt < (newOffset + nbytes).toInt then
    return (-1, [])
  let temp ← loadBlocks fs.disk inodeptr (List.finRange 4) temp
  return (0, (List.range nbytes.toInt.toNat).map (strncpy fun k => temp (newOffset.toInt + k)))

/-- As in `simplefs-ops.c`, text for text. -/
def write (tempBuf : Nat → Mem) (fileHandle : Fin 20) (buf : Mem) (nbytes : Int32) (fs : FS) :
    Except Fault (Int × FS) := Ops.write tempBuf fileHandle buf nbytes fs

/-- The test is for both bounds of the largest file, 0 and 256, and not for the size of this one. -/
def seek (fileHandle : Fin 20) (nseek : Int32) (fs : FS) : Int × FS :=
  let newOffset := (fs.fileHandleArray fileHandle).offset
  if 256 < (newOffset + nseek).toInt ∨ (newOffset + nseek).toInt < 0 then (-1, fs)
  else
    (0, fs.setHandle fileHandle
      { fs.fileHandleArray fileHandle with offset := newOffset + nseek })

/-- One call, by `simplefs-ops_1.c`. -/
def exec (u : Uninit) (fs : FS) : Op → Except Fault (Ret × FS)
  | .create filename => do
    let (i, fs') ← create (u.tempBuf 0) filename fs
    return (.ofIndex i, fs')
  | .delete filename => do
    let fs' ← delete u.tempBuf filename fs
    return (⟨0, []⟩, fs')
  | .openFile filename => do
    let (h, fs') ← openFile filename fs
    return (.ofIndex h, fs')
  | .close fileHandle => return (⟨0, []⟩, close fileHandle fs)
  | .seek fileHandle nseek =>
    let (ret, fs') := seek fileHandle nseek fs
    return (⟨ret, []⟩, fs')
  | .read fileHandle nbytes => do
    let (ret, data) ← read u.temp fileHandle nbytes fs
    return (⟨ret, data⟩, fs)
  | .write fileHandle buf nbytes => do
    let (ret, fs') ← write u.tempBuf fileHandle buf nbytes fs
    return (⟨ret, []⟩, fs')

end Ops1

/-- The system with `simplefs-ops_1.c` in the place of `simplefs-ops.c`. -/
def simplefs1 : Lts FS Event where
  start fs := ∃ tempBuf name, formatDisk tempBuf name = .ok fs
  step fs e fs' := Ops1.exec e.uninit fs e.op = .ok (e.ret, fs')

end OsCodes.SimpleFS
