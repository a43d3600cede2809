/-
  The disk file as a superblock, eight inodes and thirty data blocks.

  `Disk.sb`, `Disk.inode` and `Disk.block` read the three areas back from the bytes.  Each
  routine of `simplefs-disk.c` has one lemma that says it returns and one family that says what
  the three areas are afterwards; the later modules never look at a byte position of the first
  320 again.

  A disk is `Formatted` when its first 320 bytes are there, and a block is `Present` when it has
  been written; a read of either then returns.  `formatDisk_fresh` says what a run starts from:
  every flag free, every inode free and without a name or a block, and every handle closed.
-/
import OsCodes.Lib.Returns
import OsCodes.SimpleFS.Ops

namespace OsCodes.SimpleFS

open Bytes

/-! ## Calls that return -/

section Except

variable {ε α β : Type}

@[simp] theorem ok_bind (a : α) (f : α → Except ε β) : (Except.ok a >>= f) = f a := rfl

@[simp] theorem error_bind (e : ε) (f : α → Except ε β) :
    ((Except.error e : Except ε α) >>= f) = .error e := rfl

@[simp] theorem pure_eq_ok (a : α) : (pure a : Except ε α) = .ok a := rfl

end Except

/-- A subscript in range. -/
theorem index_ok {n : Nat} (i : Fin n) : index n i.val = .ok i := by
  unfold index
  rw [dif_pos ⟨by omega, by have := i.isLt; omega⟩]
  rfl

/-! ## The three areas -/

namespace Disk

/-- The superblock. -/
def sb (d : Disk) : Superblock := .decode d.byte

/-- Inode `i`. -/
def inode (d : Disk) (i : Fin 8) : Inode := .decode (view d.byte (64 + 32 * i))

/-- Data block `b`; its bytes are those below 64. -/
def block (d : Disk) (b : Fin 30) : Mem := view d.byte (64 * (5 + b))

/-- The superblock and all inodes have been written. -/
def Formatted (d : Disk) : Prop := 320 ≤ d.size

/-- Data block `b` has been written. -/
def Present (d : Disk) (b : Fin 30) : Prop := 64 * (6 + (b : Nat)) ≤ d.size

theorem sb_congr {d d' : Disk} (h : ∀ k < 46, d'.byte k = d.byte k) : d'.sb = d.sb :=
  Superblock.decode_congr h

theorem inode_congr {d d' : Disk} {i : Fin 8}
    (h : ∀ k, 64 + 32 * (i : Nat) ≤ k → k < 96 + 32 * (i : Nat) → d'.byte k = d.byte k) :
    d'.inode i = d.inode i :=
  Inode.decode_congr fun k hk => h _ (by omega) (by omega)

/-! ## Writing the superblock -/

section WriteSuperBlock

variable (tempBuf : Mem) (s : Superblock) (d : Disk)

@[simp] theorem size_writeSuperBlock : (writeSuperBlock tempBuf s d).size = max d.size 64 := rfl

theorem byte_writeSuperBlock {k : Nat} (hk : 64 ≤ k) :
    (writeSuperBlock tempBuf s d).byte k = d.byte k := blit_out (by omega)

/-- Behind the struct the block holds what `tempBuf` held. -/
theorem byte_writeSuperBlock_tail {k : Nat} (hk : 46 ≤ k) (hk' : k < 64) :
    (writeSuperBlock tempBuf s d).byte k = tempBuf k := by
  simp only [writeSuperBlock, pwrite]
  rw [blit_in (by omega), blit_out (by omega), Nat.sub_zero]

@[simp] theorem sb_writeSuperBlock : (writeSuperBlock tempBuf s d).sb = s := by
  refine (Superblock.decode_congr fun k hk => ?_).trans s.decode_encode
  simp only [writeSuperBlock, pwrite]
  rw [blit_in (by omega), blit_in (by omega), Nat.sub_zero, Nat.sub_zero]

@[simp] theorem inode_writeSuperBlock (i : Fin 8) :
    (writeSuperBlock tempBuf s d).inode i = d.inode i :=
  inode_congr fun _ h _ => byte_writeSuperBlock tempBuf s d (by omega)

end WriteSuperBlock

/-! ## Writing an inode -/

/-- The disk with inode `i` replaced. -/
def setInode (d : Disk) (i : Fin 8) (s : Inode) : Disk := d.pwrite (64 + 32 * i) 32 s.encode

section SetInode

variable (d : Disk) (i : Fin 8) (s : Inode)

@[simp] theorem size_setInode : (d.setInode i s).size = max d.size (64 + 32 * i + 32) := rfl

theorem byte_setInode {k : Nat} (hk : k < 64 + 32 * (i : Nat) ∨ 96 + 32 * (i : Nat) ≤ k) :
    (d.setInode i s).byte k = d.byte k := blit_out (by omega)

@[simp] theorem inode_setInode_self : (d.setInode i s).inode i = s :=
  (Inode.decode_congr fun _ hk => view_blit_self hk).trans s.decode_encode

@[simp] theorem inode_setInode_ne {j : Fin 8} (h : j ≠ i) :
    (d.setInode i s).inode j = d.inode j :=
  inode_congr fun _ _ _ => byte_setInode d i s (by omega)

@[simp] theorem sb_setInode : (d.setInode i s).sb = d.sb :=
  sb_congr fun _ _ => byte_setInode d i s (by omega)

end SetInode

/-! ## Writing a data block -/

/-- The disk with data block `b` replaced. -/
def setBlock (d : Disk) (b : Fin 30) (buf : Mem) : Disk := d.pwrite (64 * (5 + b)) 64 buf

section SetBlock

variable (d : Disk) (b : Fin 30) (buf : Mem)

@[simp] theorem size_setBlock : (d.setBlock b buf).size = max d.size (64 * (5 + b) + 64) := rfl

theorem byte_setBlock {k : Nat} (hk : k < 64 * (5 + (b : Nat)) ∨ 64 * (6 + (b : Nat)) ≤ k) :
    (d.setBlock b buf).byte k = d.byte k := blit_out (by omega)

theorem block_setBlock_self {k : Nat} (hk : k < 64) : (d.setBlock b buf).block b k = buf k :=
  view_blit_self hk

end SetBlock

end Disk

/-! ## The routines of `simplefs-disk.c` on a formatted disk -/

section Routines

variable {d : Disk}

theorem readSuperBlock_ok (h : d.Formatted) : readSuperBlock d = .ok d.sb := by
  have hsize : (0 : Int).toNat + 64 ≤ d.size := by have : 320 ≤ d.size := h; omega
  simp only [readSuperBlock, Disk.readAt, if_neg (show ¬ (0 : Int) < 0 by omega), if_pos hsize,
    ok_bind, pure_eq_ok]
  congr 1
  exact Superblock.decode_congr fun k _ => by simp

theorem readInode_ok (h : d.Formatted) (i : Fin 8) : readInode d i.val = .ok (d.inode i) := by
  have hpos : (64 + (i.val : Int) * 32).toNat = 64 + 32 * i.val := by omega
  have hsize : 64 + 32 * i.val + 32 ≤ d.size := by
    have : 320 ≤ d.size := h
    omega
  simp only [readInode, Disk.readAt, if_pos (show (i.val : Int) < 8 by omega),
    if_neg (show ¬ 64 + (i.val : Int) * 32 < 0 by omega), hpos, if_pos hsize, ok_bind, pure_eq_ok]
  rfl

theorem writeInode_ok (i : Fin 8) (s : Inode) : writeInode d i.val s = .ok (d.setInode i s) := by
  have hpos : (64 + (i.val : Int) * 32).toNat = 64 + 32 * i.val := by omega
  simp only [writeInode, Disk.writeAt, if_pos (show (i.val : Int) < 8 by omega),
    if_neg (show ¬ 64 + (i.val : Int) * 32 < 0 by omega), hpos]
  rfl

theorem readDataBlock_ok {b : Fin 30} (h : d.Present b) :
    readDataBlock d b.val = .ok (d.block b) := by
  have hpos : (64 * (5 + (b.val : Int))).toNat = 64 * (5 + b.val) := by omega
  have hsize : 64 * (5 + b.val) + 64 ≤ d.size := by
    have : 64 * (6 + b.val) ≤ d.size := h
    omega
  simp only [readDataBlock, Disk.readAt, if_pos (show (b.val : Int) < 30 by omega),
    if_neg (show ¬ 64 * (5 + (b.val : Int)) < 0 by omega), hpos, if_pos hsize]
  rfl

theorem writeDataBlock_ok (b : Fin 30) (buf : Mem) :
    writeDataBlock d b.val buf = .ok (d.setBlock b buf) := by
  have hpos : (64 * (5 + (b.val : Int))).toNat = 64 * (5 + b.val) := by omega
  simp only [writeDataBlock, Disk.writeAt, if_pos (show (b.val : Int) < 30 by omega),
    if_neg (show ¬ 64 * (5 + (b.val : Int)) < 0 by omega), hpos]
  rfl

/-- The superblock with one flag of the inode freelist set. -/
def Superblock.setInodeFlag (s : Superblock) (i : Fin 8) (c : UInt8) : Superblock :=
  { s with inodeFreelist := Function.update s.inodeFreelist i c }

/-- The superblock with one flag of the data block freelist set. -/
def Superblock.setBlockFlag (s : Superblock) (b : Fin 30) (c : UInt8) : Superblock :=
  { s with datablockFreelist := Function.update s.datablockFreelist b c }

section Flags

variable (s : Superblock) (i : Fin 8) (b : Fin 30) (c : UInt8)

@[simp] theorem Superblock.inodeFreelist_setInodeFlag :
    (s.setInodeFlag i c).inodeFreelist = Function.update s.inodeFreelist i c := rfl

@[simp] theorem Superblock.datablockFreelist_setInodeFlag :
    (s.setInodeFlag i c).datablockFreelist = s.datablockFreelist := rfl

@[simp] theorem Superblock.inodeFreelist_setBlockFlag :
    (s.setBlockFlag b c).inodeFreelist = s.inodeFreelist := rfl

@[simp] theorem Superblock.setBlockFlag_self :
    (s.setBlockFlag b c).datablockFreelist b = c := Function.update_self ..

theorem Superblock.setBlockFlag_ne {b' : Fin 30} (h : b' ≠ b) :
    (s.setBlockFlag b c).datablockFreelist b' = s.datablockFreelist b' := Function.update_of_ne h ..

end Flags

theorem freeDataBlock_ok (tempBuf : Mem) (h : d.Formatted) {b : Fin 30}
    (hb : d.sb.datablockFreelist b = flagUsed) :
    freeDataBlock tempBuf b.val d =
      .ok (writeSuperBlock tempBuf (d.sb.setBlockFlag b flagFree) d) := by
  simp only [freeDataBlock, readSuperBlock_ok h, index_ok, hb, ne_eq, not_true, if_false, ok_bind,
    pure_eq_ok]
  rfl

theorem freeInode_ok (tempBuf : Mem) (h : d.Formatted) {i : Fin 8}
    (hi : d.sb.inodeFreelist i = flagUsed) :
    freeInode tempBuf i.val d =
      .ok ((writeSuperBlock tempBuf (d.sb.setInodeFlag i flagFree) d).setInode i
        { d.inode i with status := inodeFree, fileSize := 0, directBlocks := fun _ => -1 }) := by
  have hlt : ¬ (8 : Int) ≤ i.val := by omega
  simp only [freeInode, if_neg hlt, readSuperBlock_ok h, readInode_ok h, index_ok,
    hi, ne_eq, not_true, if_false, ok_bind, writeInode_ok]
  rfl

/-- `simplefs_allocInode` takes the first inode with a free flag. -/
theorem allocInode_ok (tempBuf : Mem) (h : d.Formatted) :
    allocInode tempBuf d =
      .ok (match (List.finRange 8).find? fun i => d.sb.inodeFreelist i = flagFree with
        | some i => (some i, writeSuperBlock tempBuf (d.sb.setInodeFlag i flagUsed) d)
        | none => (none, d)) := by
  simp only [allocInode, readSuperBlock_ok h, ok_bind, pure_eq_ok]
  cases (List.finRange 8).find? fun i => d.sb.inodeFreelist i = flagFree <;> rfl

theorem allocDataBlock_ok (tempBuf : Mem) (h : d.Formatted) :
    allocDataBlock tempBuf d =
      .ok (match (List.finRange 30).find? fun b => d.sb.datablockFreelist b = flagFree with
        | some b => (some b, writeSuperBlock tempBuf (d.sb.setBlockFlag b flagUsed) d)
        | none => (none, d)) := by
  simp only [allocDataBlock, readSuperBlock_ok h, ok_bind, pure_eq_ok]
  cases (List.finRange 30).find? fun b => d.sb.datablockFreelist b = flagFree <;> rfl

end Routines

/-! ## The handle array -/

section SetHandle

variable (fs : FS) (h : Fin 20) (handle : FileHandle)

@[simp] theorem FS.setHandle_self : (fs.setHandle h handle).fileHandleArray h = handle :=
  Function.update_self ..

theorem FS.setHandle_ne {k : Fin 20} (hk : k ≠ h) :
    (fs.setHandle h handle).fileHandleArray k = fs.fileHandleArray k :=
  Function.update_of_ne hk ..

end SetHandle

/-! ## The formatted disk -/

/-- What `simplefs_formatDisk` leaves: free flags, free inodes with no name and no block, and
    no open handle. -/
structure Fresh (fs : FS) : Prop where
  formatted : fs.disk.Formatted
  inodeFlag : ∀ i, fs.disk.sb.inodeFreelist i = flagFree
  blockFlag : ∀ b, fs.disk.sb.datablockFreelist b = flagFree
  status : ∀ i, (fs.disk.inode i).status = inodeFree
  noName : ∀ i, (fs.disk.inode i).name 0 = 0
  fileSize : ∀ i, (fs.disk.inode i).fileSize = 0
  noBlock : ∀ i c, (fs.disk.inode i).directBlocks c = -1
  handle : ∀ h, fs.fileHandleArray h = { offset := 0, inodeNumber := -1 }

/-- Writing one inode record to all of `is`: the rest of the disk stays. -/
theorem foldlM_writeInode (s : Inode) : ∀ (is : List (Fin 8)) (d : Disk),
    ∃ d', is.foldlM (fun (d : Disk) i => writeInode d i.val s) d = .ok d' ∧
      d.size ≤ d'.size ∧ (∀ i ∈ is, 96 + 32 * (i : Nat) ≤ d'.size) ∧ d'.sb = d.sb ∧
      (∀ i ∈ is, d'.inode i = s) ∧ ∀ i, i ∉ is → d'.inode i = d.inode i := by
  intro is
  induction is with
  | nil => intro d; exact ⟨d, rfl, Nat.le_refl _, by simp, rfl, by simp, fun _ _ => rfl⟩
  | cons i is ih =>
    intro d
    obtain ⟨d', hrun, hsize, hpres, hsb, hin, hout⟩ := ih (d.setInode i s)
    rw [Disk.size_setInode] at hsize
    refine ⟨d', ?_, by omega, ?_, by rw [hsb, Disk.sb_setInode], ?_, ?_⟩
    · rw [List.foldlM_cons, writeInode_ok, ok_bind, hrun]
    · intro j hj
      rcases List.mem_cons.mp hj with rfl | hj
      · omega
      · exact hpres j hj
    · intro j hj
      by_cases hjs : j ∈ is
      · exact hin j hjs
      · obtain rfl : j = i := (List.mem_cons.mp hj).resolve_right hjs
        rw [hout j hjs, Disk.inode_setInode_self]
    · intro j hj
      have hji : j ≠ i := fun heq => hj (by rw [heq]; exact List.mem_cons_self)
      rw [hout j fun hjs => hj (List.mem_cons_of_mem _ hjs), Disk.inode_setInode_ne d i s hji]

/-- **Formatting succeeds and leaves a fresh file system.** -/
theorem formatDisk_fresh (tempBuf : Mem) (name : Fin 8 → UInt8) :
    ∃ fs, formatDisk tempBuf name = .ok fs ∧ Fresh fs := by
  obtain ⟨d', hrun, -, hpres, hsb, hinode, -⟩ := foldlM_writeInode
    { status := inodeFree, name := fun k => if k = 0 then 0 else name k, fileSize := 0,
      directBlocks := fun _ => -1 }
    (List.finRange 8)
    (writeSuperBlock tempBuf
      { name := diskName, inodeFreelist := fun _ => flagFree,
        datablockFreelist := fun _ => flagFree } .empty)
  simp only [List.mem_finRange, forall_const, Disk.sb_writeSuperBlock] at hpres hsb hinode
  refine ⟨_, by simp only [formatDisk, hrun, ok_bind, pure_eq_ok]; rfl, ?_⟩
  constructor
  · exact hpres 7
  all_goals simp [hsb, hinode]

end OsCodes.SimpleFS
