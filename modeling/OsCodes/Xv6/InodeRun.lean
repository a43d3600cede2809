/-
  The file system as its callers see it.

  `exec` is what the system calls do to inodes, one operation after the other; between two of them
  an inode in memory is as it is on the disk.  `Spec` is a table of files, with no blocks, no bitmap
  and no block maps, and every run of `exec` is a run of it.

  Structure:

  1. `exec` is one operation of a system call on an inode that it locks, with its answer or its
     panic;
  2. `Spec` is the table of files, with `Spec.Lacks` for what an operation may lack and
     `Spec.message` for what the panic then says;
  3. `Sane.agrees` compares one operation with the table, and `Sane.run` whole runs;
  4. `runs_of_table` is the refinement, `reach_panics_iff` says which operation panics and with
     which message, and `reach_blocks` whose each block is, in every state that is reached.

  Since a disk is a function of block numbers, runs are computed on a small one; `answers` gives
  what the operations return on it, one after the other.
-/
import Mathlib.Algebra.BigOperators.Fin
import OsCodes.Lib.Budget
import OsCodes.Lib.Lts
import OsCodes.Lib.Returns
import OsCodes.Xv6.InodeCount

namespace OsCodes.Inodes

open Bytes Log

/-- Inode `i` in memory, as it was read from the disk. -/
def inode (sb : Superblock) (d : Disk) (i : Nat) : Inode := { dinode sb d i with inum := i }

/-- What `ilock` reads from the disk into the inode that it locks. -/
def ilock (sb : Superblock) (d : Disk) (i : Nat) : Except String Inode :=
  if (dinode sb d i).type = 0 then .error "ilock: no type" else .ok (inode sb d i)

/-- `iput`, for an inode that has `ref` references. -/
def iput (sb : Superblock) (d : Disk) (ip : Inode) (valid : Bool) (ref : Nat) :
    Except String Disk :=
  if (valid ∧ ip.nlink = 0) ∧ ref = 1 then do
    let r ← itrunc sb d ip
    return iupdate sb r.2 { r.1 with type := 0 }
  else .ok d

/-- What the system calls do to inodes. -/
inductive Op (N : Nat)
  | ialloc (type : Int16)
  | readi (i : Fin N) (off n : UInt32)
  | writei (i : Fin N) (src : Mem) (off n : UInt32)
  /-- `create`, `sys_link` and `sys_unlink` change these fields. -/
  | iupdate (i : Fin N) (major minor nlink : Int16)
  | iput (i : Fin N) (valid : Bool) (ref : Nat)

/-- What an operation returns. -/
inductive Answer
  | inum (i : Nat)
  | bytes (r : Option (List UInt8))
  | count (r : Option UInt32)
  | done
  deriving DecidableEq

/-- One operation, on an inode that it locks. -/
def exec (dev : Devsw) (sb : Superblock) (d : Disk) : Op sb.ninodes → Except String (Answer × Disk)
  | .ialloc type => do
    let r ← ialloc sb d type
    return (.inum r.1, r.2)
  | .readi i off n => do
    let ip ← ilock sb d i
    let r ← readi dev sb d ip off n
    return (.bytes r.1, r.2.2)
  | .writei i src off n => do
    let ip ← ilock sb d i
    let r ← writei dev sb d ip src off n
    return (.count r.1, r.2.2)
  | .iupdate i major minor nlink => do
    let ip ← ilock sb d i
    return (.done, iupdate sb d { ip with major := major, minor := minor, nlink := nlink })
  | .iput i valid ref => do
    -- `iput` locks the inode itself and does not read it
    let d ← iput sb d (inode sb d i) valid ref
    return (.done, d)

/-- The runs from the disk `d₀`. -/
def system (dev : Devsw) (sb : Superblock) (d₀ : Disk) : Lts Disk (Op sb.ninodes × Answer) where
  start d := d = d₀
  step d e d' := exec dev sb d e.1 = .ok (e.2, d')

/-! ## The table of files -/

namespace Spec

/-- What the driver of a device reads. -/
def driverRead (dev : Devsw) (major : Int16) (n : UInt32) : Option (List UInt8) :=
  if major < 0 ∨ NDEV ≤ major then none
  else (dev.read major.toNatClampNeg).bind fun read => read n

/-- What it says it has written. -/
def driverWrite (dev : Devsw) (major : Int16) (src : Mem) (n : UInt32) : Option UInt32 :=
  if major < 0 ∨ NDEV ≤ major then none
  else (dev.write major.toNatClampNeg).bind fun write => write src n

/-- The request starts behind the end, or wraps around. -/
def refused (f : File) (off n : UInt32) : Bool :=
  decide (f.data.length < off.toNat) || decide (4294967296 ≤ off.toNat + n.toNat)

/-- Nothing is written beyond the largest file. -/
def tooLarge (off n : UInt32) : Bool := decide (MAXFILE * BSIZE < off.toNat + n.toNat)

/-- What a read gives back, said of the bytes: none of the block map is left. -/
def read (dev : Devsw) (f : File) (off n : UInt32) : Option (List UInt8) :=
  if f.type = T_DEV then driverRead dev f.major n
  else if refused f off n then none
  else some ((f.data.drop off.toNat).take n.toNat)

/-- What a write answers, and the file it leaves. -/
def write (dev : Devsw) (f : File) (src : Mem) (off n : UInt32) : Option UInt32 × File :=
  if f.type = T_DEV then (driverWrite dev f.major src n, f)
  else if refused f off n || tooLarge off n then (none, f)
  else (some n, f.withData (overwrite f.data off.toNat ((List.range n.toNat).map src)))

/-- What an operation answers and does. -/
def Step {N : Nat} (dev : Devsw) (f : Fin N → File) : Op N → Answer → (Fin N → File) → Prop
  | .ialloc type, a, f' => ∃ i : Fin N, 1 ≤ i.val ∧ (f i).type = 0 ∧ a = .inum i ∧
      f' = Function.update f i ⟨type, 0, 0, 0, []⟩
  | .readi i off n, a, f' => a = .bytes (read dev (f i) off n) ∧ f' = f
  | .writei i src off n, a, f' => a = .count (write dev (f i) src off n).1 ∧
      f' = Function.update f i (write dev (f i) src off n).2
  | .iupdate i major minor nlink, a, f' => a = .done ∧
      f' = Function.update f i { f i with major := major, minor := minor, nlink := nlink }
  | .iput i valid ref, a, f' => a = .done ∧ f' = if (valid ∧ (f i).nlink = 0) ∧ ref = 1 then
      Function.update f i { f i with type := 0, data := [] } else f

/-- The blocks of all files. -/
def blocks {N : Nat} (f : Fin N → File) : Nat := total (fun x : File => need x.data.length) f

/-- What an operation may lack: a free inode, a file, or blocks for what it writes. -/
def Lacks {N : Nat} (dev : Devsw) (sb : Superblock) (f : Fin N → File) : Op N → Prop
  | .ialloc _ => ∀ i : Fin N, 1 ≤ i.val → (f i).type ≠ 0
  | .readi i _ _ | .iupdate i _ _ _ => (f i).type = 0
  | .writei i src off n => (f i).type = 0 ∨
      sb.size < sb.nmeta + blocks (Function.update f i (write dev (f i) src off n).2)
  | .iput _ _ _ => False

instance {N : Nat} (dev : Devsw) (sb : Superblock) (f : Fin N → File) (op : Op N) :
    Decidable (Lacks dev sb f op) :=
  match op with
  | .ialloc _ => inferInstanceAs (Decidable (∀ i : Fin N, 1 ≤ i.val → (f i).type ≠ 0))
  | .readi i _ _ | .iupdate i _ _ _ => inferInstanceAs (Decidable ((f i).type = 0))
  | .writei i _ _ _ => inferInstanceAs (Decidable ((f i).type = 0 ∨ sb.size < _))
  | .iput _ _ _ => inferInstanceAs (Decidable False)

/-- What the panic says when something is missing: a file is locked before it is written. -/
def message {N : Nat} (f : Fin N → File) : Op N → String
  | .ialloc _ => "ialloc: no inodes"
  | .writei i _ _ _ => if (f i).type = 0 then "ilock: no type" else "balloc: out of blocks"
  | .readi _ _ _ | .iupdate _ _ _ _ | .iput _ _ _ => "ilock: no type"

/-- The runs from the table `f₀`. -/
def system {N : Nat} (dev : Devsw) (sb : Superblock) (f₀ : Fin N → File) :
    Lts (Fin N → File) (Op N × Answer) where
  start f := f = f₀
  step f e f' := ¬ Lacks dev sb f e.1 ∧ Step dev f e.1 e.2 f'

/-- What is not in use is empty. -/
def Blank {N : Nat} (f : Fin N → File) : Prop := ∀ i, (f i).type = 0 → (f i).data = []

section Blank

variable {N : Nat} {dev : Devsw} {sb : Superblock} {f f' : Fin N → File} {op : Op N} {a : Answer}

theorem Blank.update (h : Blank f) (i : Fin N) {x : File} (hx : x.type = 0 → x.data = []) :
    Blank (Function.update f i x) := by
  intro j
  by_cases hji : j = i
  · rw [hji, Function.update_self]
    exact hx
  · rw [Function.update_of_ne hji]
    exact h j

theorem write_type (dev : Devsw) (x : File) (src : Mem) (off n : UInt32) :
    (write dev x src off n).2.type = x.type := by
  rw [write]
  split
  · rfl
  · split
    · rfl
    · rfl

/-- Every step keeps it. -/
theorem Blank.step (h : Blank f) (hlacks : ¬ Lacks dev sb f op) (hstep : Step dev f op a f') :
    Blank f' := by
  cases op with
  | ialloc type =>
    obtain ⟨i, -, -, -, rfl⟩ := hstep
    exact h.update i fun _ => rfl
  | readi i off n =>
    rw [hstep.2]
    exact h
  | writei i src off n =>
    -- a file that is written is in use
    rw [hstep.2]
    refine h.update i fun htype => ?_
    rw [write_type] at htype
    exact absurd (.inl htype) hlacks
  | iupdate i major minor nlink =>
    rw [hstep.2]
    exact h.update i (h i)
  | iput i valid ref =>
    rw [hstep.2]
    split
    · exact h.update i fun _ => rfl
    · exact h

end Blank

end Spec

/-! ## One operation -/

/-- The files on the disk, as a table. -/
def table (sb : Superblock) (d : Disk) : Fin sb.ninodes → File := fun i => files sb d i

/-- Between two operations: in addition, an inode that is not in use is empty. -/
structure Sane (sb : Superblock) (d : Disk) : Prop where
  consistent : Consistent sb d
  blank : Spec.Blank (table sb d)

section Exec

variable {dev : Devsw} {sb : Superblock} {d d' : Disk} {i : Fin sb.ninodes} {off n : UInt32}
  {src : Mem} {op : Op sb.ninodes}

/-- `exec` does what the table says, or panics with the message for what is missing. -/
def Agrees (dev : Devsw) (sb : Superblock) (d : Disk) (op : Op sb.ninodes) : Prop :=
  (∃ a d', exec dev sb d op = .ok (a, d') ∧ Consistent sb d' ∧
    ¬ Spec.Lacks dev sb (table sb d) op ∧ Spec.Step dev (table sb d) op a (table sb d')) ∨
  exec dev sb d op = .error (Spec.message (table sb d) op) ∧ Spec.Lacks dev sb (table sb d) op

theorem length_data (sb : Superblock) (d : Disk) (i : Fin sb.ninodes) :
    (table sb d i).data.length = (dinode sb d i).size.toNat :=
  length_content ..

/-- **The blocks of the disk**, in terms of the files. -/
theorem Consistent.capacity (h : Consistent sb d) :
    sb.nmeta + Spec.blocks (table sb d) + free sb d = sb.size := by
  have hblocks : Spec.blocks (table sb d) =
      ∑ i ∈ Finset.range sb.ninodes, need (dinode sb d i).size.toNat := by
    rw [Finset.sum_range, Spec.blocks, total]
    exact Finset.sum_congr rfl fun i _ => congrArg need (length_data sb d i)
  rw [hblocks]
  exact Good.capacity h

theorem length_overwrite {data bytes : List UInt8} {n : Nat} (h : n ≤ data.length) :
    (overwrite data n bytes).length = max data.length (n + bytes.length) := by
  rw [overwrite]
  simp only [List.length_append, List.length_take, List.length_drop]
  omega

/-- The two tests for a refusal agree. -/
theorem refused_eq : refused (dinode sb d i).size off n = Spec.refused (table sb d i) off n := by
  have := off.toNat_lt
  have := n.toNat_lt
  rw [refused, Spec.refused, length_data, Bool.eq_iff_iff]
  simp only [Bool.or_eq_true, decide_eq_true_eq, UInt32.lt_iff_toNat_lt, UInt32.toNat_add]
  omega

theorem tooLarge_eq (h : Spec.refused (table sb d i) off n = false) :
    tooLarge off n = Spec.tooLarge off n := by
  rw [Spec.refused, Bool.or_eq_false_iff, decide_eq_false_iff_not, decide_eq_false_iff_not] at h
  have hmax : (UInt32.ofNat (MAXFILE * BSIZE)).toNat = MAXFILE * BSIZE := rfl
  -- a request that is not refused does not wrap around
  rw [tooLarge, Spec.tooLarge, Bool.eq_iff_iff]
  simp only [decide_eq_true_eq, UInt32.lt_iff_toNat_lt, UInt32.toNat_add, hmax]
  omega

/-- The table after one file has changed. -/
theorem table_update {g : File → File} (h : ∀ j, j < sb.ninodes →
    files sb d' j = if j = i.val then g (files sb d j) else files sb d j) :
    table sb d' = Function.update (table sb d) i (g (table sb d i)) := by
  funext j
  rw [table, h j j.isLt]
  by_cases hji : j = i
  · rw [if_pos (congrArg Fin.val hji), hji, Function.update_self]
    rfl
  · rw [if_neg fun hval => hji (Fin.ext hval), Function.update_of_ne hji]
    rfl

/-- What is in memory is as it is on the disk. -/
theorem inode_of {ip : Inode} {j : Nat} (hj : ip.inum = j) (hx : dinode sb d j = ip.toDinode) :
    ip = inode sb d j := by
  rw [inode, hx, ← hj]

theorem ilock_of_type (h : (table sb d i).type ≠ 0) : ilock sb d i = .ok (inode sb d i) := if_neg h

theorem ilock_of_free (h : (table sb d i).type = 0) : ilock sb d i = .error "ilock: no type" :=
  if_pos h

theorem agrees_ialloc (h : Sane sb d) (type : Int16) : Agrees dev sb d (.ialloc type) := by
  have hblank : ∀ i, i < sb.ninodes → (dinode sb d i).type = 0 → (dinode sb d i).size = 0 := by
    intro i hi htype
    have hlen := length_data sb d ⟨i, hi⟩
    rw [h.blank ⟨i, hi⟩ htype] at hlen
    exact UInt32.toNat_inj.mp hlen.symm
  rcases ialloc_cases h.consistent hblank type with
    ⟨i, d', hok, h1, hi, htype, hcons, -, hfiles⟩ | ⟨herr, hnone⟩
  · refine .inl ⟨.inum i, d', by rw [exec, hok]; rfl, hcons, fun hlacks => ?_, ⟨i, hi⟩, h1, htype,
      rfl, table_update (g := fun _ => ⟨type, 0, 0, 0, []⟩) hfiles⟩
    exact hlacks ⟨i, hi⟩ h1 htype
  · exact .inr ⟨by rw [exec, herr]; rfl, fun i h1 => hnone i h1 i.isLt⟩

/-- Reading a device is up to its driver. -/
theorem readi_device {ip : Inode} (h : ip.type = T_DEV) :
    readi dev sb d ip off n = .ok (Spec.driverRead dev ip.major n, ip, d) := by
  rw [readi, if_pos h, Spec.driverRead]
  split
  · rfl
  · cases dev.read ip.major.toNatClampNeg with
    | none => rfl
    | some read => rfl

theorem writei_device {ip : Inode} (h : ip.type = T_DEV) :
    writei dev sb d ip src off n = .ok (Spec.driverWrite dev ip.major src n, ip, d) := by
  rw [writei, if_pos h, Spec.driverWrite]
  split
  · rfl
  · cases dev.write ip.major.toNatClampNeg with
    | none => rfl
    | some write => rfl

/-- A write that is refused changes nothing. -/
theorem writei_refused {ip : Inode} (h : ip.type ≠ T_DEV)
    (hrefused : refused ip.size off n = true ∨ tooLarge off n = true) :
    writei dev sb d ip src off n = .ok (none, ip, d) := by
  rw [writei, if_neg h]
  split
  · rfl
  · rename_i hno
    have hlarge : tooLarge off n = true := by
      refine hrefused.resolve_left fun hyes => hno ?_
      simpa [refused] using hyes
    rw [if_pos (of_decide_eq_true hlarge)]

theorem readi_table (h : Consistent sb d) (i : Fin sb.ninodes) (off n : UInt32) :
    readi dev sb d (inode sb d i) off n =
      .ok (Spec.read dev (table sb d i) off n, inode sb d i, d) := by
  by_cases hdev : (table sb d i).type = T_DEV
  · rw [readi_device hdev, Spec.read, if_pos hdev]
    rfl
  · rw [@readi_eq sb d (inode sb d i) dev off n h i.isLt rfl hdev, Spec.read, if_neg hdev,
      ← refused_eq]
    rfl

theorem agrees_readi (h : Consistent sb d) (i : Fin sb.ninodes) (off n : UInt32) :
    Agrees dev sb d (.readi i off n) := by
  by_cases htype : (table sb d i).type = 0
  · exact .inr ⟨by rw [exec, ilock_of_free htype]; rfl, htype⟩
  · refine .inl ⟨_, d, ?_, h, htype, rfl, rfl⟩
    rw [exec, ilock_of_type htype]
    exact congrArg (· >>= fun r => pure (Answer.bytes r.1, r.2.2)) (readi_table h i off n)

/-- What a change of one file costs. -/
theorem blocks_update {N : Nat} (f : Fin N → File) (i : Fin N) (x : File) :
    Spec.blocks (Function.update f i x) + need (f i).data.length =
      Spec.blocks f + need x.data.length :=
  total_update (fun x : File => need x.data.length) f i x

/-- The files that are on the disk fit there. -/
theorem Consistent.fits (h : Consistent sb d) :
    ¬ sb.size < sb.nmeta + Spec.blocks (table sb d) := by
  have := h.capacity
  omega

/-- A write changes the table as it says, or there are not enough blocks for it. -/
theorem writei_table (h : Consistent sb d) (i : Fin sb.ninodes) (src : Mem) (off n : UInt32) :
    (∃ d', writei dev sb d (inode sb d i) src off n =
        .ok ((Spec.write dev (table sb d i) src off n).1, inode sb d' i, d') ∧ Consistent sb d' ∧
      table sb d' = Function.update (table sb d) i (Spec.write dev (table sb d i) src off n).2) ∨
    writei dev sb d (inode sb d i) src off n = .error "balloc: out of blocks" ∧
      sb.size < sb.nmeta +
        Spec.blocks (Function.update (table sb d) i (Spec.write dev (table sb d i) src off n).2) := by
  by_cases hdev : (table sb d i).type = T_DEV
  · have hwrite : Spec.write dev (table sb d i) src off n =
        (Spec.driverWrite dev (table sb d i).major src n, table sb d i) := by
      rw [Spec.write, if_pos hdev]
    refine .inl ⟨d, ?_, h, ?_⟩
    · rw [writei_device hdev, hwrite]
      rfl
    · rw [hwrite, Function.update_eq_self]
  by_cases hno : Spec.refused (table sb d i) off n || Spec.tooLarge off n
  · have hwrite : Spec.write dev (table sb d i) src off n = (none, table sb d i) := by
      rw [Spec.write, if_neg hdev, if_pos hno]
    refine .inl ⟨d, ?_, h, by rw [hwrite, Function.update_eq_self]⟩
    rw [hwrite]
    refine writei_refused hdev ?_
    cases hrefused : Spec.refused (table sb d i) off n with
    | true => exact .inl (refused_eq.trans hrefused)
    | false =>
      rw [hrefused, Bool.false_or] at hno
      exact .inr ((tooLarge_eq hrefused).trans hno)
  have hwrite : Spec.write dev (table sb d i) src off n = (some n, (table sb d i).withData
      (overwrite (table sb d i).data off.toNat ((List.range n.toNat).map src))) := by
    rw [Spec.write, if_neg hdev, if_neg hno]
  rw [Bool.not_eq_true, Bool.or_eq_false_iff] at hno
  obtain ⟨hrefused, hlarge⟩ := hno
  have hle : off.toNat ≤ (table sb d i).data.length :=
    Nat.le_of_not_lt (of_decide_eq_false (Bool.or_eq_false_iff.mp hrefused).1)
  have hlength : (overwrite (table sb d i).data off.toNat
      ((List.range n.toNat).map src)).length =
        max (dinode sb d i).size.toNat (off.toNat + n.toNat) := by
    rw [length_overwrite hle, length_data, List.length_map, List.length_range]
  rcases @writei_cases sb d (inode sb d i) src dev off n h i.isLt rfl hdev
    (refused_eq.trans hrefused) ((tooLarge_eq hrefused).trans hlarge) with
    ⟨ip', d', hok, hcons, hinum, hx, hfiles, -, -⟩ | ⟨herr, hfull⟩
  · refine .inl ⟨d', by rw [hok, hwrite, inode_of hinum hx]; rfl, hcons, ?_⟩
    rw [hwrite]
    exact table_update (g := fun x => x.withData
      (overwrite x.data off.toNat ((List.range n.toNat).map src))) hfiles
  · -- the file would need more blocks than it has and are free
    refine .inr ⟨herr, ?_⟩
    have hcost := blocks_update (table sb d) i (Spec.write dev (table sb d i) src off n).2
    have hcapacity := h.capacity
    rw [hwrite, length_data] at hcost
    rw [hwrite]
    change _ + need (dinode sb d i).size.toNat = _ + need (overwrite _ _ _).length at hcost
    rw [hlength] at hcost
    change free sb d + need (dinode sb d i).size.toNat <
      need (max (dinode sb d i).size.toNat (off.toNat + n.toNat)) at hfull
    omega

theorem agrees_writei (h : Consistent sb d) (i : Fin sb.ninodes) (src : Mem) (off n : UInt32) :
    Agrees dev sb d (.writei i src off n) := by
  by_cases htype : (table sb d i).type = 0
  · refine .inr ⟨?_, .inl htype⟩
    rw [exec, ilock_of_free htype, Spec.message, if_pos htype]
    rfl
  have hexec : exec dev sb d (.writei i src off n) =
      writei dev sb d (inode sb d i) src off n >>= fun r => pure (.count r.1, r.2.2) := by
    rw [exec, ilock_of_type htype]
    rfl
  rcases writei_table h i src off n with ⟨d', hok, hcons, htable⟩ | ⟨herr, hfull⟩
  · refine .inl ⟨_, d', by rw [hexec, hok]; rfl, hcons, ?_, rfl, htable⟩
    rintro (hfree | hfull)
    · exact htype hfree
    · rw [← htable] at hfull
      exact hcons.fits hfull
  · refine .inr ⟨?_, .inr hfull⟩
    rw [hexec, herr, Spec.message, if_neg htype]
    rfl

theorem agrees_iupdate (h : Consistent sb d) (i : Fin sb.ninodes) (major minor nlink : Int16) :
    Agrees dev sb d (.iupdate i major minor nlink) := by
  by_cases htype : (table sb d i).type = 0
  · exact .inr ⟨by rw [exec, ilock_of_free htype]; rfl, htype⟩
  · let ip : Inode := { inode sb d i with major := major, minor := minor, nlink := nlink }
    obtain ⟨hcons, hfiles⟩ := @iupdate_files sb d ip h i.isLt rfl rfl
    refine .inl ⟨.done, iupdate sb d ip, by rw [exec, ilock_of_type htype]; rfl, hcons, htype, rfl,
      ?_⟩
    exact table_update (g := fun x => ip.toDinode.file x.data) hfiles

theorem agrees_iput (h : Consistent sb d) (i : Fin sb.ninodes) (valid : Bool) (ref : Nat) :
    Agrees dev sb d (.iput i valid ref) := by
  by_cases hlast : (valid ∧ (inode sb d i).nlink = 0) ∧ ref = 1
  · obtain ⟨d₁, hok, hcons₁, hino, hfiles₁⟩ := @itrunc_files sb d (inode sb d i) h i.isLt rfl
    let ip : Inode := { emptied (inode sb d i) with type := 0 }
    -- `itrunc` has written the inode, so `iupdate` changes its type alone
    have hdinode : dinode sb d₁ i = (emptied (inode sb d i)).toDinode := by
      rw [hino i i.isLt]
      exact if_pos rfl
    obtain ⟨hcons, hfiles⟩ := @iupdate_files sb d₁ ip hcons₁ i.isLt
      (congrArg Dinode.addrs hdinode).symm (congrArg Dinode.size hdinode).symm
    have htable₁ := table_update (i := i) (g := fun x => x.withData []) hfiles₁
    have htable := table_update (i := i) (g := fun x => ip.toDinode.file x.data) hfiles
    rw [htable₁, Function.update_idem, Function.update_self] at htable
    refine .inl ⟨.done, iupdate sb d₁ ip, ?_, hcons, id, rfl, ?_⟩
    · rw [exec, iput, if_pos hlast, hok]
      rfl
    · rw [htable]
      exact (if_pos hlast).symm
  · refine .inl ⟨.done, d, ?_, h, id, rfl, (if_neg hlast).symm⟩
    rw [exec, iput, if_neg hlast]
    rfl

/-- **One operation** does what the table says, and panics exactly when something is missing. -/
theorem Sane.agrees (h : Sane sb d) (dev : Devsw) (op : Op sb.ninodes) : Agrees dev sb d op := by
  cases op with
  | ialloc type => exact agrees_ialloc h type
  | readi i off n => exact agrees_readi h.consistent i off n
  | writei i src off n => exact agrees_writei h.consistent i src off n
  | iupdate i major minor nlink => exact agrees_iupdate h.consistent i major minor nlink
  | iput i valid ref => exact agrees_iput h.consistent i valid ref

/-- A step of the file system is a step of the table. -/
theorem Sane.step (h : Sane sb d) {a : Answer} (hok : exec dev sb d op = .ok (a, d')) :
    Sane sb d' ∧ ¬ Spec.Lacks dev sb (table sb d) op ∧
      Spec.Step dev (table sb d) op a (table sb d') := by
  rcases h.agrees dev op with ⟨a', d'', hok', hcons, hlacks, hstep⟩ | ⟨herr, -⟩
  · rw [hok'] at hok
    cases hok
    exact ⟨⟨hcons, h.blank.step hlacks hstep⟩, hlacks, hstep⟩
  · rw [herr] at hok
    cases hok

/-- When `exec` panics, and with which message. -/
theorem Sane.panics_iff (h : Sane sb d) (e : String) : exec dev sb d op = .error e ↔
    Spec.Lacks dev sb (table sb d) op ∧ e = Spec.message (table sb d) op := by
  rcases h.agrees dev op with ⟨a, d', hok, -, hlacks, -⟩ | ⟨herr, hlacks⟩
  · refine iff_of_false (fun herr => ?_) fun hno => hlacks hno.1
    rw [hok] at herr
    cases herr
  · rw [herr]
    constructor
    · intro heq
      cases heq
      exact ⟨hlacks, rfl⟩
    · rintro ⟨-, rfl⟩
      rfl

end Exec

/-! ## Runs -/

/-- The empty disk: the blocks in front are in use, as `mkfs` marks them. -/
def formatted (sb : Superblock) : Disk := (List.range sb.nmeta).foldl (mark sb) fun _ _ => 0

section Run

variable {dev : Devsw} {sb : Superblock} {d₀ d : Disk} {f₀ : Fin sb.ninodes → File}
  {trs : List (Disk × (Op sb.ninodes × Answer) × Disk)}

theorem used_formatted (sb : Superblock) (c : Nat) :
    used sb (formatted sb) c = decide (c < sb.nmeta) := by
  -- after `n` blocks, those below `n` are marked
  have hmark : ∀ n, used sb ((List.range n).foldl (mark sb) fun _ _ => 0) c = decide (c < n) := by
    intro n
    induction n with
    | zero => simp [used, bit, Block.mem]
    | succ n ih =>
      rw [List.range_succ, List.foldl_append, List.foldl_cons, List.foldl_nil, used_mark, ih,
        ← Bool.decide_or]
      exact decide_eq_decide.mpr (by omega)
  exact hmark sb.nmeta

/-- Only the bitmap is not zero. -/
theorem formatted_apply (sb : Superblock) {b : Nat} (hb : b < sb.bmapstart) :
    formatted sb b = fun _ => 0 := by
  have hmark : ∀ n, ((List.range n).foldl (mark sb) fun _ _ => 0) b = fun _ => 0 := by
    intro n
    induction n with
    | zero => rfl
    | succ n ih =>
      rw [List.range_succ, List.foldl_append, List.foldl_cons, List.foldl_nil, mark,
        Function.update_of_ne (Nat.lt_of_lt_of_le hb (sb.le_bblock n)).ne, ih]
  exact hmark sb.nmeta

theorem dinode_formatted (sb : Superblock) {i : Nat} (hi : i < sb.ninodes) :
    dinode sb (formatted sb) i = ⟨0, 0, 0, 0, 0, fun _ => 0⟩ := by
  have hzero : (Block.mem fun _ : Fin BSIZE => 0) = fun _ => 0 := by
    funext k
    rw [Block.mem]
    split
    · rfl
    · rfl
  have hfirst : get16 (fun _ => 0) 0 = 0 := rfl
  have hget : ∀ p, get16 (fun _ => 0) p = 0 := fun _ => hfirst
  have hgetU : ∀ p, getU32 (fun _ => 0) p = 0 := fun _ => getU32_eq_zero fun _ _ => rfl
  rw [dinode, formatted_apply sb (sb.iblock_lt hi), hzero, getDinode]
  simp only [hget, hgetU]

theorem formatted_data (sb : Superblock) (i : Fin sb.ninodes) :
    (table sb (formatted sb) i).data = [] := by
  refine List.eq_nil_of_length_eq_zero ?_
  rw [length_data, dinode_formatted sb i.isLt]
  rfl

/-- The empty disk is as it should be. -/
theorem formatted_sane (sb : Superblock) : Sane sb (formatted sb) := by
  have haddr : ∀ i, i < sb.ninodes → ∀ bn, addrOf (formatted sb) (dinode sb (formatted sb) i) bn =
      none := by
    intro i hi bn
    rw [dinode_formatted sb hi]
    exact @addrOf_emptied _ (inode sb (formatted sb) i) bn
  have hpointer : ∀ i, i < sb.ninodes → (dinode sb (formatted sb) i).pointer = none := by
    intro i hi
    rw [dinode_formatted sb hi]
    rfl
  have hsize : ∀ i, i < sb.ninodes → (dinode sb (formatted sb) i).size.toNat = 0 := by
    intro i hi
    rw [dinode_formatted sb hi]
    rfl
  -- only the blocks in front belong to anyone
  have hrefs : ∀ o b, refs sb (formatted sb) (dinode sb (formatted sb)) o = some b →
      o = .disk b ∧ b < sb.nmeta := by
    intro o b href
    cases o with
    | disk c =>
      rw [refs, Option.ite_none_right_eq_some] at href
      cases href.2
      exact ⟨rfl, href.1⟩
    | block i bn =>
      rw [refs, Option.ite_none_right_eq_some] at href
      rw [haddr i href.1 bn] at href
      cases href.2
    | pointer i =>
      rw [refs, Option.ite_none_right_eq_some] at href
      rw [hpointer i href.1] at href
      cases href.2
  refine ⟨⟨⟨⟨fun href => ?_, fun href href' => ?_⟩, ?_⟩, fun hi _ => ?_, fun hi => ?_,
    fun hi => ?_⟩, fun i _ => ?_⟩
  · obtain ⟨-, hb⟩ := hrefs _ _ href
    exact ⟨Nat.lt_of_lt_of_le hb sb.nmeta_le, by rw [used_formatted, decide_eq_true hb]⟩
  · exact (hrefs _ _ href).1.trans (hrefs _ _ href').1.symm
  · rintro b ⟨-, hused⟩
    rw [used_formatted, decide_eq_true_eq] at hused
    exact ⟨.disk b, if_pos hused⟩
  · rw [haddr _ hi, hsize _ hi]
    exact iff_of_false Bool.false_ne_true (Nat.not_lt_zero _)
  · rw [hpointer _ hi, hsize _ hi]
    exact iff_of_false Bool.false_ne_true (Nat.not_lt_zero _)
  · rw [hsize _ hi]
    exact Nat.zero_le _
  · exact formatted_data sb i

/-- A run of the file system from a sane disk. -/
theorem Sane.run (h : Sane sb d) {d' : Disk} (hrun : (system dev sb d₀).Run d trs d') :
    Sane sb d' ∧ (Spec.system dev sb f₀).Run (table sb d)
      (trs.map fun t => (table sb t.1, t.2.1, table sb t.2.2)) (table sb d') := by
  induction hrun with
  | nil d => exact ⟨h, .nil _⟩
  | cons hstep _ ih =>
    obtain ⟨h₁, hlacks, hspec⟩ := h.step hstep
    obtain ⟨h', hrun'⟩ := ih h₁
    exact ⟨h', .cons ⟨hlacks, hspec⟩ hrun'⟩

theorem reach_sane (h : Sane sb d₀) (hr : (system dev sb d₀).Reach d) : Sane sb d :=
  hr.invariant (fun _ heq => heq ▸ h) fun _ _ _ hsane hstep => (hsane.step hstep).1

/-! ### Two files -/

/-- One block for the inodes, one for the bitmap, and 19 data blocks. -/
def smallDisk : Superblock where
  size := 24
  ninodes := 8
  inodestart := 2
  bmapstart := 4
  inodes_fit := Nat.le_of_ble_eq_true rfl
  bitmap_fit := Nat.le_of_ble_eq_true rfl
  size_fits := Nat.le_of_ble_eq_true rfl

instance : NeZero smallDisk.ninodes := ⟨Nat.succ_ne_zero 7⟩

/-- No driver is installed: every read and write of a device gives -1. -/
def noDevices : Devsw := ⟨fun _ => none, fun _ => none⟩

/-- What is written: 1, 2, 3, and so on. -/
def text : Mem := fun k => UInt8.ofNat (k + 1)

/-- Two files of which one goes; its inode is a directory then. -/
def reusing : List (Op smallDisk.ninodes) :=
  [.ialloc T_FILE, .ialloc T_FILE, .writei 1 text 0 513, .writei 2 text 0 3, .iupdate 2 0 0 1,
    .writei 2 text 1 2, .readi 2 0 9, .readi 1 511 9, .iput 1 true 1, .iput 2 true 1, .ialloc T_DIR,
    .writei 1 text 0 1, .readi 1 0 9, .readi 2 0 9]

/-- A file that needs its indirect block, and one that does not. -/
def filling : List (Op smallDisk.ninodes) :=
  [.ialloc T_FILE, .ialloc T_FILE, .writei 1 text 0 6145, .writei 2 text 0 3]

/-- The run that answers these calls on the empty disk. -/
def answered (calls : List (Op smallDisk.ninodes)) : Option (List Answer × Disk) :=
  Lts.answers (fun d op => (exec noDevices smallDisk d op).toOption) calls (formatted smallDisk)

theorem run_answered {calls : List (Op smallDisk.ninodes)} {as : List Answer}
    (h : answered calls = some (as, d)) : ∃ trs,
      (system noDevices smallDisk (formatted smallDisk)).Run (formatted smallDisk) trs d ∧
      trs.map (fun t => t.2.1) = calls.zip as :=
  Lts.Run.of_answers (fun _ _ _ _ hok => toOption_eq_some.mp hok) h

theorem reach_answered {calls : List (Op smallDisk.ninodes)} {as : List Answer}
    (h : answered calls = some (as, d)) :
    (system noDevices smallDisk (formatted smallDisk)).Reach d := by
  obtain ⟨trs, hrun, -⟩ := run_answered h
  exact Lts.Reach.run (.start rfl) hrun

/-- **The file system refines the table of files**: every run is, with the same operations and the
    same answers, a run of the table. -/
theorem runs_of_table (h : Sane sb d₀) (hrun : (system dev sb d₀).Run d₀ trs d) :
    (Spec.system dev sb (table sb d₀)).Run (table sb d₀)
      (trs.map fun t => (table sb t.1, t.2.1, table sb t.2.2)) (table sb d) :=
  (h.run hrun).2

/-- A read stops at the end of the file, a write inside a file keeps the rest of it, and the file
    that is new in inode 1 has nothing of the old one. -/
theorem runs_of_table_reusing : ∃ (d : Disk)
    (trs : List (Disk × (Op smallDisk.ninodes × Answer) × Disk)),
    trs.map (fun t => t.2.1) = reusing.zip [.inum 1, .inum 2, .count (some 513), .count (some 3),
      .done, .count (some 2), .bytes (some [1, 1, 2]), .bytes (some [0, 1]), .done, .done, .inum 1,
      .count (some 1), .bytes (some [1]), .bytes (some [1, 1, 2])] ∧
    (Spec.system noDevices smallDisk (table smallDisk (formatted smallDisk))).Run
      (table smallDisk (formatted smallDisk))
      (trs.map fun t => (table smallDisk t.1, t.2.1, table smallDisk t.2.2)) (table smallDisk d) := by
  have hrun : (answered reusing).map Prod.fst = some [.inum 1, .inum 2, .count (some 513),
      .count (some 3), .done, .count (some 2), .bytes (some [1, 1, 2]), .bytes (some [0, 1]), .done,
      .done, .inum 1, .count (some 1), .bytes (some [1]), .bytes (some [1, 1, 2])] := by
    decide +kernel
  obtain ⟨⟨as, d⟩, hanswered, has⟩ := Option.map_eq_some_iff.mp hrun
  obtain ⟨trs, hsteps, htrs⟩ := run_answered hanswered
  rw [show as = _ from has] at htrs
  exact ⟨d, trs, htrs, runs_of_table (formatted_sane smallDisk) hsteps⟩

/-- **Whose a block is**: in every state that is reached a block is in use exactly when it is one
    of those in front or some file's, it is no other's, every file has the blocks that its bytes
    need, and together with the free ones these are all. -/
theorem reach_blocks (h : Sane sb d₀) (hr : (system dev sb d₀).Reach d) :
    Owned sb d (dinode sb d) ∧
      (∀ i, (blocksOf sb d (dinode sb d) i.val).length = need (table sb d i).data.length) ∧
      sb.nmeta + Spec.blocks (table sb d) + free sb d = sb.size := by
  have hcons := (reach_sane h hr).consistent
  refine ⟨hcons.toOwned, fun i => ?_, hcons.capacity⟩
  rw [length_data]
  exact Good.length_blocksOf hcons i.isLt

/-- Of 19 data blocks 15 are owned: file 1 has 13 and an indirect block, file 2 has one. -/
theorem reach_blocks_filling : ∃ d, (blocksOf smallDisk d (dinode smallDisk d) 1).length = 14 ∧
    (blocksOf smallDisk d (dinode smallDisk d) 2).length = 1 ∧ free smallDisk d = 4 ∧
    Owned smallDisk d (dinode smallDisk d) ∧
    (∀ i : Fin smallDisk.ninodes, (blocksOf smallDisk d (dinode smallDisk d) i.val).length =
      need (table smallDisk d i).data.length) ∧
    smallDisk.nmeta + Spec.blocks (table smallDisk d) + free smallDisk d = smallDisk.size := by
  have hrun : (answered filling).map (fun s =>
      [(blocksOf smallDisk s.2 (dinode smallDisk s.2) 1).length,
        (blocksOf smallDisk s.2 (dinode smallDisk s.2) 2).length, free smallDisk s.2]) =
      some [14, 1, 4] := by decide +kernel
  obtain ⟨⟨as, d⟩, hanswered, hfacts⟩ := Option.map_eq_some_iff.mp hrun
  simp only [List.cons.injEq, and_true] at hfacts
  obtain ⟨hfirst, hsecond, hfree⟩ := hfacts
  exact ⟨d, hfirst, hsecond, hfree,
    reach_blocks (formatted_sane smallDisk) (reach_answered hanswered)⟩

end Run

end OsCodes.Inodes
