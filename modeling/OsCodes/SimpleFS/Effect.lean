/-
  One step of SimpleFS, and what it preserves.

  `Effect` lists everything a call can do to a file system in order, one constructor for each
  outcome; `exec_effect` is the inversion lemma from the program to it.  The ownership invariant
  and the handle history are each proved against `Effect` once, constructor by constructor, and
  no later module unfolds an operation.

  `exec_effect` is where the calls are taken apart for the last time: whatever a law needs to know
  of a step it finds in a constructor of `Effect`.  The second part proves from it that each
  outcome keeps the metadata in order (`Owned.effect`).
-/
import OsCodes.SimpleFS.Read
import OsCodes.SimpleFS.Write

namespace OsCodes.SimpleFS

open Bytes

/-! ## The outcomes of a call -/

/-- Handle `h` is open on inode `i`. -/
def FS.Bound (fs : FS) (h : Fin 20) (i : Fin 8) : Prop :=
  (fs.fileHandleArray h).inodeNumber = Int32.ofInt i.val

instance (fs : FS) (h : Fin 20) (i : Fin 8) : Decidable (fs.Bound h i) :=
  inferInstanceAs (Decidable (_ = _))

/-- What a write does that stays clear of holes: it changes nothing but flags and returns `-1`,
    or it writes the file behind the handle and returns 0. -/
structure WriteEffect (fs : FS) (h : Fin 20) (buf : Mem) (nbytes : Int32) (r : Int) (fs' : FS) :
    Prop where
  handles : fs'.fileHandleArray = fs.fileHandleArray
  outcome : r = -1 ∧ Leaked fs.disk fs'.disk ∨ r = 0 ∧ ∃ (i : Fin 8) (o n : Nat),
    fs.Bound h i ∧ fs.disk.InUse i ∧ (fs.fileHandleArray h).offset.toInt = o ∧
    nbytes.toInt = n ∧ o + n ≤ 256 ∧ Wrote fs.disk fs'.disk i o n buf

/-- What a call can do: one case for each outcome, with what it leaves of disk and handles. -/
inductive Effect (fs : FS) : Op → Ret → FS → Prop
  | createRefused {f : CStr} :
      ((fs.disk.lookup f).isSome ∨ ∀ i, fs.disk.sb.inodeFreelist i ≠ flagFree) →
      Effect fs (.create f) ⟨-1, []⟩ fs
  | created {f : CStr} {i : Fin 8} {new : Inode} {tempBuf : Mem} : fs.disk.lookup f = none →
      fs.disk.sb.inodeFreelist i = flagFree → NewInode new f →
      Effect fs (.create f) ⟨i.val, []⟩ { fs with disk := fs.disk.created tempBuf i new }
  | deleteNone {f : CStr} : fs.disk.lookup f = none → Effect fs (.delete f) ⟨0, []⟩ fs
  | deleted {f : CStr} {i : Fin 8} {d' : Disk} : fs.disk.lookup f = some i →
      Deleted fs.disk d' i → Effect fs (.delete f) ⟨0, []⟩ { fs with disk := d' }
  | openRefused {f : CStr} :
      (fs.disk.lookup f = none ∨ ∀ k, (fs.fileHandleArray k).inodeNumber ≠ -1) →
      Effect fs (.openFile f) ⟨-1, []⟩ fs
  | opened {f : CStr} {i : Fin 8} {k : Fin 20} : fs.disk.lookup f = some i →
      (fs.fileHandleArray k).inodeNumber = -1 →
      Effect fs (.openFile f) ⟨k.val, []⟩
        (fs.setHandle k { offset := 0, inodeNumber := Int32.ofInt i.val })
  | closed {h : Fin 20} :
      Effect fs (.close h) ⟨0, []⟩ (fs.setHandle h { offset := 0, inodeNumber := -1 })
  | sought {h : Fin 20} {nseek : Int32} : Effect fs (.seek h nseek) ⟨0, []⟩
      (fs.setHandle h
        { fs.fileHandleArray h with offset := (fs.fileHandleArray h).offset + nseek })
  | read {h : Fin 20} {nbytes : Int32} {r : Ret} : Effect fs (.read h nbytes) r fs
  | write {h : Fin 20} {buf : Mem} {nbytes : Int32} {r : Int} {fs' : FS} :
      WriteEffect fs h buf nbytes r fs' → Effect fs (.write h buf nbytes) ⟨r, []⟩ fs'

theorem seek_eq (h : Fin 20) (nseek : Int32) (fs : FS) :
    Ops.seek h nseek fs = (0, fs.setHandle h
      { fs.fileHandleArray h with offset := (fs.fileHandleArray h).offset + nseek }) :=
  if_neg (by omega)

/-- A write is a call that returns no bytes. -/
theorem exec_write {u : Uninit} {fs fs' : FS} {h : Fin 20} {buf : Mem} {nbytes : Int32} {r : Ret}
    (hrun : Ops.exec u fs (.write h buf nbytes) = .ok (r, fs')) :
    Ops.write u.tempBuf h buf nbytes fs = .ok (r.val, fs') ∧ r = ⟨r.val, []⟩ := by
  rw [Ops.exec, bind_eq_ok] at hrun
  obtain ⟨⟨x, fs''⟩, hw, hrun⟩ := hrun
  simp only [pure_eq_ok, Except.ok.injEq, Prod.mk.injEq] at hrun
  obtain ⟨rfl, rfl⟩ := hrun
  exact ⟨hw, rfl⟩

/-- **Inversion.**  A call that returns has one of the outcomes of `Effect`, a write provided it
    stays clear of holes. -/
theorem exec_effect {u : Uninit} {fs fs' : FS} {op : Op} {r : Ret} (hd : Owned fs.disk)
    (hw : ∀ h buf nbytes r fs', op = .write h buf nbytes →
      Ops.write u.tempBuf h buf nbytes fs = .ok (r, fs') → WriteEffect fs h buf nbytes r fs')
    (hrun : Ops.exec u fs op = .ok (r, fs')) : Effect fs op r fs' := by
  cases op with
  | create f =>
    rcases create_cases (u.tempBuf 0) f hd.formatted with
      ⟨he, hc⟩ | ⟨i, new, he, hl, hfree, hnew⟩ | ⟨he, -⟩
    · simp only [Ops.exec, he, ok_bind, pure_eq_ok, Except.ok.injEq, Prod.mk.injEq] at hrun
      obtain ⟨rfl, rfl⟩ := hrun
      exact .createRefused hc
    · simp only [Ops.exec, he, ok_bind, pure_eq_ok, Except.ok.injEq, Prod.mk.injEq] at hrun
      obtain ⟨rfl, rfl⟩ := hrun
      exact .created hl hfree hnew
    · rw [Ops.exec, he] at hrun
      cases hrun
  | delete f =>
    rcases delete_ok u.tempBuf f hd with ⟨he, hl⟩ | ⟨i, d', he, hl, hdel⟩
    · simp only [Ops.exec, he, ok_bind, pure_eq_ok, Except.ok.injEq, Prod.mk.injEq] at hrun
      obtain ⟨rfl, rfl⟩ := hrun
      exact .deleteNone hl
    · simp only [Ops.exec, he, ok_bind, pure_eq_ok, Except.ok.injEq, Prod.mk.injEq] at hrun
      obtain ⟨rfl, rfl⟩ := hrun
      exact .deleted hl hdel
  | openFile f =>
    rcases openFile_cases f hd.formatted with ⟨he, hl⟩ | ⟨i, k, he, hl, hk⟩
    · simp only [Ops.exec, he, ok_bind, pure_eq_ok, Except.ok.injEq, Prod.mk.injEq] at hrun
      obtain ⟨rfl, rfl⟩ := hrun
      exact .openRefused hl
    · simp only [Ops.exec, he, ok_bind, pure_eq_ok, Except.ok.injEq, Prod.mk.injEq] at hrun
      obtain ⟨rfl, rfl⟩ := hrun
      exact .opened hl hk
  | close h =>
    simp only [Ops.exec, pure_eq_ok, Except.ok.injEq, Prod.mk.injEq] at hrun
    obtain ⟨rfl, rfl⟩ := hrun
    exact .closed
  | seek h nseek =>
    simp only [Ops.exec, seek_eq, pure_eq_ok, Except.ok.injEq, Prod.mk.injEq] at hrun
    obtain ⟨rfl, rfl⟩ := hrun
    exact .sought
  | read h nbytes =>
    rw [Ops.exec, bind_eq_ok] at hrun
    obtain ⟨x, -, hrun⟩ := hrun
    simp only [pure_eq_ok, Except.ok.injEq, Prod.mk.injEq] at hrun
    obtain ⟨-, rfl⟩ := hrun
    exact .read
  | write h buf nbytes =>
    obtain ⟨he, hr⟩ := exec_write hrun
    rw [hr]
    exact .write (hw h buf nbytes r.val fs' rfl he)

/-! ## The ownership invariant -/

section OwnedEffect

variable {d d' : Disk}

theorem Owned.created (h : Owned d) {tempBuf : Mem} {i : Fin 8} {new : Inode} {f : CStr}
    (hfree : d.sb.inodeFreelist i = flagFree) (hnew : NewInode new f) :
    Owned (d.created tempBuf i new) := by
  have hidle : (d.inode i).status = inodeFree := by
    rcases h.status i with hu | hf
    · rw [hfree] at hu
      exact absurd hu.1 (by decide)
    · exact hf.2
  have hinode : ∀ j, j ≠ i → (d.created tempBuf i new).inode j = d.inode j := by
    intro j hj
    rw [Disk.created, Disk.inode_setInode_ne _ _ _ hj, Disk.inode_writeSuperBlock]
  have hself : (d.created tempBuf i new).inode i = new := Disk.inode_setInode_self ..
  -- a free inode had no block and neither has a new one
  have howner : (d.created tempBuf i new).owner = d.owner := by
    funext ⟨j, c⟩
    rw [Disk.owner, Disk.owner]
    by_cases hj : j = i
    · subst hj
      rw [hself, hnew.noBlock, h.idle j hidle]
    · rw [hinode j hj]
  have hsb : (d.created tempBuf i new).sb = d.sb.setInodeFlag i flagUsed := by
    rw [Disk.created, Disk.sb_setInode, Disk.sb_writeSuperBlock]
  have hused : (d.created tempBuf i new).Used = d.Used := by
    funext b
    rw [Disk.Used, Disk.Used, hsb, Superblock.datablockFreelist_setInodeFlag]
  have hsize : d.size ≤ (d.created tempBuf i new).size := by
    simp only [Disk.created, Disk.size_setInode, Disk.size_writeSuperBlock]
    omega
  constructor
  · exact Nat.le_trans h.formatted hsize
  · intro j
    rw [hsb, Superblock.inodeFreelist_setInodeFlag]
    by_cases hj : j = i
    · subst hj
      rw [hself, Function.update_self]
      exact .inl ⟨rfl, hnew.status⟩
    · rw [hinode j hj, Function.update_of_ne hj]
      exact h.status j
  · intro b
    rw [hsb]
    exact h.flag b
  · intro j c
    by_cases hj : j = i
    · subst hj
      rw [hself]
      exact .inl (hnew.noBlock c)
    · rw [hinode j hj]
      exact h.range j c
  · intro j hj c
    by_cases hji : j = i
    · subst hji
      rw [hself]
      exact hnew.noBlock c
    · rw [hinode j hji] at hj ⊢
      exact h.idle j hj c
  · rw [howner, hused]
    exact h.owns
  · intro s b hs
    rw [howner] at hs
    exact Nat.le_trans (h.present s b hs) hsize

/-- After a delete the owner map is the old one without the inode. -/
theorem Deleted.owner {i : Fin 8} (h : Deleted d d' i) (s : Fin 8 × Fin 4) (b : Fin 30) :
    d'.owner s = some b ↔ ¬ s.1 = i ∧ d.owner s = some b := by
  rw [Disk.owner]
  by_cases hs : s.1 = i
  · rw [hs, h.noBlock, blockOf_neg_one]
    simp
  · rw [h.inode_ne _ hs]
    exact ⟨fun hb => ⟨hs, hb⟩, fun hb => hb.2⟩

theorem Deleted.used {i : Fin 8} (h : Deleted d d' i) (b : Fin 30) :
    d'.Used b ↔ d.Used b ∧ ∀ s : Fin 8 × Fin 4, s.1 = i → d.owner s ≠ some b := by
  rw [Disk.Used, h.blockFlag b]
  split
  · rename_i hb
    obtain ⟨c, hc⟩ := hb
    constructor
    · intro hf
      exact absurd hf (by decide)
    · rintro ⟨-, hno⟩
      exact absurd (Disk.owner_eq_some.mpr hc) (hno (i, c) rfl)
  · rename_i hb
    constructor
    · rintro hu
      refine ⟨hu, ?_⟩
      rintro ⟨j, c⟩ rfl hs
      exact hb ⟨c, Disk.owner_eq_some.mp hs⟩
    · exact fun hu => hu.1

theorem Owned.deleted (h : Owned d) {i : Fin 8} (hdel : Deleted d d' i) : Owned d' := by
  constructor
  · exact Nat.le_trans h.formatted hdel.size
  · intro j
    rw [hdel.inodeFlag]
    by_cases hj : j = i
    · subst hj
      rw [Function.update_self]
      exact .inr ⟨rfl, hdel.status⟩
    · rw [Function.update_of_ne hj, hdel.inode_ne j hj]
      exact h.status j
  · intro b
    rw [hdel.blockFlag b]
    split
    · exact .inl rfl
    · exact h.flag b
  · intro j c
    by_cases hj : j = i
    · subst hj
      exact .inl (hdel.noBlock c)
    · rw [hdel.inode_ne j hj]
      exact h.range j c
  · intro j hj c
    by_cases hji : j = i
    · subst hji
      exact hdel.noBlock c
    · rw [hdel.inode_ne j hji] at hj ⊢
      exact h.idle j hj c
  · exact h.owns.release hdel.owner hdel.used
  · intro s b hs
    exact Nat.le_trans (h.present s b ((hdel.owner s b).mp hs).2) hdel.size

theorem Owned.leaked (h : Owned d) (hl : Leaked d d') : Owned d' := by
  have hsb := hl.sbOnly
  constructor
  · exact hsb.formatted h.formatted
  · intro i
    rw [hl.inodeFlag, hsb.inode]
    exact h.status i
  · intro b
    rcases hl.marked b with hb | hb
    · rw [hb]
      exact h.flag b
    · exact .inr hb.2
  · intro i c
    rw [hsb.inode]
    exact h.range i c
  · intro i hi c
    rw [hsb.inode] at hi ⊢
    exact h.idle i hi c
  · rw [hsb.owner]
    exact h.owns.grow (fun b hb => hl.marked.mono hb) (fun s b hs => .inl hs)
      fun s t b _ hs ht => h.owns.apart hs ht
  · intro s b hs
    rw [hsb.owner] at hs
    rw [Disk.Present, hsb.size]
    exact h.present s b hs

/-- After a write the owner map is the old one with the inode's entries filled. -/
theorem Wrote.owner {i : Fin 8} {o n : Nat} {buf : Mem} (h : Wrote d d' i o n buf) :
    d'.owner = d.ownerWith i (d'.inode i).directBlocks := by
  funext ⟨j, c⟩
  rw [Disk.owner, Disk.ownerWith]
  by_cases hj : j = i
  · rw [if_pos hj, hj]
  · rw [if_neg hj, Disk.owner, h.inode_ne j hj]

theorem Owned.wrote (h : Owned d) {i : Fin 8} {o n : Nat} {buf : Mem} (huse : d.InUse i)
    (hw : Wrote d d' i o n buf) : Owned d' := by
  constructor
  · exact Nat.le_trans h.formatted hw.size
  · intro j
    rw [hw.inodeFlag]
    by_cases hj : j = i
    · subst hj
      rw [hw.status]
      exact h.status j
    · rw [hw.inode_ne j hj]
      exact h.status j
  · intro b
    rcases hw.marked b with hb | hb
    · rw [hb]
      exact h.flag b
    · exact .inr hb.2
  · intro j c
    by_cases hj : j = i
    · subst hj
      exact hw.filled.range h c
    · rw [hw.inode_ne j hj]
      exact h.range j c
  · intro j hj c
    by_cases hji : j = i
    · subst hji
      rw [hw.status] at hj
      exact absurd hj huse.ne_free
    · rw [hw.inode_ne j hji] at hj ⊢
      exact h.idle j hj c
  · rw [hw.owner]
    exact hw.filled.owns h hw.marked
  · -- a block of the file was there before, or the write has just put it on disk
    rintro ⟨j, c⟩ b hs
    by_cases hold : d.owner (j, c) = some b
    · exact Nat.le_trans (h.present _ b hold) hw.size
    · obtain rfl : j = i := by
        by_contra hj
        rw [hw.owner, Disk.ownerWith, if_neg hj] at hs
        exact hold hs
      have hne : (d'.inode j).directBlocks c ≠ -1 := by
        rw [Disk.owner_eq_some.mp hs]
        exact ofInt_fin_ne_neg_one b
      have hS : o ≤ 64 * (c : Nat) ∧ 64 * (c : Nat) < o + n := by
        by_contra hS
        apply hold
        rw [Disk.owner_eq_some, ← hw.filled.off c hS]
        exact Disk.owner_eq_some.mp hs
      exact (hw.data c b (.inl (by omega)) hs).1

/-- A write leaves the blocks it does not touch. -/
theorem Wrote.block_untouched {i : Fin 8} {o n : Nat} {buf : Mem} (hw : Wrote d d' i o n buf)
    {b : Fin 30} (hb : ∀ c : Fin 4, Touched o n c → d'.owner (i, c) ≠ some b) {k : Nat}
    (hk : k < 64) : d'.block b k = d.block b k := by
  refine hw.byte _ (by omega) fun c b' hT hb' => ?_
  have hne : b'.val ≠ b.val := fun heq => hb c hT (Fin.ext heq ▸ hb')
  omega

/-- In particular the blocks of other files. -/
theorem Wrote.block_ne (h : Owned d) {i : Fin 8} {o n : Nat} {buf : Mem} (huse : d.InUse i)
    (hw : Wrote d d' i o n buf) {j : Fin 8} {c : Fin 4} {b : Fin 30} (hj : j ≠ i)
    (hb : d.owner (j, c) = some b) {k : Nat} (hk : k < 64) : d'.block b k = d.block b k := by
  refine hw.block_untouched (fun c' _ hb' => hj ?_) hk
  have hb'' : d'.owner (j, c) = some b := by
    rw [Disk.owner, hw.inode_ne j hj]
    exact hb
  exact congrArg Prod.fst ((h.wrote huse hw).owns.apart hb'' hb')

/-- **Every outcome keeps the disk in order.** -/
theorem Owned.effect {fs fs' : FS} {op : Op} {r : Ret} (h : Owned fs.disk)
    (he : Effect fs op r fs') : Owned fs'.disk := by
  cases he with
  | createRefused | deleteNone | openRefused | opened | closed | sought | read => exact h
  | created _ hfree hnew => exact h.created hfree hnew
  | deleted _ hdel => exact h.deleted hdel
  | write hw =>
    rcases hw.outcome with ⟨-, hl⟩ | ⟨-, i, o, n, -, huse, -, -, -, hwr⟩
    · exact h.leaked hl
    · exact h.wrote huse hwr

end OwnedEffect

end OsCodes.SimpleFS
