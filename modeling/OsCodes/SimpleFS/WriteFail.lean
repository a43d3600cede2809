/-
  Writes that fail.

  A write that runs out of blocks has marked the blocks it found so far in the superblock.  Its
  clean-up loop looks at the one slot that is still empty and stops there (`undoLoop_empty`), so
  the marks stay: such a write is undone exactly when there was no block to mark.

  Nothing here asks for a disk in order.  A call that returns has read the superblock and an inode,
  and that is all the proofs need.

  `allocLoop_failed` is the induction over the slots: with no block free the loop has changed
  nothing, with one free it marks it, and no turn of the clean-up loop takes a mark back.
  `failed_write_atomic_iff` is about one call on any disk; `undone_no_leak` carries it over runs,
  where it says that blocks are lost by no other kind of call.
-/
import OsCodes.SimpleFS.Isolation

namespace OsCodes.SimpleFS

open Bytes

/-! ## What a call that returns has read -/

theorem readSuperBlock_eq_ok {d : Disk} {s : Superblock} (h : readSuperBlock d = .ok s) :
    s = d.sb ∧ 64 ≤ d.size := by
  rw [readSuperBlock, bind_eq_ok] at h
  obtain ⟨tempBuf, hread, hs⟩ := h
  rw [Disk.readAt, if_neg (by omega)] at hread
  split at hread
  · rename_i hsize
    rw [← Except.ok.inj hread] at hs
    rw [← Except.ok.inj hs]
    exact ⟨Superblock.decode_congr fun k _ => by simp, hsize⟩
  · cases hread

/-- `simplefs_allocDataBlock`, when it returns: no block is free, or a free one is marked. -/
theorem allocDataBlock_cases {tempBuf : Mem} {d d' : Disk} {r : Option (Fin 30)}
    (h : allocDataBlock tempBuf d = .ok (r, d')) :
    (r = none ∧ d' = d ∧ d.freeCount = 0) ∨
    ∃ b, r = some b ∧ d.sb.datablockFreelist b = flagFree ∧ 64 ≤ d.size ∧
      d' = writeSuperBlock tempBuf (d.sb.setBlockFlag b flagUsed) d := by
  rw [allocDataBlock, bind_eq_ok] at h
  obtain ⟨superblock, hread, h⟩ := h
  obtain ⟨rfl, hsize⟩ := readSuperBlock_eq_ok hread
  cases hfind : (List.finRange 30).find? fun b =>
      decide (d.sb.datablockFreelist b = flagFree) with
  | none =>
    simp only [hfind, pure_eq_ok, Except.ok.injEq, Prod.mk.injEq] at h
    exact .inl ⟨h.1.symm, h.2.symm, freeCount_eq_zero hfind⟩
  | some b =>
    simp only [hfind, pure_eq_ok, Except.ok.injEq, Prod.mk.injEq] at h
    exact .inr ⟨b, h.1.symm, find_free_block hfind, hsize, h.2.symm⟩

/-! ## The allocation loop when it fails -/

theorem Leaked.refl (d : Disk) : Leaked d d := ⟨.refl d, rfl, fun _ => .inl rfl⟩

/-- Marking one free block, then more of them. -/
theorem Leaked.mark {tempBuf : Mem} {d d' : Disk} {b : Fin 30} (hsize : 64 ≤ d.size)
    (hb : d.sb.datablockFreelist b = flagFree)
    (h : Leaked (writeSuperBlock tempBuf (d.sb.setBlockFlag b flagUsed) d) d') :
    Leaked d d' := by
  constructor
  · constructor
    · rw [h.sbOnly.size, Disk.size_writeSuperBlock]
      omega
    · intro k hk
      rw [h.sbOnly.byte k hk, Disk.byte_writeSuperBlock _ _ _ hk]
  · rw [h.inodeFlag, Disk.sb_writeSuperBlock, Superblock.inodeFreelist_setBlockFlag]
  · intro b'
    have hb' := h.marked b'
    by_cases hbb : b' = b
    · subst hbb
      refine .inr ⟨hb, h.marked.mono ?_⟩
      rw [Disk.Used, Disk.sb_writeSuperBlock, Superblock.setBlockFlag_self]
    · rwa [Disk.sb_writeSuperBlock, Superblock.setBlockFlag_ne _ _ _ hbb] at hb'

/-- **The loop fails with no block left.**  It leaves marks behind unless there was none to begin
    with. -/
theorem allocLoop_failed (tempBuf : Nat → Mem) (slots : List Int) :
    ∀ (is : List Int) (inode : Inode) (d d' : Disk),
      allocLoop tempBuf slots is inode d = .ok (none, d') →
      Leaked d d' ∧ d'.freeCount = 0 ∧ (d.freeCount = 0 → d' = d) := by
  intro is
  induction is with
  | nil =>
    intro inode d d' h
    cases h
  | cons i is ih =>
    intro inode d d' h
    rw [allocLoop, bind_eq_ok] at h
    obtain ⟨c, -, h⟩ := h
    by_cases hc : inode.directBlocks c = -1
    · rw [if_pos hc, bind_eq_ok] at h
      obtain ⟨⟨r, d₁⟩, halloc, h⟩ := h
      rcases allocDataBlock_cases halloc with ⟨rfl, rfl, h0⟩ | ⟨b, rfl, hb, hsize, rfl⟩
      · simp only [undoLoop_empty (tempBuf c) hc, ok_bind, pure_eq_ok, Except.ok.injEq,
          Prod.mk.injEq, true_and] at h
        subst h
        exact ⟨.refl d₁, h0, fun _ => rfl⟩
      · obtain ⟨hleak, h0, -⟩ := ih _ _ d' h
        refine ⟨hleak.mark hsize hb, h0, fun hnone => ?_⟩
        have := freeCount_pos hb
        omega
    · rw [if_neg hc] at h
      exact ih inode d d' h

/-! ## The whole call -/

/-- One of the checks in front of a write rejects it. -/
def FS.Refuses (fs : FS) (h : Fin 20) (nbytes : Int32) : Prop :=
  ∃ record, readInode fs.disk (fs.fileHandleArray h).inodeNumber.toInt = .ok record ∧
    WriteRefused fs h nbytes record

/-- A write that returns -1 was rejected, or its allocation loop failed. -/
theorem write_failed {tempBuf : Nat → Mem} {fs fs' : FS} {h : Fin 20} {buf : Mem} {nbytes : Int32}
    (hw : Ops.write tempBuf h buf nbytes fs = .ok (-1, fs')) :
    fs.Refuses h nbytes ∧ fs' = fs ∨
    ∃ slots inode d', allocLoop tempBuf slots slots inode fs.disk = .ok (none, d') ∧
      fs' = { fs with disk := d' } := by
  rw [Ops.write, bind_eq_ok] at hw
  obtain ⟨record, hrec, hw⟩ := hw
  by_cases hrej : WriteRefused fs h nbytes record
  · have hrun := write_refused tempBuf buf hrec hrej
    rw [Ops.write, hrec, ok_bind, hw, Except.ok.injEq, Prod.mk.injEq] at hrun
    exact .inl ⟨⟨record, hrec, hrej⟩, hrun.2⟩
  · right
    rw [WriteRefused, not_or] at hrej
    rw [if_neg hrej.1, if_neg hrej.2, bind_eq_ok] at hw
    obtain ⟨⟨r, d'⟩, hloop, hw⟩ := hw
    cases r with
    | none =>
      simp only [pure_eq_ok, Except.ok.injEq, Prod.mk.injEq, true_and] at hw
      exact ⟨_, record, d', hloop, hw.symm⟩
    | some inode' =>
      -- behind the loop a write ends with 0
      simp only [bind_eq_ok] at hw
      obtain ⟨x, -, y, -, d₁, -, hw⟩ := hw
      cases hw

/-- The freelists, the inode records and the data blocks are what they were. -/
structure Atomic (d d' : Disk) : Prop where
  inodeFreelist : d'.sb.inodeFreelist = d.sb.inodeFreelist
  datablockFreelist : d'.sb.datablockFreelist = d.sb.datablockFreelist
  inode : ∀ i, d'.inode i = d.inode i
  block : ∀ b k, k < 64 → d'.block b k = d.block b k

theorem Atomic.refl (d : Disk) : Atomic d d := ⟨rfl, rfl, fun _ => rfl, fun _ _ _ => rfl⟩

/-- A write that is rejected by the checks, or finds no block free, changes nothing. -/
theorem write_undone {tempBuf : Nat → Mem} {fs fs' : FS} {h : Fin 20} {buf : Mem} {nbytes : Int32}
    (hw : Ops.write tempBuf h buf nbytes fs = .ok (-1, fs'))
    (hcond : fs.Refuses h nbytes ∨ fs.disk.freeCount = 0) : Atomic fs.disk fs'.disk := by
  rcases hcond with ⟨record, hrec, hrej⟩ | hnone
  · rw [write_refused tempBuf buf hrec hrej, Except.ok.injEq, Prod.mk.injEq] at hw
    rw [← hw.2]
    exact .refl _
  · rcases write_failed hw with ⟨-, rfl⟩ | ⟨slots, inode, d', hloop, rfl⟩
    · exact .refl _
    · obtain ⟨-, -, hsame⟩ := allocLoop_failed tempBuf slots slots inode fs.disk d' hloop
      rw [hsame hnone]
      exact .refl _

/-- **A failing write is undone** exactly when it is rejected by the checks, or no data block is
    free when it starts: the rollback frees nothing, so what the loop marks stays marked. -/
theorem failed_write_atomic_iff {tempBuf : Nat → Mem} {fs fs' : FS} {h : Fin 20} {buf : Mem}
    {nbytes : Int32} (hw : Ops.write tempBuf h buf nbytes fs = .ok (-1, fs')) :
    Atomic fs.disk fs'.disk ↔ fs.Refuses h nbytes ∨ fs.disk.freeCount = 0 := by
  refine ⟨fun ha => ?_, write_undone hw⟩
  rcases write_failed hw with ⟨href, rfl⟩ | ⟨slots, inode, d', hloop, rfl⟩
  · exact .inl href
  · -- the loop has used up the free blocks, and has left them marked
    obtain ⟨-, h0, -⟩ := allocLoop_failed tempBuf slots slots inode fs.disk d' hloop
    right
    rw [Disk.freeCount, ← ha.datablockFreelist]
    exact h0

/-- The name of the file with number `k`. -/
def letter (k : Fin 8) : CStr := ⟨[97 + UInt8.ofNat k], by revert k; decide⟩

/-- Seven files of four blocks, each behind the handle with its number. -/
def sevenFiles : List Op := (List.finRange 7).flatMap fun k => [.create (letter k.castSucc),
  .openFile (letter k.castSucc), .write (k.castLE (by decide)) (fun _ => 120) 256]

/-- The eighth file has the last two blocks and wants a third: the write returns -1 and is
    undone. -/
theorem failed_write_atomic_iff_full :
    ∃ s fs', simplefsHistory.Reach s ∧ s.2.LiveAt 7 7 ∧ ¬ s.1.Refuses 7 64 ∧
      Ops.write (fun _ _ => 0) 7 (fun _ => 121) 64 s.1 = .ok (-1, fs') ∧
      Atomic s.1.disk fs'.disk := by
  have hrun : (runFormatted (sevenFiles ++ [.create (letter 7), .openFile (letter 7),
      .write 7 (fun _ => 120) 128, .seek 7 64, .seek 7 64])).bind
      (fun s => (Ops.write (fun _ _ => 0) 7 (fun _ => 121) 64 s.1).toOption.map fun x =>
        ([s.2.slot 7, s.2.inst 7], x.1, s.1.disk.freeCount, (s.1.fileHandleArray 7).offset,
          (readInode s.1.disk (s.1.fileHandleArray 7).inodeNumber.toInt).toOption.map (·.status))) =
      some ([some 7, some 7], -1, 0, 128, some inodeInUse) := by decide +kernel
  obtain ⟨s, hs, hx⟩ := Option.bind_eq_some_iff.mp hrun
  obtain ⟨⟨r, fs'⟩, hw, hfacts⟩ := Option.map_eq_some_iff.mp hx
  simp only [Prod.mk.injEq, List.cons.injEq, and_true] at hfacts
  obtain ⟨⟨hslot, hinst⟩, rfl, hnone, hoff, hrecord⟩ := hfacts
  have hguard : (simplefsHistory.guard fun _ _ => True).Reach s :=
    runFormatted_reach hs fun _ _ _ => trivial
  have hwrite := toOption_eq_some.mp hw
  have haccepted : ¬ s.1.Refuses 7 64 := by
    rintro ⟨record, hrec, hrej⟩
    rw [hrec] at hrecord
    have hstatus : record.status = inodeInUse := Option.some.inj hrecord
    rw [WriteRefused, hstatus, hoff] at hrej
    exact absurd hrej (by decide)
  exact ⟨s, fs', hguard.of_guard, ⟨7, hslot, hinst⟩, haccepted, hwrite,
    (failed_write_atomic_iff hwrite).mpr (.inr hnone)⟩

/-- **The eighth file** wants four blocks where two are left: the write returns -1, and block 28
    is marked. -/
theorem failed_write_marks :
    ¬ ∀ s, simplefsHistory.Reach s → ∀ (tempBuf : Nat → Mem) (h : Fin 20) (i : Fin 8) (buf : Mem)
      (nbytes : Int32) (fs' : FS), s.2.LiveAt h i →
      Ops.write tempBuf h buf nbytes s.1 = .ok (-1, fs') → Atomic s.1.disk fs'.disk := by
  intro hall
  have hrun : (runFormatted (sevenFiles ++ [.create (letter 7), .openFile (letter 7)])).bind
      (fun s => (Ops.write (fun _ _ => 0) 7 (fun _ => 120) 256 s.1).toOption.map fun x =>
        (s.2.slot 7, s.2.inst 7, x.1, s.1.disk.sb.datablockFreelist 28,
          x.2.disk.sb.datablockFreelist 28)) =
      some (some 7, some 7, -1, flagFree, flagUsed) := by
    decide +kernel
  obtain ⟨s, hs, hx⟩ := Option.bind_eq_some_iff.mp hrun
  obtain ⟨⟨r, fs'⟩, hw, hfacts⟩ := Option.map_eq_some_iff.mp hx
  simp only [Prod.mk.injEq] at hfacts
  obtain ⟨hslot, hinst, rfl, hold, hnew⟩ := hfacts
  have hguard : (simplefsHistory.guard fun _ _ => True).Reach s :=
    runFormatted_reach hs fun _ _ _ => trivial
  have ha := hall s hguard.of_guard (fun _ _ => 0) 7 7 (fun _ => 120) 256 fs' ⟨7, hslot, hinst⟩
    (toOption_eq_some.mp hw)
  rw [ha.datablockFreelist, hold] at hnew
  exact absurd hnew (by decide)

/-! ## Over whole runs -/

/-- A contained client whose failing writes are rejected by the checks or find no block free. -/
def Undone (s : FS × History) (e : Event) : Prop :=
  Contained s e ∧ ∀ h buf nbytes, e.op = .write h buf nbytes → e.ret.val = -1 →
    s.1.Refuses h nbytes ∨ s.1.disk.freeCount = 0

/-- An undone write leaves no block behind. -/
theorem Atomic.noLeak {d d' : Disk} (ha : Atomic d d') (h : NoLeak d.owner d.Used) :
    NoLeak d'.owner d'.Used := by
  have howner : d'.owner = d.owner := by
    funext s
    rw [Disk.owner, Disk.owner, ha.inode]
  have hused : d'.Used = d.Used := by
    funext b
    rw [Disk.Used, Disk.Used, ha.datablockFreelist]
  rw [howner, hused]
  exact h

/-- **No block is lost** in a run whose failing writes are undone: what is marked used is some
    file's. -/
theorem undone_no_leak {s : FS × History} (h : (simplefsHistory.guard Undone).Reach s) :
    Owned s.1.disk ∧ NoLeak s.1.disk.owner s.1.disk.Used := by
  refine Lts.Reach.invariant
    (I := fun s => Owned s.1.disk ∧ NoLeak s.1.disk.owner s.1.disk.Used) ?_ ?_ h
  · intro s hs
    have hi := Inv.start hs
    obtain ⟨-, hg⟩ := hs
    exact ⟨hi.owned, hi.accounted (by rw [hg]; rfl)⟩
  · rintro s ⟨op, u, ret⟩ s' ⟨hd, hnl⟩ ⟨⟨hc, hfail⟩, hrun, -⟩
    have heff := contained_effect hd hc hrun
    refine ⟨hd.effect heff, ?_⟩
    by_cases hbad : ∃ h buf nbytes, op = .write h buf nbytes ∧ ret.val = -1
    · obtain ⟨h, buf, nbytes, rfl, hval⟩ := hbad
      have hcond := hfail h buf nbytes rfl hval
      obtain ⟨hw, -⟩ := exec_write hrun
      rw [hval] at hw
      exact (write_undone hw hcond).noLeak hnl
    · -- every other call accounts for its blocks
      have hacc : Accounted s.1 { s.2 with failed := false } := fun _ => hnl
      refine hacc.effect (e := ⟨op, u, ret⟩) hd heff ?_
      cases op with
      | write h buf nbytes =>
        have hval : ret.val ≠ -1 := fun hval => hbad ⟨h, buf, nbytes, rfl, hval⟩
        simp [History.after, hval]
      | create f =>
        by_cases hval : 0 ≤ ret.val
        · simp only [History.after, if_pos hval]
        · simp only [History.after, if_neg hval]
      | delete | openFile | close | seek | read => rfl

end OsCodes.SimpleFS
