/-
  Reading back what was written.

  The bytes of a write pass `strncpy` on their way in, block by block, and again on their way out,
  across the whole read.  Both stop at a NUL, so the bytes come back exactly when every byte behind
  a NUL is one too.  And they come back from disk only: a partial block that the file does not own
  takes them to the inode table, and the read delivers what was on the stack.

  The two directions of `round_trip_iff` use the same two facts, that a byte of the buffer is on
  disk where `strncpy` has copied it (`Stored.fileByte_written`), and that a byte whose slot stays
  empty is what the stack had (`Staged.hole`); since that can be anything, a write into a hole is
  read back in no run that is sure of it.
-/
import OsCodes.SimpleFS.Overwrite
import OsCodes.SimpleFS.SeekBounds

namespace OsCodes.SimpleFS

open Bytes

/-- Seeking away and back again, and reading `nbytes` bytes, yields the bytes of the buffer. -/
def ReadsBack (fs : FS) (h : Fin 20) (buf : Mem) (nbytes : Int32) : Prop :=
  ∀ (nseek : Int32) (temp : Int → UInt8),
    Ops.read temp h nbytes (Ops.seek h (-nseek) (Ops.seek h nseek fs).2).2 =
      .ok (0, Spec.written buf nbytes)

/-- Two seeks that cancel leave the file system as it was. -/
theorem seek_back (fs : FS) (h : Fin 20) (nseek : Int32) :
    (Ops.seek h (-nseek) (Ops.seek h nseek fs).2).2 = fs := by
  have hoff : (fs.fileHandleArray h).offset + nseek + -nseek = (fs.fileHandleArray h).offset := by
    rw [Int32.add_assoc, Int32.add_right_neg, Int32.add_zero]
  simp only [seek_eq, FS.setHandle_self, hoff]
  simp only [FS.setHandle, Function.update_idem, Function.update_eq_self]

section Stored

variable {d d' : Disk} {i : Fin 8} {o n : Nat} {buf : Mem}

/-- **Bytes that `strncpy` copies** are on disk after a write whose partial block is the file's. -/
theorem Stored.fileByte_written (hst : Stored d d' i o n buf) (hend : o + n ≤ 256)
    (hplace : o % 64 = 0 ∨ ∃ c : Fin 4, c.val = o / 64 ∧ (d.inode i).directBlocks c ≠ -1)
    (hnul : NulLast buf n) {k : Nat} (hk : k < n) :
    d'.fileByte i ((o : Int) + k) = some (buf k) := by
  obtain ⟨c, j, hj, hp⟩ := exists_slot (show o + k < 256 by omega)
  have hcast : (o : Int) + k = 64 * (c.val : Int) + j := by omega
  have hblk : (d'.inode i).directBlocks c ≠ -1 := by
    by_cases hin : o ≤ 64 * c.val
    · exact hst.filled c ⟨hin, by omega⟩
    · -- in the partial block
      obtain ⟨e, he, hblk⟩ := hplace.resolve_left (by omega)
      obtain rfl : e = c := Fin.ext (by omega)
      rw [hst.keep e hblk]
      exact hblk
  obtain ⟨b, hb, -⟩ := hst.present c hblk
  have hT : Touched o n c := .inl ⟨by omega, by omega⟩
  rw [hcast, hst.fileByte_touched hT (Disk.owner_eq_some.mpr hb) hj, newByte,
    if_neg (by omega), if_pos (by omega), (hnul.view (64 * c.val - o)).strncpy_eq (by omega),
    view_apply]
  congr 2
  omega

/-- A byte whose slot stays empty is not staged. -/
theorem Staged.hole {temp temp' : Int → UInt8} {p : Nat}
    (hs : Staged d' (d'.inode i) (List.finRange 4) temp temp')
    (hempty : ∀ c : Fin 4, c.val = p / 64 → (d'.inode i).directBlocks c = -1) :
    temp' p = temp p := by
  refine hs.kept p fun c _ hc => ?_
  have hne : c.val ≠ p / 64 := fun heq => hc (hempty c heq)
  omega

end Stored

/-- After a write at the end of the file the read is accepted, and delivers what is staged. -/
theorem read_after_write {tempBuf : Nat → Mem} {fs fs' : FS} {h : Fin 20} {i : Fin 8} {buf : Mem}
    {nbytes : Int32} {o n : Nat} (hd : Owned fs.disk) (hi : fs.Bound h i) (huse : fs.disk.InUse i)
    (ho : (fs.fileHandleArray h).offset.toInt = o)
    (hz : (fs.disk.inode i).fileSize = (fs.fileHandleArray h).offset) (hn : nbytes.toInt = n)
    (hend : o + n ≤ 256) (hw : Ops.write tempBuf h buf nbytes fs = .ok (0, fs'))
    (temp : Int → UInt8) :
    ∃ temp', Staged fs'.disk (fs'.disk.inode i) (List.finRange 4) temp temp' ∧
      Ops.read temp h nbytes fs' =
        .ok (0, (List.range n).map (strncpy fun k => temp' ((o : Int) + k))) := by
  have hst := write_stored hd hi huse ho hn hend hw
  have hhandle := write_handles hw
  have hi' : fs'.Bound h i := by
    rw [FS.Bound, hhandle]
    exact hi
  have hsize : (fs'.disk.inode i).fileSize.toInt = (o + n : Nat) := by
    rw [hst.fileSize, hz]
    exact toInt_add_ofInt ho (by omega) (by omega)
  have hsum : ((fs'.fileHandleArray h).offset + nbytes).toInt = (o + n : Nat) := by
    rw [hhandle, toInt_add_of_fits (by omega) (by omega), ho, hn]
    rfl
  rcases read_present temp nbytes (Nat.le_trans hd.formatted hst.size) hi' hst.present with
    ⟨hrej, -⟩ | ⟨-, temp', hstaged, hread⟩
  · omega
  · rw [hhandle, ho, hn, Int.toNat_natCast] at hread
    exact ⟨temp', hstaged, hread⟩

/-- **The round trip.**  In every state of a contained run, what a write of `n` bytes at the end of
    the file stores is read back exactly when there is nothing to store or the partial block is the
    file's, and no NUL is in front of another byte. -/
theorem round_trip_iff {s : FS × History} (hs : (simplefsHistory.guard Contained).Reach s)
    {tempBuf : Nat → Mem} {h : Fin 20} {i : Fin 8} {buf : Mem} {nbytes : Int32} {o n : Nat}
    {fs' : FS} (hl : s.2.LiveAt h i) (ho : (s.1.fileHandleArray h).offset.toInt = o)
    (hz : (s.1.disk.inode i).fileSize = (s.1.fileHandleArray h).offset) (hn : nbytes.toInt = n)
    (hend : o + n ≤ 256) (hw : Ops.write tempBuf h buf nbytes s.1 = .ok (0, fs')) :
    ReadsBack fs' h buf nbytes ↔
      (n = 0 ∨ o % 64 = 0 ∨
        ∃ c : Fin 4, c.val = o / 64 ∧ (s.1.disk.inode i).directBlocks c ≠ -1) ∧
      NulLast buf n := by
  obtain ⟨hd, ht⟩ := contained_reach hs
  have hi := ht.live hl
  have huse := ht.inUse_of_live hl
  have hst := write_stored hd hi huse ho hn hend hw
  have hread := read_after_write hd hi huse ho hz hn hend hw
  have hwritten : Spec.written buf nbytes = (List.range n).map buf := by
    rw [Spec.written, hn, Int.toNat_natCast]
  simp only [ReadsBack, seek_back, hwritten]
  constructor
  · intro hall
    have hbytes : ∀ temp, ∃ temp' : Int → UInt8,
        Staged fs'.disk (fs'.disk.inode i) (List.finRange 4) temp temp' ∧
        ∀ k < n, strncpy (fun k => temp' ((o : Int) + k)) k = buf k := by
      intro temp
      obtain ⟨temp', hstaged, hrun⟩ := hread temp
      rw [hall 0 temp, Except.ok.injEq, Prod.mk.injEq, List.map_inj_left] at hrun
      exact ⟨temp', hstaged, fun k hk => (hrun.2 k (List.mem_range.mpr hk)).symm⟩
    constructor
    · -- a first byte that is not on disk can be any
      by_contra hno
      rw [not_or, not_or] at hno
      obtain ⟨hn0, hoff, hown⟩ := hno
      obtain ⟨temp', hstaged, hsame⟩ := hbytes fun _ => if buf 0 = 0 then 1 else 0
      have hempty : ∀ c : Fin 4, c.val = o / 64 → (fs'.disk.inode i).directBlocks c = -1 := by
        intro c hc
        rw [hst.off c (by omega)]
        by_contra hne
        exact hown ⟨c, hc, hne⟩
      have hfirst := hsame 0 (by omega)
      rw [strncpy_head, Int.natCast_zero, Int.add_zero, hstaged.hole hempty] at hfirst
      split at hfirst
      · rename_i h0
        rw [h0] at hfirst
        exact absurd hfirst (by decide)
      · rename_i h0
        exact h0 hfirst.symm
    · intro j k hjk hk hj
      obtain ⟨temp', -, hsame⟩ := hbytes fun _ => 0
      rw [← hsame k hk]
      exact strncpy_behind_nul (Nat.le_of_lt hjk) ((hsame j (by omega)).trans hj)
  · rintro ⟨hplace, hnul⟩ - temp
    obtain ⟨temp', hstaged, hrun⟩ := hread temp
    have hmap : (List.range n).map (strncpy fun k => temp' ((o : Int) + k)) =
        (List.range n).map buf := by
      refine List.map_congr_left fun k hk => ?_
      rw [List.mem_range] at hk
      rw [← hnul.strncpy_eq hk]
      refine strncpy_congr fun j hj => ?_
      exact hstaged.fileByte
        (hst.fileByte_written hend (hplace.resolve_left (by omega)) hnul (by omega))
    rw [hrun, hmap]

/-- A file of 70 bytes: three letters appended in its second block are read back, and the bytes 0
    and 1 are not. -/
theorem round_trip_iff_appended :
    ∃ s fs' fs'', (simplefsHistory.guard Contained).Reach s ∧ s.2.LiveAt 0 0 ∧
      (s.1.disk.inode 0).fileSize = 70 ∧
      Ops.write (fun _ _ => 0) 0 (fun _ => 121) 3 s.1 = .ok (0, fs') ∧
      ReadsBack fs' 0 (fun _ => 121) 3 ∧
      Ops.write (fun _ _ => 0) 0 (fun k => if k = 0 then 0 else 1) 2 s.1 = .ok (0, fs'') ∧
      ¬ ReadsBack fs'' 0 (fun k => if k = 0 then 0 else 1) 2 := by
  have hrun : (runGuarded startsWrite [.create nameA, .openFile nameA, .write 0 (fun _ => 120) 70,
      .seek 0 70]).bind
      (fun s => (Ops.write (fun _ _ => 0) 0 (fun _ => 121) 3 s.1).toOption.bind fun x =>
        (Ops.write (fun _ _ => 0) 0 (fun k => if k = 0 then 0 else 1) 2 s.1).toOption.map fun y =>
          ([s.2.slot 0, s.2.inst 0], [(s.1.fileHandleArray 0).offset, (s.1.disk.inode 0).fileSize],
            decide ((s.1.disk.inode 0).directBlocks 1 = -1), [x.1, y.1])) =
      some ([some 0, some 0], [70, 70], false, [0, 0]) := by decide +kernel
  obtain ⟨s, hs, hx⟩ := Option.bind_eq_some_iff.mp hrun
  obtain ⟨⟨r, fs'⟩, hw, hy⟩ := Option.bind_eq_some_iff.mp hx
  obtain ⟨⟨r', fs''⟩, hw', hfacts⟩ := Option.map_eq_some_iff.mp hy
  simp only [Prod.mk.injEq, List.cons.injEq, and_true, decide_eq_false_iff_not] at hfacts
  obtain ⟨⟨hslot, hinst⟩, ⟨hoff, hsize⟩, hblock, rfl, rfl⟩ := hfacts
  have hreach : (simplefsHistory.guard Contained).Reach s :=
    runGuarded_reach hs fun s e _ hc => contained_of_startsWrite hc
  have hl : s.2.LiveAt 0 0 := ⟨0, hslot, hinst⟩
  have hend : (s.1.disk.inode 0).fileSize = (s.1.fileHandleArray 0).offset := by rw [hoff, hsize]
  have ho : (s.1.fileHandleArray 0).offset.toInt = (70 : Nat) := by rw [hoff]; rfl
  have hwrite := toOption_eq_some.mp hw
  have hwrite' := toOption_eq_some.mp hw'
  refine ⟨s, fs', fs'', hreach, hl, hsize, hwrite, ?_, hwrite', fun hback => ?_⟩
  · refine (round_trip_iff (n := 3) hreach hl ho hend (by rfl) (by decide) hwrite).mpr
      ⟨.inr (.inr ⟨1, rfl, hblock⟩), fun j k _ _ h0 => ?_⟩
    exact absurd h0 (show ¬ (121 : UInt8) = 0 by decide)
  · have hnul := ((round_trip_iff (n := 2) hreach hl ho hend (by rfl) (by decide) hwrite').mp hback).2
    exact absurd (hnul 0 1 (by decide) (by decide) rfl) (by decide)

/-- **The bytes 0 and 1** are read back as 0 and 0. -/
theorem round_trip_nul :
    ¬ ∀ s, simplefsHistory.Reach s → ∀ (tempBuf : Nat → Mem) (h : Fin 20) (i : Fin 8) (buf : Mem)
      (nbytes : Int32) (o n : Nat) (fs' : FS), s.2.LiveAt h i →
      (s.1.fileHandleArray h).offset.toInt = o →
      (s.1.disk.inode i).fileSize = (s.1.fileHandleArray h).offset → nbytes.toInt = n →
      o + n ≤ 256 → Ops.write tempBuf h buf nbytes s.1 = .ok (0, fs') →
      ReadsBack fs' h buf nbytes := by
  intro hall
  have hrun : (runFormatted [.create nameA, .openFile nameA]).bind
      (fun s => (Ops.write (fun _ _ => 0) 0 (fun k => if k = 0 then 0 else 1) 2
        s.1).toOption.bind fun x =>
          (Ops.read (fun _ => 0) 0 2 (Ops.seek 0 (-0) (Ops.seek 0 0 x.2).2).2).toOption.map fun y =>
            ([s.2.slot 0, s.2.inst 0],
              [(s.1.fileHandleArray 0).offset, (s.1.disk.inode 0).fileSize], x.1, y)) =
      some ([some 0, some 0], [0, 0], 0, (0, [0, 0])) := by decide +kernel
  obtain ⟨s, hs, hx⟩ := Option.bind_eq_some_iff.mp hrun
  obtain ⟨⟨r, fs'⟩, hw, hy⟩ := Option.bind_eq_some_iff.mp hx
  obtain ⟨y, hread, hfacts⟩ := Option.map_eq_some_iff.mp hy
  simp only [Prod.mk.injEq, List.cons.injEq, and_true] at hfacts
  obtain ⟨⟨hslot, hinst⟩, ⟨hoff, hsize⟩, rfl, rfl⟩ := hfacts
  have hreach : (simplefsHistory.guard fun _ _ => True).Reach s :=
    runFormatted_reach hs fun _ _ _ => trivial
  have hback := hall s hreach.of_guard _ 0 0 _ 2 0 2 fs' ⟨0, hslot, hinst⟩ (by rw [hoff]; rfl)
    (by rw [hoff, hsize]) (by rfl) (by decide) (toOption_eq_some.mp hw) 0 fun _ => 0
  rw [toOption_eq_some.mp hread] at hback
  exact absurd hback (by decide)

end OsCodes.SimpleFS
