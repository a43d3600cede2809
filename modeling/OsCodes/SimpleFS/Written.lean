/-
  Which offsets of a file were written.

  `written` records the ranges that the writes of a run went to, file by file, from the create on.
  A law that relates the record of an inode to the offsets written is kept by every call if creates
  begin it and successful writes keep it (`EveryFile.step`); no other call changes either side.

  The offsets are kept as ranges, one for each write, with the arithmetic of `Lib.Extent`.
  `Overwrite` and `SizeLaw` instantiate `EveryFile` with their own laws, so that the calls that do
  not touch the file are looked at once, here.
-/
import OsCodes.Lib.Extent
import OsCodes.SimpleFS.Isolation

namespace OsCodes.SimpleFS

open Bytes

/-- The offsets of each file that were written since it was created. -/
abbrev Written := Fin 8 → Nat → Bool

/-- The record after a call. -/
def written (s : FS × History) (W : Written) (e : Event) : Written :=
  match e.op with
  | .create _ => fun i => if (i.val : Int) = e.ret.val then fun _ => false else W i
  | .write h _ nbytes => fun i =>
    if e.ret.val = 0 ∧ (s.1.fileHandleArray h).inodeNumber = Int32.ofInt i.val then
      Extent.mark (W i) (s.1.fileHandleArray h).offset.toInt.toNat nbytes.toInt.toNat
    else W i
  | _ => W

/-- SimpleFS with the record of its writes. -/
def simplefsWritten : Lts ((FS × History) × Written) Event :=
  simplefsHistory.withGhost (fun _ _ => false) written

section Record

variable {s : FS × History} {W : Written} {u : Uninit} {h : Fin 20} {buf : Mem} {nbytes : Int32}
  {i j : Fin 8}

/-- A create that is refused makes no file. -/
theorem written_refused {f : CStr} : written s W ⟨.create f, u, ⟨-1, []⟩⟩ = W := by
  funext i
  exact if_neg (show ¬ (i.val : Int) = -1 by omega) (t := fun _ => false)

/-- A write that fails writes nothing. -/
theorem written_failed : written s W ⟨.write h buf nbytes, u, ⟨-1, []⟩⟩ = W := by
  funext i
  simp [written]

/-- A write that succeeds writes `n` bytes at `o` of the file behind the handle, -/
theorem written_self {o n : Nat} (hi : s.1.Bound h i)
    (ho : (s.1.fileHandleArray h).offset.toInt = o) (hn : nbytes.toInt = n) :
    written s W ⟨.write h buf nbytes, u, ⟨0, []⟩⟩ i = Extent.mark (W i) o n := by
  simp only [written, true_and, ho, hn, Int.toNat_natCast]
  exact if_pos hi

/-- and nothing of the others. -/
theorem written_ne {r : Ret} (hi : s.1.Bound h i) (hj : j ≠ i) :
    written s W ⟨.write h buf nbytes, u, r⟩ j = W j :=
  if_neg fun hbound => hj (bound_unique hbound.2 hi)

end Record

/-- A law of every file: of its inode's record and the offsets written. -/
def EveryFile (P : Inode → (Nat → Bool) → Prop) (d : Disk) (W : Written) : Prop :=
  ∀ i, d.InUse i → P (d.inode i) (W i)

namespace EveryFile

variable {P : Inode → (Nat → Bool) → Prop} {d d' : Disk} {W W' : Written}

theorem fresh {fs : FS} (h : Fresh fs) : EveryFile P fs.disk W := by
  intro i huse
  rw [Disk.InUse, h.status] at huse
  exact absurd huse (by decide)

/-- Calls that touch one file at most. -/
theorem replace {i : Fin 8} (h : EveryFile P d W)
    (hne : ∀ j, j ≠ i → d'.inode j = d.inode j ∧ W' j = W j)
    (hi : d'.InUse i → P (d'.inode i) (W' i)) : EveryFile P d' W' := by
  intro j huse
  by_cases hj : j = i
  · subst hj
    exact hi huse
  · obtain ⟨heq, hW⟩ := hne j hj
    rw [Disk.InUse, heq] at huse
    rw [heq, hW]
    exact h j huse

/-- **Every call** keeps a law that creates begin and successful writes keep. -/
theorem step {s : (FS × History) × Written} {e : Event} {fs' : FS}
    (h : EveryFile P s.1.1.disk s.2) (hd : Owned s.1.1.disk) (hc : Contained s.1 e)
    (hrun : Ops.exec e.uninit s.1.1 e.op = .ok (e.ret, fs'))
    (hcreate : ∀ (f : CStr) (i : Fin 8), e.op = .create f → e.ret = ⟨i.val, []⟩ →
      NewInode (fs'.disk.inode i) f → P (fs'.disk.inode i) fun _ => false)
    (hwrite : ∀ (k : Fin 20) (buf : Mem) (nbytes : Int32) (i : Fin 8) (o n : Nat),
      e.op = .write k buf nbytes → e.ret.val = 0 → s.1.1.Bound k i → s.1.1.disk.InUse i →
      (s.1.1.fileHandleArray k).offset.toInt = o → nbytes.toInt = n → o + n ≤ 256 →
      Wrote s.1.1.disk fs'.disk i o n buf →
      P (fs'.disk.inode i) (Extent.mark (s.2 i) o n)) :
    EveryFile P fs'.disk (written s.1 s.2 e) := by
  have heff := contained_effect hd hc hrun
  obtain ⟨op, u, ret⟩ := e
  cases heff with
  | createRefused =>
    rw [written_refused]
    exact h
  | @created f i new tempBuf hl hfree hnew =>
    have hself : (s.1.1.disk.created tempBuf i new).inode i = new := Disk.inode_setInode_self ..
    refine h.replace (i := i) (fun j hj => ⟨?_, ?_⟩) fun _ => ?_
    · simp only [Disk.created, Disk.inode_setInode_ne _ _ _ hj, Disk.inode_writeSuperBlock]
    · exact if_neg fun heq => hj (Fin.ext (Int.ofNat_inj.mp heq))
    · have hempty : written s.1 s.2 ⟨.create f, u, ⟨i.val, []⟩⟩ i = fun _ => false := if_pos rfl
      rw [hempty]
      refine hcreate f i rfl rfl ?_
      simp only [hself]
      exact hnew
  | deleteNone | openRefused | opened | closed | sought | read => exact h
  | @deleted f i d' hl hdel =>
    refine h.replace (i := i) (fun j hj => ⟨hdel.inode_ne j hj, rfl⟩) fun huse => ?_
    rw [Disk.InUse, hdel.status] at huse
    exact absurd huse (by decide)
  | @write k buf nbytes r fs' hw =>
    rcases hw.outcome with ⟨rfl, hleak⟩ | ⟨rfl, i, o, n, hi, huse, ho, hn, hend, hwr⟩
    · rw [written_failed]
      intro j huse
      rw [Disk.InUse, hleak.sbOnly.inode] at huse
      rw [hleak.sbOnly.inode]
      exact h j huse
    · refine h.replace (i := i) (fun j hj => ⟨hwr.inode_ne j hj, written_ne hi hj⟩) fun _ => ?_
      rw [written_self hi ho hn]
      exact hwrite k buf nbytes i o n rfl rfl hi huse ho hn hend hwr

/-- **Over a run** whose calls are contained and keep the law where it holds. -/
theorem reach {ok : (FS × History) × Written → Event → Prop}
    (hc : ∀ s e, Owned s.1.1.disk → EveryFile P s.1.1.disk s.2 → ok s e → Contained s.1 e)
    (hstep : ∀ s e fs', Owned s.1.1.disk → EveryFile P s.1.1.disk s.2 → ok s e →
      Ops.exec e.uninit s.1.1 e.op = .ok (e.ret, fs') →
      EveryFile P fs'.disk (written s.1 s.2 e))
    {s : (FS × History) × Written} (h : (simplefsWritten.guard ok).Reach s) :
    Owned s.1.1.disk ∧ Tracks s.1.1 s.1.2 ∧ EveryFile P s.1.1.disk s.2 := by
  refine Lts.Reach.invariant
    (I := fun s => Owned s.1.1.disk ∧ Tracks s.1.1 s.1.2 ∧ EveryFile P s.1.1.disk s.2) ?_ ?_ h
  · rintro s ⟨hs, -⟩
    have hi := Inv.start hs
    exact ⟨hi.owned, hi.tracks, .fresh (start_fresh hs)⟩
  · rintro s e s' ⟨hd, ht, hP⟩ ⟨hok, ⟨hrun, hg⟩, hW⟩
    have heff := contained_effect hd (hc s e hd hP hok) hrun
    rw [hg, hW]
    exact ⟨hd.effect heff, ht.effect heff, hstep s e _ hd hP hok hrun⟩

end EveryFile

end OsCodes.SimpleFS
