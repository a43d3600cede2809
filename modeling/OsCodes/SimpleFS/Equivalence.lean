/-
  The two implementations do the same.

  `simplefs-ops_1.c` looks for a name in free inodes too, so equality rests on `Named`: a free
  inode has no name.  Its additional checks never fire for clients whose handles are live and
  whose seeks land in the file; that needs offsets that stay in 0..256 (`Offsets`).

  The two systems run side by side from the same start.  `exec_eq` is the comparison of one call
  and needs the state to be in order: names in free inodes are empty, so that the two searches
  find the same inode, and offsets are in range, so that the two checks of a seek agree.
  `implementations_agree` has the reachable states of both runs as one set, and in each of them
  every comparable call with the same value and the same bytes.
-/
import OsCodes.SimpleFS.Ops1
import OsCodes.SimpleFS.Ownership

namespace OsCodes.SimpleFS

open Bytes

/-! ## Call by call -/

section Calls

variable {fs : FS}

/-- `strcpy` of a short string changes the name only. -/
theorem Inode.strcpyName_short (inode : Inode) {s : CStr} (hlen : s.len ≤ 7) :
    inode.strcpyName s = .ok { inode with
      name := fun k => if k.val < s.len + 1 then s.mem k.val else inode.name k } := by
  have hback : Inode.decode inode.encode = inode := inode.decode_encode
  rw [Inode.strcpyName, if_pos (by omega)]
  congr 1
  obtain ⟨hst, hname, hsize, hblocks⟩ := Inode.mk.inj hback
  simp only [decode, Inode.mk.injEq]
  refine ⟨?_, funext fun k => ?_, ?_, funext fun c => ?_⟩
  · rw [← hst]
    exact get32_congr fun j hj => blit_out (by omega)
  · rw [← congrFun hname k]
    by_cases hk : k.val < s.len + 1
    · rw [if_pos hk, blit_in (by omega), Nat.add_sub_cancel_left]
    · rw [if_neg hk, blit_out (by omega)]
  · rw [← hsize]
    exact get32_congr fun j hj => blit_out (by omega)
  · rw [← congrFun hblocks c]
    exact get32_congr fun j hj => blit_out (by omega)

/-- A short name is found in inodes in use only. -/
theorem hasName_eq_isFile (hd : Owned fs.disk) (hn : Named fs.disk) {filename : CStr}
    (hf : Short filename) (i : Fin 8) :
    (fs.disk.inode i).hasName filename = (fs.disk.inode i).isFile filename := by
  rw [Inode.hasName, Inode.isFile]
  by_cases hi : fs.disk.InUse i
  · have hst : (fs.disk.inode i).status = inodeInUse := hi
    rw [hst, decide_eq_true rfl, Bool.true_and]
  · have hst := hd.not_inUse hi
    rw [Inode.strcmpEq_noName (hn.idle i hst) (by have := hf.1; omega), Bool.and_false]

theorem create_eq (tempBuf : Mem) (hd : Owned fs.disk) (hn : Named fs.disk) {filename : CStr}
    (hf : Short filename) : Ops1.create tempBuf filename fs = Ops.create tempBuf filename fs := by
  have hscan := scanInodes_congr hd.formatted (hasName_eq_isFile hd hn hf) (List.finRange 8) .unset
  rw [Ops1.create, Ops.create, hscan]
  refine bind_congr fun x => ?_
  obtain ⟨found, inodeptr⟩ := x
  cases found with
  | some i => rfl
  | none =>
    refine bind_congr fun y => ?_
    obtain ⟨inodeNum, d⟩ := y
    cases inodeNum with
    | none => rfl
    | some i =>
      -- one sets the size before the copy of the name, the other behind it
      have hcopy := fun inode : Inode => inode.strcpyName_short hf.2
      show (Inode.strcpyName _ filename >>= _) = Inode.strcpyName _ filename >>= _
      rw [hcopy, hcopy]
      rfl

/-- Freeing blocks looks at the entries alone. -/
theorem freeBlocks_congr (tempBuf : Nat → Mem) {inode inode' : Inode}
    (h : inode'.directBlocks = inode.directBlocks) : ∀ (cs : List (Fin 4)) (d : Disk),
    freeBlocks tempBuf inode' cs d = freeBlocks tempBuf inode cs d := by
  intro cs
  induction cs with
  | nil => intro d; rfl
  | cons c cs ih =>
    intro d
    simp only [freeBlocks, h, ih]

theorem delete_eq (tempBuf : Nat → Mem) (filename : CStr) :
    Ops1.delete tempBuf filename fs = Ops.delete tempBuf filename fs := by
  have hempty : CStr.empty.len ≤ 7 := by decide
  rw [Ops1.delete, Ops.delete]
  refine bind_congr fun x => ?_
  obtain ⟨found, inodeptr⟩ := x
  cases found with
  | none => rfl
  | some i =>
    have hcopy := inodeptr.strcpyName_short hempty
    show (inodeptr.strcpyName CStr.empty >>= _) = freeBlocks _ _ _ _ >>= _
    rw [hcopy]
    show (freeBlocks _ _ _ _ >>= _) = freeBlocks _ _ _ _ >>= _
    rw [freeBlocks_congr tempBuf rfl]
    rfl

theorem openFile_eq (hd : Owned fs.disk) (hn : Named fs.disk) {filename : CStr}
    (hf : Short filename) : Ops1.openFile filename fs = Ops.openFile filename fs := by
  have hscan := scanInodes_congr hd.formatted (hasName_eq_isFile hd hn hf) (List.finRange 8) .unset
  rewrite [Ops1.openFile, Ops.openFile, hscan]
  refine bind_congr fun x => ?_
  obtain ⟨found, inodeptr⟩ := x
  cases found with
  | none => rfl
  | some i => rfl

/-- Behind a handle on a file in use the status check passes. -/
theorem read_eq (temp : Int → UInt8) {h : Fin 20} {i : Fin 8} (nbytes : Int32) (hd : Owned fs.disk)
    (hi : fs.Bound h i) (huse : fs.disk.InUse i) :
    Ops1.read temp h nbytes fs = Ops.read temp h nbytes fs := by
  have hnum : (fs.fileHandleArray h).inodeNumber.toInt = i.val := by
    rw [hi, toInt_ofInt_fin (by omega)]
  simp only [Ops1.read, Ops.read, hnum, readInode_ok hd.formatted, ok_bind, if_neg huse.ne_free]

/-- A seek that lands in 0..256 is accepted by both. -/
theorem seek_eq_seek {h : Fin 20} {nseek : Int32}
    (hlow : 0 ≤ ((fs.fileHandleArray h).offset + nseek).toInt)
    (hhigh : ((fs.fileHandleArray h).offset + nseek).toInt ≤ 256) :
    Ops1.seek h nseek fs = Ops.seek h nseek fs := by
  rw [seek_eq]
  exact if_neg (by omega)

end Calls

/-! ## The clients -/

/-- Offset plus `nseek` is in 0..256. -/
def Lands (handle : FileHandle) (nseek : Int32) : Prop :=
  0 ≤ handle.offset.toInt + nseek.toInt ∧ handle.offset.toInt + nseek.toInt ≤ 256

theorem Lands.toInt_add {handle : FileHandle} {nseek : Int32} (h : Lands handle nseek) :
    (handle.offset + nseek).toInt = handle.offset.toInt + nseek.toInt :=
  toInt_add_of_fits (by have := h.1; omega) (by have := h.2; omega)

/-- The offset is block-aligned, or inside a block that the file behind the handle owns. -/
def FS.AtOwned (fs : FS) (h : Fin 20) : Prop :=
  (fs.fileHandleArray h).offset.toInt % 64 = 0 ∨ ∃ (i : Fin 8) (c : Fin 4), fs.Bound h i ∧
    (fs.disk.inode i).directBlocks c ≠ -1 ∧
    64 * (c.val : Int) ≤ (fs.fileHandleArray h).offset.toInt ∧
    (fs.fileHandleArray h).offset.toInt < 64 * c.val + 64

/-- The calls on which both implementations are compared. -/
def Comparable (s : FS × History) : Op → Prop
  | .create f | .delete f | .openFile f => Short f
  | .close _ => True
  | .seek h nseek => s.2.Live h ∧ Lands (s.1.fileHandleArray h) nseek
  | .read h nbytes => s.2.Live h ∧ NoOverflow (s.1.fileHandleArray h).offset nbytes
  | .write h _ nbytes =>
    s.2.Live h ∧ NoOverflow (s.1.fileHandleArray h).offset nbytes ∧ s.1.AtOwned h

instance (handle : FileHandle) (nseek : Int32) : Decidable (Lands handle nseek) :=
  inferInstanceAs (Decidable (_ ∧ _))

instance (fs : FS) (h : Fin 20) : Decidable (fs.AtOwned h) :=
  inferInstanceAs (Decidable (_ ∨ _))

instance (s : FS × History) (op : Op) : Decidable (Comparable s op) :=
  match op with
  | .create _ | .delete _ | .openFile _ => inferInstanceAs (Decidable (_ ∧ _))
  | .close _ => inferInstanceAs (Decidable True)
  | .seek _ _ | .read _ _ => inferInstanceAs (Decidable (_ ∧ _))
  | .write _ _ _ => inferInstanceAs (Decidable (_ ∧ _ ∧ _))

/-- Every offset is in 0..256. -/
def Offsets (fs : FS) : Prop :=
  ∀ h, 0 ≤ (fs.fileHandleArray h).offset.toInt ∧ (fs.fileHandleArray h).offset.toInt ≤ 256

/-- Where offsets are in range, comparable calls are disciplined. -/
theorem Comparable.disciplined {s : FS × History} {op : Op} (h : Comparable s op)
    (ho : Offsets s.1) : Disciplined s op := by
  cases op with
  | create | delete | openFile | close => exact h
  | seek k nseek => exact h.1
  | read k nbytes => exact h
  | write k buf nbytes =>
    obtain ⟨hl, hover, hown⟩ := h
    obtain ⟨h0, h256⟩ := ho k
    refine ⟨hl, hover, (s.1.fileHandleArray k).offset.toInt.toNat, by omega, by omega, ?_⟩
    rcases hown with hal | ⟨i, c, hi, hc, hlo, hhi⟩
    · exact .inl (by omega)
    · exact .inr ⟨i, c, hi, by omega, hc⟩

/-- **Comparable calls keep offsets in range.** -/
theorem Offsets.effect {s : FS × History} {op : Op} {r : Ret} {fs' : FS} (h : Offsets s.1)
    (hop : Comparable s op) (he : Effect s.1 op r fs') : Offsets fs' := by
  have hset : ∀ (k : Fin 20) (handle : FileHandle), 0 ≤ handle.offset.toInt →
      handle.offset.toInt ≤ 256 → Offsets (s.1.setHandle k handle) := by
    intro k handle h0 h256 k'
    by_cases hk : k' = k
    · rw [hk, FS.setHandle_self]
      exact ⟨h0, h256⟩
    · rw [FS.setHandle_ne _ _ _ hk]
      exact h k'
  cases he with
  | createRefused | deleteNone | openRefused | read | created | deleted => exact h
  | opened | closed =>
    have h0 : (0 : Int32).toInt = 0 := by decide
    exact hset _ _ (by simp only [h0]; omega) (by simp only [h0]; omega)
  | sought =>
    obtain ⟨-, hland⟩ := hop
    refine hset _ _ ?_ ?_
    · rw [hland.toInt_add]
      exact hland.1
    · rw [hland.toInt_add]
      exact hland.2
  | write hw =>
    intro k
    rw [hw.handles]
    exact h k

/-- **One call.**  Both implementations return, with the same result and the same state. -/
theorem exec_eq {s : FS × History} (hi : Inv s) (u : Uninit) {op : Op} (hop : Comparable s op) :
    Ops1.exec u s.1 op = Ops.exec u s.1 op := by
  cases op with
  | create f => rw [Ops1.exec, Ops.exec, create_eq (u.tempBuf 0) hi.owned hi.named hop]
  | delete f => rw [Ops1.exec, Ops.exec, delete_eq u.tempBuf f]
  | openFile f => rw [Ops1.exec, Ops.exec, openFile_eq hi.owned hi.named hop]
  | close k => rfl
  | seek k nseek =>
    obtain ⟨-, hland⟩ := hop
    have hadd := hland.toInt_add
    obtain ⟨h0, h256⟩ := hland
    rw [Ops1.exec, Ops.exec, seek_eq_seek (by omega) (by omega)]
  | read k nbytes =>
    obtain ⟨⟨i, hl⟩, -⟩ := hop
    rw [Ops1.exec, Ops.exec, read_eq u.temp nbytes hi.owned (hi.tracks.live hl)
      (hi.tracks.inUse_of_live hl)]
  | write k buf nbytes => rfl

/-! ## Whole runs -/

/-- The second system with the record of its run. -/
def simplefs1History : Lts (FS × History) Event := simplefs1.withGhost .empty History.after

theorem offsets_start {s : FS × History} (h : simplefsHistory.start s) : Offsets s.1 := by
  intro k
  rw [(start_fresh h).handle k]
  exact ⟨by decide, by decide⟩

/-- What holds in every state of a comparable run. -/
theorem comparable_inv {s : FS × History}
    (h : (simplefsHistory.guard fun s e => Comparable s e.op).Reach s) : Inv s ∧ Offsets s.1 := by
  refine Lts.Reach.invariant (I := fun s => Inv s ∧ Offsets s.1) ?_ ?_ h
  · intro s hs
    exact ⟨Inv.start hs, offsets_start hs⟩
  · rintro s e s' ⟨hi, ho⟩ ⟨hop, hst⟩
    have hdis := hop.disciplined ho
    exact ⟨hi.step hdis hst, ho.effect hop (hi.step_effect hdis hst.1)⟩

/-- The two systems reach the same states. -/
theorem comparable_reach {s : FS × History} :
    (simplefs1History.guard fun s e => Comparable s e.op).Reach s ↔
      (simplefsHistory.guard fun s e => Comparable s e.op).Reach s := by
  constructor
  · intro h
    induction h with
    | start h0 => exact .start h0
    | step _ hst ih =>
      obtain ⟨hop, hrun, hg⟩ := hst
      refine .step ih ⟨hop, ?_, hg⟩
      exact (exec_eq (comparable_inv ih).1 _ hop).symm.trans hrun
  · intro h
    induction h with
    | start h0 => exact .start h0
    | step hr hst ih =>
      obtain ⟨hop, hrun, hg⟩ := hst
      refine .step ih ⟨hop, ?_, hg⟩
      exact (exec_eq (comparable_inv hr).1 _ hop).trans hrun

/-- **The implementations are equivalent.**  They reach the same states, and in each of them
    every comparable call returns the same value and data from both and leaves the same file
    system. -/
theorem implementations_agree (s : FS × History) :
    ((simplefs1History.guard fun s e => Comparable s e.op).Reach s ↔
      (simplefsHistory.guard fun s e => Comparable s e.op).Reach s) ∧
    ((simplefsHistory.guard fun s e => Comparable s e.op).Reach s → ∀ u op, Comparable s op →
      ∃ r fs', Ops.exec u s.1 op = .ok (r, fs') ∧ Ops1.exec u s.1 op = .ok (r, fs')) := by
  refine ⟨comparable_reach, fun hs u op hop => ?_⟩
  obtain ⟨hi, ho⟩ := comparable_inv hs
  obtain ⟨r, fs', hrun⟩ := hi.returns u (hop.disciplined ho)
  exact ⟨r, fs', hrun, (exec_eq hi u hop).trans hrun⟩

/-- Two files are written and one of them is deleted; four bytes of the other, two of each write,
    are read, and it is deleted too. -/
theorem implementations_agree_read : ∃ s fs' fs'',
    (simplefsHistory.guard fun s e => Comparable s e.op).Reach s ∧
    (simplefs1History.guard fun s e => Comparable s e.op).Reach s ∧
    Ops.exec .zero s.1 (.read 0 4) = .ok (⟨0, [120, 120, 121, 121]⟩, fs') ∧
    Ops1.exec .zero s.1 (.read 0 4) = .ok (⟨0, [120, 120, 121, 121]⟩, fs') ∧
    Ops.exec .zero s.1 (.delete nameA) = .ok (⟨0, []⟩, fs'') ∧
    Ops1.exec .zero s.1 (.delete nameA) = .ok (⟨0, []⟩, fs'') := by
  have hrun : (runGuarded (fun s e => decide (Comparable s e.op))
      [.create nameA, .create nameB, .openFile nameA, .openFile nameB, .write 0 (fun _ => 120) 64,
        .write 1 (fun _ => 122) 5, .seek 0 64, .write 0 (fun _ => 121) 10, .delete nameB,
        .close 1, .seek 0 (-2)]).bind
      (fun s => (Ops.exec .zero s.1 (.read 0 4)).toOption.bind fun x =>
        (Ops.exec .zero s.1 (.delete nameA)).toOption.map fun y =>
          (decide (Comparable s (.read 0 4)), decide (Comparable s (.delete nameA)), x.1, y.1)) =
      some (true, true, ⟨0, [120, 120, 121, 121]⟩, ⟨0, []⟩) := by decide +kernel
  obtain ⟨s, hs, hx⟩ := Option.bind_eq_some_iff.mp hrun
  obtain ⟨⟨r, fs'⟩, hread, hy⟩ := Option.bind_eq_some_iff.mp hx
  obtain ⟨⟨r', fs''⟩, hdelete, hfacts⟩ := Option.map_eq_some_iff.mp hy
  simp only [Prod.mk.injEq, decide_eq_true_eq] at hfacts
  obtain ⟨hok, hok', rfl, rfl⟩ := hfacts
  have hreach : (simplefsHistory.guard fun s e => Comparable s e.op).Reach s :=
    runGuarded_reach hs fun s e _ hc => of_decide_eq_true hc
  obtain ⟨hsame, hcalls⟩ := implementations_agree s
  have hread := toOption_eq_some.mp hread
  have hdelete := toOption_eq_some.mp hdelete
  -- the second implementation returns what the first does
  have hagree : ∀ {op r fs'}, Comparable s op → Ops.exec .zero s.1 op = .ok (r, fs') →
      Ops1.exec .zero s.1 op = .ok (r, fs') := by
    intro op r fs' hop hrun
    obtain ⟨r₀, fs₀, h, h1⟩ := hcalls hreach .zero op hop
    rw [h1, ← h, hrun]
  exact ⟨s, fs', fs'', hreach, hsame.mpr hreach, hread, hagree hok hread, hdelete,
    hagree hok' hdelete⟩

end OsCodes.SimpleFS
