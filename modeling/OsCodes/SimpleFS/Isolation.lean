/-
  Handles and file instances.

  A handle is open on the file that one create made.  `Isolated` says what a read or a write
  through it may return and change: the bytes of that file, and once the file is deleted or the
  handle closed, `-1` and nothing.  The program keeps bare inode numbers in its handles and a
  read does not look at the status of the inode, so this holds only of calls that `Refusing`
  describes: a read stays in the blocks of the file, a write keeps block `-1`, and a call
  through a dead handle fails the checks on whatever record its inode number leads to.

  The law has a side for each kind of handle.  Through a live one, a read returns bytes of its
  file or -1, and a write changes that file only; through a dead one, both return -1 and change
  nothing.  `refusing_read` and `refusing_write_isolated` are the two calls, `handle_isolation`
  all of them in every state of a refusing run, and `handle_isolation_broken` a run in which the
  handle of a deleted file reads the file that has got its inode.
-/
import OsCodes.SimpleFS.Frame

namespace OsCodes.SimpleFS

open Bytes

/-! ## Calls that the checks refuse -/

theorem readInode_neg_one {d : Disk} (h : d.Formatted) :
    readInode d (-1) = .ok (.decode (view d.byte 32)) := by
  have hsize : 32 + 32 ≤ d.size := by
    have : 320 ≤ d.size := h
    omega
  simp only [readInode, Disk.readAt, if_pos (show (-1 : Int) < 8 by omega),
    if_neg (show ¬ 64 + (-1 : Int) * 32 < 0 by omega),
    show (64 + (-1 : Int) * 32).toNat = 32 by decide, if_pos hsize, ok_bind, pure_eq_ok]

/-- The check of `simplefs_read` on the record behind the handle. -/
def ReadRefused (fs : FS) (h : Fin 20) (nbytes : Int32) (record : Inode) : Prop :=
  nbytes.toInt < 0 ∨
    record.fileSize.toInt < ((fs.fileHandleArray h).offset + nbytes).toInt

/-- The checks of `simplefs_write`: the inode is free, the length negative, or the end above 256. -/
def WriteRefused (fs : FS) (h : Fin 20) (nbytes : Int32) (record : Inode) : Prop :=
  record.status = inodeFree ∨ nbytes.toInt < 0 ∨
    256 < ((fs.fileHandleArray h).offset + nbytes).toInt

theorem read_refused (temp : Int → UInt8) {fs : FS} {h : Fin 20} {nbytes : Int32} {record : Inode}
    (hrec : readInode fs.disk (fs.fileHandleArray h).inodeNumber.toInt = .ok record)
    (href : ReadRefused fs h nbytes record) : Ops.read temp h nbytes fs = .ok (-1, []) := by
  rw [ReadRefused] at href
  simp only [Ops.read, hrec, ok_bind, if_pos href, pure_eq_ok]

theorem write_refused (tempBuf : Nat → Mem) {fs : FS} {h : Fin 20} (buf : Mem) {nbytes : Int32}
    {record : Inode}
    (hrec : readInode fs.disk (fs.fileHandleArray h).inodeNumber.toInt = .ok record)
    (href : WriteRefused fs h nbytes record) :
    Ops.write tempBuf h buf nbytes fs = .ok (-1, fs) := by
  simp only [Ops.write, hrec, ok_bind, pure_eq_ok]
  by_cases hst : record.status = inodeFree
  · rw [if_pos hst]
  · rw [if_neg hst, if_pos (href.resolve_left hst)]

/-- Every handle leads to some record. -/
theorem Tracks.record {fs : FS} {g : History} (h : Tracks fs g) (hd : Owned fs.disk)
    (k : Fin 20) :
    ∃ record, readInode fs.disk (fs.fileHandleArray k).inodeNumber.toInt = .ok record := by
  rcases h.bound k with hk | ⟨i, hk⟩
  · refine ⟨.decode (view fs.disk.byte 32), ?_⟩
    rw [hk]
    exact readInode_neg_one hd.formatted
  · refine ⟨fs.disk.inode i, ?_⟩
    rw [hk, toInt_ofInt_fin (by omega)]
    exact readInode_ok hd.formatted i

/-! ## What a handle gives access to -/

/-- A call through a handle and its outcome concern the file that the handle was opened on, and no
    other. -/
structure Isolated (s : FS × History) (op : Op) (r : Ret) (fs' : FS) : Prop where
  /-- through a dead handle `-1`, and nothing changes -/
  dead : ∀ h, ¬ s.2.Live h →
    ((∃ nbytes, op = .read h nbytes) ∨ ∃ buf nbytes, op = .write h buf nbytes) →
    r = ⟨-1, []⟩ ∧ fs' = s.1
  /-- a read changes nothing and delivers bytes of the instance -/
  read : ∀ h nbytes, op = .read h nbytes → fs' = s.1 ∧ (r = ⟨-1, []⟩ ∨
    ∃ i, s.2.LiveAt h i ∧ r = ⟨0, (List.range nbytes.toInt.toNat).map (strncpy fun k =>
      (s.1.disk.fileByte i ((s.1.fileHandleArray h).offset.toInt + k)).getD 0)⟩)
  /-- a write changes the bytes of the instance, to bytes of the buffer and zeros -/
  write : ∀ h buf nbytes i, op = .write h buf nbytes → s.2.LiveAt h i →
    fs'.fileHandleArray = s.1.fileHandleArray ∧ OthersKept s.1.disk fs'.disk i ∧
    ∀ p, fs'.disk.fileByte i p = s.1.disk.fileByte i p ∨ ∃ v, fs'.disk.fileByte i p = some v ∧
      (v = 0 ∨ ∃ k : Nat, (k : Int) < nbytes.toInt ∧ v = buf k)

/-- The read does not copy from where the file has no block: up to the first NUL every byte is
    the file's. -/
def Covered (d : Disk) (i : Fin 8) (o n : Int) : Prop :=
  ∀ k : Nat, (k : Int) < n → (∀ j < k, ∃ v, d.fileByte i (o + j) = some v ∧ v ≠ 0) →
    (d.fileByte i (o + k)).isSome

/-- Calls that keep handles apart: through a live handle a read is refused or covered, a write
    is refused or keeps block `-1`, and through a dead handle both are refused. -/
def Refusing (s : FS × History) (op : Op) : Prop :=
  match op with
  | .read h nbytes =>
    (∀ i, s.2.LiveAt h i → ReadRefused s.1 h nbytes (s.1.disk.inode i) ∨
      Covered s.1.disk i (s.1.fileHandleArray h).offset.toInt nbytes.toInt) ∧
    (¬ s.2.Live h → ∀ record,
      readInode s.1.disk (s.1.fileHandleArray h).inodeNumber.toInt = .ok record →
      ReadRefused s.1 h nbytes record)
  | .write h buf nbytes =>
    (∀ i, s.2.LiveAt h i → WriteKept s.1 h i buf nbytes) ∧
    (¬ s.2.Live h → ∀ record,
      readInode s.1.disk (s.1.fileHandleArray h).inodeNumber.toInt = .ok record →
      WriteRefused s.1 h nbytes record)
  | _ => True

/-- Copying covered bytes from the staging buffer copies bytes of the file. -/
theorem strncpy_covered {d : Disk} {i : Fin 8} {o n : Int} {temp temp' : Int → UInt8}
    (hst : Staged d (d.inode i) (List.finRange 4) temp temp') (hc : Covered d i o n) {k : Nat}
    (hk : (k : Int) < n) :
    strncpy (fun k => temp' (o + k)) k = strncpy (fun k => (d.fileByte i (o + k)).getD 0) k := by
  have hsame : ∀ j v, d.fileByte i (o + j) = some v → temp' (o + j) = v := fun j v hv =>
    hst.fileByte hv
  by_cases hall : ∀ j, j ≤ k → (d.fileByte i (o + (j : Nat))).isSome
  · refine strncpy_congr fun j hj => ?_
    obtain ⟨v, hv⟩ := Option.isSome_iff_exists.mp (hall j hj)
    rw [hsame j v hv, hv, Option.getD_some]
  · -- a NUL of the file comes first, and both copies pad from there
    have hnul : ∃ j, j ≤ k ∧ d.fileByte i (o + (j : Nat)) = some 0 := by
      by_contra hno
      refine hall fun j => ?_
      induction j using Nat.strong_induction_on with
      | _ j ih =>
        intro hj
        refine hc j (by omega) fun l hl => ?_
        obtain ⟨v, hv⟩ := Option.isSome_iff_exists.mp (ih l hl (by omega))
        refine ⟨v, hv, ?_⟩
        rintro rfl
        exact hno ⟨l, by omega, hv⟩
    obtain ⟨j, hj, hzero⟩ := hnul
    unfold strncpy
    rw [if_neg fun h => h j hj (hsame j 0 hzero),
      if_neg fun h => h j hj (by simp only [hzero, Option.getD_some])]

/-- What a refusing write does: as `WriteEffect` says. -/
theorem refusing_write {s : FS × History} {u : Uninit} {h : Fin 20} {buf : Mem} {nbytes : Int32}
    {fs' : FS} {x : Int} (hd : Owned s.1.disk) (ht : Tracks s.1 s.2)
    (he : Refusing s (.write h buf nbytes))
    (hw : Ops.write u.tempBuf h buf nbytes s.1 = .ok (x, fs')) :
    (¬ s.2.Live h → x = -1 ∧ fs' = s.1) ∧ WriteEffect s.1 h buf nbytes x fs' := by
  obtain ⟨hlive, hdead⟩ := he
  by_cases hl : s.2.Live h
  · obtain ⟨i, hl'⟩ := hl
    exact ⟨fun hn => absurd ⟨i, hl'⟩ hn, (hlive i hl').effect hd (ht.live hl') hw⟩
  · obtain ⟨record, hrec⟩ := ht.record hd h
    rw [write_refused u.tempBuf buf hrec (hdead hl record hrec), Except.ok.injEq,
      Prod.mk.injEq] at hw
    obtain ⟨rfl, rfl⟩ := hw
    exact ⟨fun _ => ⟨rfl, rfl⟩, rfl, .inl ⟨rfl, .refl _, rfl, fun _ => .inl rfl⟩⟩

/-- Refusing runs keep the disk in order and the record in step. -/
theorem refusing_reach {s : FS × History}
    (h : (simplefsHistory.guard fun s e => Refusing s e.op).Reach s) :
    Owned s.1.disk ∧ Tracks s.1 s.2 := by
  refine Lts.Reach.invariant (I := fun s => Owned s.1.disk ∧ Tracks s.1 s.2) ?_ ?_ h
  · intro s hs
    have hi := Inv.start hs
    exact ⟨hi.owned, hi.tracks⟩
  · rintro s ⟨op, u, ret⟩ s' ⟨hd, ht⟩ ⟨hc, hrun, hg⟩
    have heff : Effect s.1 op ret s'.1 := by
      refine exec_effect hd ?_ hrun
      rintro h buf nbytes r fs' rfl hw
      exact (refusing_write hd ht hc hw).2
    rw [hg]
    exact ⟨hd.effect heff, Tracks.effect (e := ⟨op, u, ret⟩) ht heff⟩

/-- A refusing read returns, through a live handle or a dead one. -/
theorem refusing_read_returns {s : FS × History} (hd : Owned s.1.disk) (ht : Tracks s.1 s.2)
    (u : Uninit) {h : Fin 20} {nbytes : Int32} (he : Refusing s (.read h nbytes)) :
    ∃ r data, Ops.read u.temp h nbytes s.1 = .ok (r, data) := by
  by_cases hl : s.2.Live h
  · obtain ⟨i, hl⟩ := hl
    rcases read_cases u.temp nbytes hd (ht.live hl) with ⟨-, hr⟩ | ⟨-, temp', -, hr⟩
    · exact ⟨_, _, hr⟩
    · exact ⟨_, _, hr⟩
  · obtain ⟨record, hrec⟩ := ht.record hd h
    exact ⟨_, _, read_refused u.temp hrec (he.2 hl record hrec)⟩

/-- A write that keeps block `-1` returns. -/
theorem WriteKept.returns (tempBuf : Nat → Mem) {fs : FS} {h : Fin 20} {i : Fin 8} {buf : Mem}
    {nbytes : Int32} (hk : WriteKept fs h i buf nbytes) (hd : Owned fs.disk) (hi : fs.Bound h i) :
    ∃ r fs', Ops.write tempBuf h buf nbytes fs = .ok (r, fs') := by
  by_cases hrej : (fs.disk.inode i).status = inodeFree ∨ nbytes.toInt < 0 ∨
      256 < ((fs.fileHandleArray h).offset + nbytes).toInt
  · exact ⟨_, _, write_rejected tempBuf buf hd.formatted hi hrej⟩
  · obtain ⟨o, n, ho, hn, hend, hkept⟩ := hk.resolve_left hrej
    have huse := hd.inUse_of_ne (not_or.mp hrej).1
    obtain ⟨r, d', hrun, -⟩ := write_effect_of_holeKept tempBuf buf hd hi huse ho hn hend hkept
    exact ⟨_, _, hrun⟩

/-- A refusing write returns, through a live handle or a dead one. -/
theorem refusing_write_returns {s : FS × History} (hd : Owned s.1.disk) (ht : Tracks s.1 s.2)
    (u : Uninit) {h : Fin 20} {buf : Mem} {nbytes : Int32}
    (he : Refusing s (.write h buf nbytes)) :
    ∃ r fs', Ops.write u.tempBuf h buf nbytes s.1 = .ok (r, fs') := by
  by_cases hl : s.2.Live h
  · obtain ⟨i, hl⟩ := hl
    exact (he.1 i hl).returns u.tempBuf hd (ht.live hl)
  · obtain ⟨record, hrec⟩ := ht.record hd h
    exact ⟨_, _, write_refused u.tempBuf buf hrec (he.2 hl record hrec)⟩

/-- What a refusing read returns. -/
theorem refusing_read {s : FS × History} {u : Uninit} {h : Fin 20} {nbytes : Int32} {x : Int}
    {data : List UInt8} (hd : Owned s.1.disk) (ht : Tracks s.1 s.2)
    (he : Refusing s (.read h nbytes)) (hread : Ops.read u.temp h nbytes s.1 = .ok (x, data)) :
    Isolated s (.read h nbytes) ⟨x, data⟩ s.1 := by
  obtain ⟨hlive, hdead⟩ := he
  have hdead' : ¬ s.2.Live h → (x, data) = (-1, []) := by
    intro hl
    obtain ⟨record, hrec⟩ := ht.record hd h
    rw [read_refused u.temp hrec (hdead hl record hrec)] at hread
    exact (Except.ok.inj hread).symm
  constructor
  · rintro h' hl (⟨_, hop⟩ | ⟨_, _, hop⟩)
    · cases hop
      obtain ⟨rfl, rfl⟩ := Prod.mk.inj (hdead' hl)
      exact ⟨rfl, rfl⟩
    · cases hop
  · rintro h' nbytes' hop
    cases hop
    refine ⟨rfl, ?_⟩
    by_cases hl : s.2.Live h
    · obtain ⟨i, hl⟩ := hl
      rcases read_cases u.temp nbytes hd (ht.live hl) with ⟨-, hr⟩ | ⟨hacc, temp', hst, hr⟩
      · rw [hr, Except.ok.injEq, Prod.mk.injEq] at hread
        obtain ⟨rfl, rfl⟩ := hread
        exact .inl rfl
      · rw [hr, Except.ok.injEq, Prod.mk.injEq] at hread
        obtain ⟨rfl, rfl⟩ := hread
        refine .inr ⟨i, hl, ?_⟩
        rw [Ret.mk.injEq]
        refine ⟨rfl, List.map_congr_left fun k hk => ?_⟩
        rw [List.mem_range] at hk
        exact strncpy_covered hst ((hlive i hl).resolve_left hacc) (by omega)
    · obtain ⟨rfl, rfl⟩ := Prod.mk.inj (hdead' hl)
      exact .inl rfl
  · intro _ _ _ _ hop
    cases hop

/-- What a refusing write returns and leaves. -/
theorem refusing_write_isolated {s : FS × History} {u : Uninit} {h : Fin 20} {buf : Mem}
    {nbytes : Int32} {x : Int} {fs' : FS} (hd : Owned s.1.disk) (ht : Tracks s.1 s.2)
    (he : Refusing s (.write h buf nbytes))
    (hw : Ops.write u.tempBuf h buf nbytes s.1 = .ok (x, fs')) :
    Isolated s (.write h buf nbytes) ⟨x, []⟩ fs' := by
  obtain ⟨hdead, heff⟩ := refusing_write hd ht he hw
  constructor
  · rintro h' hl (⟨_, hop⟩ | ⟨_, _, hop⟩)
    · cases hop
    · cases hop
      obtain ⟨hval, rfl⟩ := hdead hl
      exact ⟨congrArg (Ret.mk · []) hval, rfl⟩
  · intro _ _ hop
    cases hop
  · rintro h' buf' nbytes' i hop hl
    cases hop
    refine ⟨heff.handles, ?_⟩
    rcases heff.outcome with ⟨-, hleak⟩ | ⟨-, j, o, n, hj, huse, -, hn, -, hwr⟩
    · exact ⟨hleak.othersKept, fun p => .inl (hleak.fileByte i p)⟩
    · obtain rfl := bound_unique (ht.live hl) hj
      refine ⟨hwr.othersKept hd huse, fun p => ?_⟩
      rcases hwr.fileByte_cases hd huse p with hsame | ⟨v, hv, hv0 | ⟨k, hk, hvk⟩⟩
      · exact .inl hsame
      · exact .inr ⟨v, hv, .inl hv0⟩
      · exact .inr ⟨v, hv, .inr ⟨k, by omega, hvk⟩⟩

/-- **Handle isolation.**  In every state of a refusing run, a refusing read or write through any
    handle, live or dead, returns, and concerns only the file that the handle was opened on: through
    a dead handle it returns `-1` and changes nothing. -/
theorem handle_isolation {s : FS × History}
    (hs : (simplefsHistory.guard fun s e => Refusing s e.op).Reach s) (u : Uninit) :
    (∀ h nbytes, Refusing s (.read h nbytes) →
      ∃ r fs', Ops.exec u s.1 (.read h nbytes) = .ok (r, fs') ∧
        Isolated s (.read h nbytes) r fs') ∧
    ∀ h buf nbytes, Refusing s (.write h buf nbytes) →
      ∃ r fs', Ops.exec u s.1 (.write h buf nbytes) = .ok (r, fs') ∧
        Isolated s (.write h buf nbytes) r fs' := by
  obtain ⟨hd, ht⟩ := refusing_reach hs
  constructor
  · intro h nbytes he
    obtain ⟨r, data, hread⟩ := refusing_read_returns hd ht u he
    refine ⟨⟨r, data⟩, s.1, ?_, refusing_read hd ht he hread⟩
    rw [Ops.exec, hread]
    rfl
  · intro h buf nbytes he
    obtain ⟨r, fs', hw⟩ := refusing_write_returns hd ht u he
    refine ⟨⟨r, []⟩, fs', ?_, refusing_write_isolated hd ht he hw⟩
    rw [Ops.exec, hw]
    rfl

/-- Whether `Refusing` allows the call, as a computation: it does if writes go through live handles
    and start in a block. -/
def refuses (s : FS × History) (e : Event) : Bool :=
  match e.op with
  | .read .. => false
  | .write h _ nbytes => decide (s.2.Live h ∧ ∀ i, s.2.LiveAt h i → s.1.Starts h i nbytes)
  | _ => true

theorem refusing_of_refuses {s : FS × History} {e : Event} (h : refuses s e = true) :
    Refusing s e.op := by
  obtain ⟨op, u, ret⟩ := e
  cases op with
  | read => cases h
  | write k buf nbytes =>
    obtain ⟨hlive, hstarts⟩ := of_decide_eq_true h
    exact ⟨fun i hi => (hstarts i hi).writeKept buf, fun hno => absurd hlive hno⟩
  | create | delete | openFile | close | seek => trivial

/-- `a` is written and deleted, and `b` created in its inode and written.  Three bytes are read
    through the handle on `b`, and 10 bytes through the one on `a`, which the size of `b` refuses. -/
theorem handle_isolation_reused : ∃ s fs' fs'',
    (simplefsHistory.guard fun s e => Refusing s e.op).Reach s ∧ s.2.LiveAt 1 0 ∧
      ¬ s.2.Live 0 ∧ s.1.Bound 0 0 ∧
      Ops.exec .zero s.1 (.read 1 3) = .ok (⟨0, [121, 121, 121]⟩, fs') ∧
      Isolated s (.read 1 3) ⟨0, [121, 121, 121]⟩ fs' ∧
      Ops.exec .zero s.1 (.read 0 10) = .ok (⟨-1, []⟩, fs'') ∧
      Isolated s (.read 0 10) ⟨-1, []⟩ fs'' := by
  have hrun : (runGuarded refuses [.create nameA, .openFile nameA, .write 0 (fun _ => 120) 5,
      .delete nameA, .create nameB, .openFile nameB, .write 1 (fun _ => 121) 3]).bind
      (fun s => (Ops.exec .zero s.1 (.read 1 3)).toOption.map fun x =>
        ([decide (s.2.LiveAt 1 0), decide (s.2.Live 0), decide (s.1.Bound 0 0),
          decide (∀ i, s.2.LiveAt 1 i → ∀ k : Fin 3, (s.1.disk.fileByte i
            ((s.1.fileHandleArray 1).offset.toInt + k.val)).isSome)],
          (s.1.fileHandleArray 0).offset, (s.1.disk.inode 0).fileSize, x.1)) =
      some ([true, false, true, true], 0, 3, ⟨0, [121, 121, 121]⟩) := by decide +kernel
  obtain ⟨s, hs, hx⟩ := Option.bind_eq_some_iff.mp hrun
  obtain ⟨⟨ret, fs₁⟩, hread, hfacts⟩ := Option.map_eq_some_iff.mp hx
  simp only [Prod.mk.injEq, List.cons.injEq, and_true, decide_eq_true_eq, decide_eq_false_iff_not]
    at hfacts
  obtain ⟨⟨hlive, hdead, hbound, hcovered⟩, hoff, hsize, rfl⟩ := hfacts
  have hreach : (simplefsHistory.guard fun s e => Refusing s e.op).Reach s :=
    runGuarded_reach hs fun s e _ hc => refusing_of_refuses hc
  have hb : Refusing s (.read 1 3) :=
    ⟨fun i hi => .inr fun k hk _ => hcovered i hi ⟨k, Int.ofNat_lt.mp hk⟩,
      fun hno => absurd ⟨0, hlive⟩ hno⟩
  have ha : Refusing s (.read 0 10) := by
    refine ⟨fun i hi => absurd ⟨i, hi⟩ hdead, fun _ record hrec => .inr ?_⟩
    rw [hbound, toInt_ofInt_fin (by omega),
      readInode_ok (refusing_reach hreach).1.formatted 0, Except.ok.injEq] at hrec
    rw [← hrec, hsize, hoff]
    decide
  obtain ⟨r, fs', hexec, hiso⟩ := (handle_isolation hreach .zero).1 1 3 hb
  obtain ⟨r', fs'', hexec', hiso'⟩ := (handle_isolation hreach .zero).1 0 10 ha
  obtain rfl : r = ⟨0, [121, 121, 121]⟩ :=
    congrArg Prod.fst (Except.ok.inj (hexec.symm.trans (toOption_eq_some.mp hread)))
  obtain rfl : r' = ⟨-1, []⟩ := (hiso'.dead 0 hdead (.inl ⟨10, rfl⟩)).1
  exact ⟨s, fs', fs'', hreach, hlive, hdead, hbound, hexec, hiso, hexec', hiso'⟩

/-- `a` is created, opened and deleted; `b` is created in the same inode and gets one byte.
    The handle on `a` reads it. -/
theorem handle_isolation_broken :
    ¬ ∀ s, simplefsHistory.Reach s → ∀ (u : Uninit) (op : Op) (ret : Ret) (fs' : FS),
      Ops.exec u s.1 op = .ok (ret, fs') → Isolated s op ret fs' := by
  intro hall
  have hrun : (runFormatted [.create nameA, .openFile nameA, .delete nameA, .create nameB,
      .openFile nameB, .write 1 (fun _ => 88) 1]).bind
      (fun s => (Ops.exec .zero s.1 (.read 0 1)).toOption.map fun x =>
        (s.2.slot 0, (List.finRange 8).map s.2.inst, x.1)) =
      some (some 0, [some 1, none, none, none, none, none, none, none], ⟨0, [88]⟩) := by
    decide +kernel
  obtain ⟨s, hs, hx⟩ := Option.bind_eq_some_iff.mp hrun
  obtain ⟨⟨ret, fs'⟩, hread, hfacts⟩ := Option.map_eq_some_iff.mp hx
  simp only [Prod.mk.injEq] at hfacts
  obtain ⟨hslot, hinst, rfl⟩ := hfacts
  have hdead : ¬ s.2.Live 0 := by
    rintro ⟨i, k, hk, hi⟩
    rw [hslot, Option.some.injEq] at hk
    have hmem : some k ∈ (List.finRange 8).map s.2.inst :=
      List.mem_map.mpr ⟨i, List.mem_finRange i, hi⟩
    rw [hinst, ← hk] at hmem
    exact absurd hmem (by decide)
  have hguard : (simplefsHistory.guard fun _ _ => True).Reach s :=
    runFormatted_reach hs fun _ _ _ => trivial
  have hi := hall s hguard.of_guard .zero (.read 0 1) ⟨0, [88]⟩ fs' (toOption_eq_some.mp hread)
  exact absurd (hi.dead 0 hdead (.inl ⟨1, rfl⟩)).1 (by decide)

end OsCodes.SimpleFS
