/-
  The size of a file.

  `simplefs_write` adds the number of bytes to `file_size`, wherever they go.  That is one past the
  last offset written as long as writes start at the end of the file; a write over old bytes makes
  the file longer than what was put into it, and `simplefs_read` believes the size.

  `Grown` is the invariant of runs that append: the size is where the offsets written end, and the
  file owns the blocks up to there.

  `SizeLaw.wrote_iff` looks at one write: the law survives exactly when it adds nothing or starts
  where the file ends.  Clients that only append therefore keep the law, and with it the promise
  that a read which succeeds stays inside the staging buffer (`file_size_law`); the same three
  bytes written twice at offset 0 break it at once (`file_size_doubled`).
-/
import OsCodes.SimpleFS.Written
import OsCodes.SimpleFS.NameField
import OsCodes.SimpleFS.SeekBounds

namespace OsCodes.SimpleFS

open Bytes

/-! ## The law -/

/-- The size of a file is `z`, one past the last offset in `W`. -/
structure SizeLaw (record : Inode) (W : Nat → Bool) (z : Nat) : Prop where
  fileSize : record.fileSize.toInt = z
  ends : Extent.Ends W z

/-- The law of a file that has its blocks up to the end. -/
def Grown (record : Inode) (W : Nat → Bool) : Prop :=
  ∃ z, SizeLaw record W z ∧ z ≤ 256 ∧
    ∀ c : Fin 4, 64 * c.val < z → record.directBlocks c ≠ -1

/-- A write through a handle on inode `i` that is refused, or ends in 0..256 and then runs out of
    blocks, starts at the end of the file, or adds nothing and keeps block `-1`. -/
def Appends (fs : FS) (h : Fin 20) (i : Fin 8) (buf : Mem) (nbytes : Int32) : Prop :=
  WriteRefused fs h nbytes (fs.disk.inode i) ∨
  ∃ o n : Nat, (fs.fileHandleArray h).offset.toInt = o ∧ nbytes.toInt = n ∧ o + n ≤ 256 ∧
    (fs.disk.freeCount < (emptySlots (fs.disk.inode i).directBlocks o n).length ∨
      (fs.disk.inode i).fileSize.toInt = o ∨ n = 0 ∧ HoleKept fs.disk i o n buf)

/-- The end of a file is at the start of a block or in one that the file owns. -/
theorem Appends.writeKept {fs : FS} {h : Fin 20} {i : Fin 8} {buf : Mem} {nbytes : Int32}
    {W : Written} (ha : Appends fs h i buf nbytes) (hd : Owned fs.disk)
    (hs : EveryFile Grown fs.disk W) : WriteKept fs h i buf nbytes := by
  by_cases hrej : WriteRefused fs h nbytes (fs.disk.inode i)
  · exact .inl hrej
  · obtain ⟨o, n, ho, hn, hend, hcase⟩ := ha.resolve_left hrej
    refine .inr ⟨o, n, ho, hn, hend, ?_⟩
    rcases hcase with hlt | hz | ⟨-, hkept⟩
    · exact .inr (.inr (.inl hlt))
    · obtain ⟨z, hlaw, hz256, hblocks⟩ := hs i (hd.inUse_of_ne fun hst => hrej (.inl hst))
      obtain rfl : z = o := by
        have := hlaw.fileSize
        omega
      by_cases hoff : z % 64 = 0
      · exact .inl hoff
      · exact .inr (.inl ⟨⟨z / 64, by omega⟩, rfl, hblocks _ (by simp only; omega)⟩)
    · exact hkept

/-- Such a write that returns 0 adds nothing or starts at the end. -/
theorem Appends.of_ok {tempBuf : Nat → Mem} {fs fs' : FS} {h : Fin 20} {i : Fin 8} {buf : Mem}
    {nbytes : Int32} (ha : Appends fs h i buf nbytes) (hd : Owned fs.disk) (hi : fs.Bound h i)
    (huse : fs.disk.InUse i) (hrun : Ops.write tempBuf h buf nbytes fs = .ok (0, fs')) :
    nbytes = 0 ∨ (fs.fileHandleArray h).offset = (fs.disk.inode i).fileSize := by
  rcases ha with hrej | ⟨o, n, ho, hn, hend, hlt | hz | ⟨rfl, -⟩⟩
  · rw [write_rejected tempBuf buf hd.formatted hi hrej] at hrun
    cases hrun
  · have hle := write_enough hd.formatted hi huse ho hn hend hrun
    omega
  · exact .inr (Int32.toInt_inj.mp (ho.trans hz.symm))
  · exact .inl (Int32.toInt_inj.mp hn)

/-! ## Every call -/

section Steps

variable {d d' : Disk} {W : Written}

/-- **A write keeps the law** of its file exactly when it adds nothing or starts at the end. -/
theorem SizeLaw.wrote_iff {i : Fin 8} {o n z : Nat} {buf : Mem}
    (hlaw : SizeLaw (d.inode i) (W i) z) (hz256 : z ≤ 256) (hn : n ≤ 256)
    (hw : Wrote d d' i o n buf) :
    (∃ z', SizeLaw (d'.inode i) (Extent.mark (W i) o n) z') ↔ n = 0 ∨ o = z := by
  have hsize : (d'.inode i).fileSize.toInt = (z + n : Nat) := by
    rw [hw.fileSize]
    exact toInt_add_ofInt hlaw.fileSize hz256 hn
  rw [← hlaw.ends.mark_iff]
  constructor
  · rintro ⟨z', hz', hends⟩
    obtain rfl : z' = z + n := by omega
    exact hends
  · exact fun hends => ⟨z + n, hsize, hends⟩

/-- A write that adds nothing or starts at the end makes the file grow. -/
theorem Grown.wrote {i : Fin 8} {o n : Nat} {buf : Mem} (h : Grown (d.inode i) (W i))
    (hw : Wrote d d' i o n buf) (hend : o + n ≤ 256)
    (happ : n = 0 ∨ (d.inode i).fileSize.toInt = o) :
    Grown (d'.inode i) (Extent.mark (W i) o n) := by
  obtain ⟨z, hlaw, hz256, hblocks⟩ := h
  have hz := hlaw.fileSize
  have hoz : n = 0 ∨ o = z := happ.imp_right fun ho => by omega
  have hsize : (d'.inode i).fileSize.toInt = (z + n : Nat) := by
    rw [hw.fileSize]
    exact toInt_add_ofInt hz hz256 (by omega)
  obtain ⟨z', hlaw'⟩ := (hlaw.wrote_iff hz256 (by omega) hw).mpr hoz
  have hz' := hlaw'.fileSize
  refine ⟨z', hlaw', by omega, fun c hc => ?_⟩
  -- below the old end the block is kept, behind it the write has filled the slot
  by_cases hold : 64 * c.val < z
  · rw [hw.filled.keep c (hblocks c hold)]
    exact hblocks c hold
  · exact hw.filled.filled c ⟨by omega, by omega⟩

end Steps

/-! ## Over whole runs -/

/-- A client that creates names of at most 8 characters, seeks to offsets in 0..256, and appends. -/
def Growing (s : (FS × History) × Written) (e : Event) : Prop :=
  match e.op with
  | .create f => f.len ≤ 8
  | .seek h nseek => Landing (s.1.1.fileHandleArray h) nseek
  | .write h buf nbytes => ∃ i, s.1.1.Bound h i ∧ Appends s.1.1 h i buf nbytes
  | _ => True

theorem Growing.aimed {s : (FS × History) × Written} {e : Event} (h : Growing s e) :
    Aimed s.1 e := by
  obtain ⟨op, u, ret⟩ := e
  rintro k nseek rfl
  exact h

/-- Where the sizes are right, such a client is contained. -/
theorem Growing.contained {s : (FS × History) × Written} {e : Event} (h : Growing s e)
    (hd : Owned s.1.1.disk) (hs : EveryFile Grown s.1.1.disk s.2) : Contained s.1 e := by
  obtain ⟨op, u, ret⟩ := e
  rintro k buf nbytes rfl
  obtain ⟨i, hi, happ⟩ := h
  exact ⟨i, hi, happ.writeKept hd hs⟩

/-- **Every call** of such a client keeps the sizes right. -/
theorem grown_step {s : (FS × History) × Written} {e : Event} {fs' : FS}
    (h : EveryFile Grown s.1.1.disk s.2) (hd : Owned s.1.1.disk) (hgrow : Growing s e)
    (hrun : Ops.exec e.uninit s.1.1 e.op = .ok (e.ret, fs')) :
    EveryFile Grown fs'.disk (written s.1 s.2 e) := by
  refine h.step hd (hgrow.contained hd h) hrun ?_ ?_
  · obtain ⟨op, u, ret⟩ := e
    rintro f i rfl rfl -
    have hlen : f.len ≤ 8 := hgrow
    obtain ⟨hsize, -⟩ := exec_create_record hlen hrun
    refine ⟨0, ⟨?_, .empty⟩, by omega, fun c hc => absurd hc (by omega)⟩
    rw [hsize]
    rfl
  · obtain ⟨op, u, ret⟩ := e
    rintro k buf nbytes i o n rfl hval hi huse ho hn hend hwr
    obtain ⟨j, hj, happ⟩ := hgrow
    obtain rfl := bound_unique hi hj
    obtain ⟨hwrite, -⟩ := exec_write hrun
    rw [hval] at hwrite
    refine (h i huse).wrote hwr hend ?_
    rcases happ.of_ok hd hi huse hwrite with h0 | hz
    · left
      rw [h0] at hn
      exact (Int.ofNat_inj.mp hn).symm
    · right
      rw [← hz, ho]

/-- Such a run keeps the disk and its records in order. -/
theorem grown_reach {s : (FS × History) × Written} (h : (simplefsWritten.guard Growing).Reach s) :
    Owned s.1.1.disk ∧ Tracks s.1.1 s.1.2 ∧ EveryFile Grown s.1.1.disk s.2 :=
  EveryFile.reach (fun _ _ hd hsz hgrow => hgrow.contained hd hsz)
    (fun _ _ _ hd hsz hgrow hrun => grown_step hsz hd hgrow hrun) h

/-- **The file size law.**  In every state of such a run the size of every file is one past the
    last offset written, and at most 256; a successful read stays inside the staging buffer exactly
    when offset plus length does not overflow; and one more successful write keeps the law exactly
    when it adds nothing or starts at the end of the file. -/
theorem file_size_law {s : (FS × History) × Written}
    (hs : (simplefsWritten.guard Growing).Reach s) :
    (∀ i, s.1.1.disk.InUse i → ∃ z, SizeLaw (s.1.1.disk.inode i) (s.2 i) z ∧ z ≤ 256) ∧
    (∀ (temp : Int → UInt8) (h : Fin 20) (nbytes : Int32) (data : List UInt8), s.1.2.Live h →
      Ops.read temp h nbytes s.1.1 = .ok (0, data) →
      (Staging (s.1.1.fileHandleArray h).offset.toInt nbytes.toInt ↔
        NoOverflow (s.1.1.fileHandleArray h).offset nbytes)) ∧
    ∀ (u : Uninit) (h : Fin 20) (i : Fin 8) (buf : Mem) (nbytes : Int32) (fs' : FS),
      s.1.1.Bound h i → WriteKept s.1.1 h i buf nbytes →
      Ops.exec u s.1.1 (.write h buf nbytes) = .ok (⟨0, []⟩, fs') →
      ((∀ j, fs'.disk.InUse j → ∃ z, SizeLaw (fs'.disk.inode j)
          (written s.1 s.2 ⟨.write h buf nbytes, u, ⟨0, []⟩⟩ j) z) ↔
        nbytes = 0 ∨ (s.1.1.fileHandleArray h).offset = (s.1.1.disk.inode i).fileSize) := by
  obtain ⟨hd, ht, hsz⟩ := grown_reach hs
  have haim := aimed_reach (hs.forget fun _ _ hgrow => hgrow.aimed)
  refine ⟨?_, ?_, ?_⟩
  · intro i huse
    obtain ⟨z, hlaw, hz256, -⟩ := hsz i huse
    exact ⟨z, hlaw, hz256⟩
  · rintro temp h nbytes data ⟨i, hl⟩ hread
    obtain ⟨h0, h256⟩ := haim h
    obtain ⟨z, hlaw, hz256, -⟩ := hsz i (ht.inUse_of_live hl)
    have hz := hlaw.fileSize
    rw [staging_iff h0 h256]
    rcases read_cases temp nbytes hd (ht.live hl) with ⟨-, hr⟩ | ⟨hacc, -⟩
    · rw [hr] at hread
      cases hread
    · rw [not_or] at hacc
      constructor
      · intro hend
        exact ⟨by omega, by omega⟩
      · intro hover
        have hsum := toInt_add_of_fits hover.1 hover.2
        omega
  · intro u h i buf nbytes fs' hi hk hrun
    obtain ⟨hw, -⟩ := exec_write hrun
    rcases (hk.effect hd hi hw).outcome with ⟨hneg, -⟩ | ⟨-, j, o, n, hj, huse, ho, hn, hend, hwr⟩
    · exact absurd hneg (by decide)
    · obtain rfl := bound_unique hi hj
      obtain ⟨z, hlaw, hz256, -⟩ := hsz i huse
      have hiff := hlaw.wrote_iff hz256 (by omega) hwr
      have hz := hlaw.fileSize
      have hcond : (nbytes = 0 ∨
          (s.1.1.fileHandleArray h).offset = (s.1.1.disk.inode i).fileSize) ↔ n = 0 ∨ o = z := by
        rw [← Int32.toInt_inj, ← Int32.toInt_inj, hn, ho, hz, show (0 : Int32).toInt = 0 from rfl]
        omega
      rw [hcond, ← hiff]
      constructor
      · intro hall
        have hlaw' := hall i (by rw [Disk.InUse, hwr.status]; exact huse)
        rw [written_self hi ho hn] at hlaw'
        exact hlaw'
      · intro hlaw' j huse'
        by_cases hji : j = i
        · rw [hji, written_self hi ho hn]
          exact hlaw'
        · rw [Disk.InUse, hwr.inode_ne j hji] at huse'
          rw [hwr.inode_ne j hji, written_ne hi hji]
          obtain ⟨z', hlawj, -⟩ := hsz j huse'
          exact ⟨z', hlawj⟩

/-- Whether `Growing` allows the call, as a computation: it does if writes start at the end. -/
def grows (s : (FS × History) × Written) (e : Event) : Bool :=
  match e.op with
  | .create f => decide (f.len ≤ 8)
  | .seek h nseek => decide (Landing (s.1.1.fileHandleArray h) nseek)
  | .write h _ nbytes => decide (∃ i, s.1.1.Bound h i ∧
      (s.1.1.fileHandleArray h).offset = (s.1.1.disk.inode i).fileSize ∧
      0 ≤ (s.1.1.fileHandleArray h).offset.toInt ∧ 0 ≤ nbytes.toInt ∧
      (s.1.1.fileHandleArray h).offset.toInt + nbytes.toInt ≤ 256)
  | _ => true

theorem growing_of_grows {s : (FS × History) × Written} {e : Event} (h : grows s e = true) :
    Growing s e := by
  obtain ⟨op, u, ret⟩ := e
  cases op with
  | create f => exact show f.len ≤ 8 from of_decide_eq_true h
  | seek k nseek => exact show Landing _ nseek from of_decide_eq_true h
  | write k buf nbytes =>
    obtain ⟨i, hi, hend, ho, hn, hle⟩ := of_decide_eq_true h
    refine ⟨i, hi, .inr ⟨_, _, (Int.toNat_of_nonneg ho).symm, (Int.toNat_of_nonneg hn).symm, ?_,
      .inr (.inl ?_)⟩⟩
    · omega
    · rw [← hend, Int.toNat_of_nonneg ho]
  | delete | openFile | close | read => trivial

/-- A file of 70 bytes, appended in two pieces; its last 5 are read, and 6 more are written behind
    them. -/
theorem file_size_law_appended :
    ∃ s data fs', (simplefsWritten.guard Growing).Reach s ∧
      (∃ z, SizeLaw (s.1.1.disk.inode 0) (s.2 0) z ∧ z ≤ 256) ∧
      Ops.read (fun _ => 0) 1 5 s.1.1 = .ok (0, data) ∧
      Staging (s.1.1.fileHandleArray 1).offset.toInt 5 ∧
      Ops.exec .zero s.1.1 (.write 0 (fun _ => 122) 6) = .ok (⟨0, []⟩, fs') ∧
      ∃ z, SizeLaw (fs'.disk.inode 0) (written s.1 s.2 ⟨.write 0 (fun _ => 122) 6, .zero, ⟨0, []⟩⟩ 0)
        z := by
  have hrun : (runRecorded written (fun _ _ => false) grows [.create nameA, .openFile nameA,
      .write 0 (fun _ => 120) 60, .seek 0 60, .write 0 (fun _ => 121) 10, .seek 0 10,
      .openFile nameA, .seek 1 65]).bind
      (fun s => (Ops.read (fun _ => 0) 1 5 s.1.1).toOption.bind fun x =>
        (Ops.exec .zero s.1.1 (.write 0 (fun _ => 122) 6)).toOption.map fun y =>
          ([decide (s.1.1.disk.InUse 0), decide (y.2.disk.InUse 0), decide (s.1.2.Live 1),
            decide (NoOverflow (s.1.1.fileHandleArray 1).offset 5), decide (s.1.1.Bound 0 0),
            decide (s.1.1.Starts 0 0 6),
            decide ((s.1.1.fileHandleArray 0).offset = (s.1.1.disk.inode 0).fileSize)], x.1, y.1)) =
      some ([true, true, true, true, true, true, true], 0, ⟨0, []⟩) := by decide +kernel
  obtain ⟨s, hs, hx⟩ := Option.bind_eq_some_iff.mp hrun
  obtain ⟨⟨r, data⟩, hread, hy⟩ := Option.bind_eq_some_iff.mp hx
  obtain ⟨⟨r', fs'⟩, hwrite, hfacts⟩ := Option.map_eq_some_iff.mp hy
  simp only [Prod.mk.injEq, List.cons.injEq, and_true, decide_eq_true_eq] at hfacts
  obtain ⟨⟨huse, huse', hlive, hfits, hbound, hstarts, hend⟩, rfl, rfl⟩ := hfacts
  have hreach : (simplefsWritten.guard Growing).Reach s :=
    runRecorded_reach hs fun s e _ hc => growing_of_grows hc
  have hread := toOption_eq_some.mp hread
  have hwrite := toOption_eq_some.mp hwrite
  obtain ⟨hsize, hreads, hwrites⟩ := file_size_law hreach
  exact ⟨s, data, fs', hreach, hsize 0 huse, hread, (hreads _ 1 5 data hlive hread).mpr hfits, hwrite,
    (hwrites .zero 0 0 _ 6 fs' hbound (hstarts.writeKept _) hwrite).mpr (.inr hend) 0 huse'⟩

/-- Calls through live handles, with seeks to offsets in 0..256. -/
def Steered (s : FS × History) (e : Event) : Prop :=
  match e.op with
  | .seek h nseek => s.2.Live h ∧ Landing (s.1.fileHandleArray h) nseek
  | .read h _ | .write h _ _ => s.2.Live h
  | _ => True

instance (s : FS × History) (e : Event) : Decidable (Steered s e) :=
  match e with
  | ⟨.seek _ _, _, _⟩ => inferInstanceAs (Decidable (_ ∧ _))
  | ⟨.read h _, _, _⟩ | ⟨.write h _ _, _, _⟩ => inferInstanceAs (Decidable (s.2.Live h))
  | ⟨.create _, _, _⟩ | ⟨.delete _, _, _⟩ | ⟨.openFile _, _, _⟩ | ⟨.close _, _, _⟩ =>
    inferInstanceAs (Decidable True)

/-- **Three bytes written twice** at offset 0 make a file of 6. -/
theorem file_size_doubled :
    ¬ ∀ s, (simplefsWritten.guard fun s => Steered s.1).Reach s → ∀ i, s.1.1.disk.InUse i →
      ∃ z, SizeLaw (s.1.1.disk.inode i) (s.2 i) z := by
  intro hlaw
  have hrun : (runRecorded written (fun _ _ => false) (fun s e => decide (Steered s.1 e))
      [.create nameA, .openFile nameA, .write 0 (fun _ => 120) 3, .write 0 (fun _ => 120) 3]).map
      (fun s => ((s.1.1.disk.inode 0).status, (s.1.1.disk.inode 0).fileSize, s.2 0 5)) =
      some (inodeInUse, 6, false) := by decide +kernel
  obtain ⟨s, hs, hfacts⟩ := Option.map_eq_some_iff.mp hrun
  simp only [Prod.mk.injEq] at hfacts
  obtain ⟨huse, hsize, hfive⟩ := hfacts
  have hreach : (simplefsWritten.guard fun s => Steered s.1).Reach s :=
    runRecorded_reach hs fun s e _ hc => of_decide_eq_true hc
  obtain ⟨z, hz, hends⟩ := hlaw s hreach 0 huse
  rw [hsize] at hz
  obtain rfl : z = 6 := Int.ofNat_inj.mp hz.symm
  have hlast := hends.last (by omega)
  rw [hfive] at hlast
  cases hlast

end OsCodes.SimpleFS
