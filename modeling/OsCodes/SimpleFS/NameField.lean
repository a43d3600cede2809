/-
  Names that fill the name field.

  The field of an inode has 8 bytes, and the 8 characters of a longest name leave no room for the
  NUL: `strcpy` puts it into the first byte of `file_size`, where `strcmp` looks for it.  So the
  file is under its name while the size is a multiple of 256, and a name of up to 7 characters is
  there for good (`strcmpEq_field`).

  `filed` records which file every name was given to.  `Filed` is the invariant: the search loops
  find exactly what the record says.

  1. `Inode.strcmpEq_field` says when `strcmp` takes a record for a name: the field spells the
     name, and for one of 8 characters the first byte of the size is zero;
  2. `Filed.lookup_eq`: while the record and the disk agree, the two search loops find what the
     record says, and nothing else;
  3. `Filed.wrote_iff`: a write keeps that exactly when it leaves the NUL, so when the name is
     shorter or the new size is a multiple of 256 (`KeepsNul`);
  4. `name_stable` is the law over runs whose writes have kept it, with both directions for the
     next write; `name_lost` is one byte written to a file with a name of 8 characters.
-/
import OsCodes.SimpleFS.WriteFail

namespace OsCodes.SimpleFS

open Bytes

/-! ## The byte behind the field -/

/-- The first byte of an `int` is zero in multiples of 256. -/
theorem le32_eq_zero {v : Int32} : le32 v 0 = 0 ↔ v.toInt % 256 = 0 := by
  have hbyte : (le32 v 0).toNat = v.toBitVec.toNat % 256 := by
    simp [le32, BitVec.extractLsb'_toNat]
  have hint : v.toInt = v.toBitVec.toInt := rfl
  rw [← UInt8.toNat_inj, hbyte, hint, BitVec.toInt_eq_toNat_cond]
  have : (0 : UInt8).toNat = 0 := rfl
  split <;> omega

/-- Byte 8 of the name is the first byte of the size. -/
theorem Inode.nameMem_eight (s : Inode) : s.nameMem 8 = le32 s.fileSize 0 := by
  simp only [nameMem, view_apply, encode]
  rfl

/-- Whether a record is under a name of at most 8 characters: the field spells it, and the NUL of
    a name of 8 is the first byte of the size. -/
theorem Inode.strcmpEq_field {s : Inode} {f : CStr} (hf : f.len ≤ 8) :
    strcmpEq s.nameMem f = true ↔ (∀ k : Fin 8, k.val ≤ f.len → s.name k = f.mem k) ∧
      (f.len = 8 → s.fileSize.toInt % 256 = 0) := by
  rw [strcmpEq_iff]
  constructor
  · intro h
    constructor
    · intro k hk
      rw [← h k hk, nameMem_lt k.isLt]
    · intro h8
      have hnul := h 8 (by omega)
      rw [nameMem_eight, ← h8, CStr.mem_len] at hnul
      exact le32_eq_zero.mp hnul
  · rintro ⟨hname, hsize⟩ k hk
    by_cases hk8 : k < 8
    · rw [nameMem_lt hk8]
      exact hname ⟨k, hk8⟩ hk
    · obtain rfl : k = 8 := by omega
      have h8 : f.len = 8 := by omega
      rw [nameMem_eight, le32_eq_zero.mpr (hsize h8), ← h8, CStr.mem_len]

/-- `strcpy` of a name of at most 8 characters into a record of size 0. -/
theorem Inode.strcpyName_eight {inode t : Inode} {f : CStr} (hf : f.len ≤ 8)
    (h0 : inode.fileSize = 0) (hcpy : inode.strcpyName f = .ok t) :
    t.fileSize = 0 ∧ ∀ k : Fin 8, k.val ≤ f.len → t.name k = f.mem k := by
  obtain ⟨t', hcpy', -, -, hname⟩ := inode.strcpyName_ok (s := f) (by omega)
  obtain rfl : t' = t := Except.ok.inj (hcpy'.symm.trans hcpy)
  refine ⟨?_, hname⟩
  rw [strcpyName, if_pos (by omega)] at hcpy
  have hback : get32 inode.encode 12 = inode.fileSize :=
    congrArg Inode.fileSize (Inode.decode_encode inode)
  rw [← Except.ok.inj hcpy, ← h0, ← hback]
  refine get32_congr fun k hk => ?_
  by_cases hin : 12 + k < 4 + (f.len + 1)
  · -- the NUL lands on a byte that is zero
    have h8 : f.len = 8 := by omega
    obtain rfl : k = 0 := by omega
    have hzero : inode.encode 12 = 0 := by
      have hle : le32 inode.fileSize 0 = inode.encode 12 := by
        rw [← hback]
        exact le32_get32 _ _ (by omega)
      rw [← hle, h0]
      rfl
    rw [blit_in (by omega), Nat.add_zero, hzero, show 12 - 4 = f.len by omega, CStr.mem_len]
  · rw [blit_out (by omega)]

/-- What `simplefs_create` puts into the record of a file with a name of at most 8 characters. -/
theorem create_record {tempBuf : Mem} {f : CStr} {fs fs' : FS} {i : Fin 8} (hf : f.len ≤ 8)
    (hrun : Ops.create tempBuf f fs = .ok (some i, fs')) :
    (fs'.disk.inode i).fileSize = 0 ∧ strcmpEq (fs'.disk.inode i).nameMem f = true := by
  rw [Ops.create, bind_eq_ok] at hrun
  obtain ⟨⟨found, last⟩, -, hrun⟩ := hrun
  cases found with
  | some j => cases hrun
  | none =>
    simp only [Option.isSome_none, Bool.false_eq_true, if_false, bind_eq_ok] at hrun
    obtain ⟨⟨r, d⟩, -, hrun⟩ := hrun
    cases r with
    | none => cases hrun
    | some j =>
      simp only [bind_eq_ok] at hrun
      obtain ⟨t, hcpy, d', hwrite, hrun⟩ := hrun
      rw [writeInode_ok, Except.ok.injEq] at hwrite
      simp only [pure_eq_ok, Except.ok.injEq, Prod.mk.injEq, Option.some.injEq] at hrun
      obtain ⟨rfl, rfl⟩ := hrun
      obtain ⟨h0, hname⟩ := Inode.strcpyName_eight hf rfl hcpy
      rw [← hwrite, Disk.inode_setInode_self, Inode.strcmpEq_field hf]
      refine ⟨h0, hname, fun _ => ?_⟩
      rw [h0]
      rfl

theorem exec_create_record {u : Uninit} {f : CStr} {fs fs' : FS} {i : Fin 8} (hf : f.len ≤ 8)
    (hrun : Ops.exec u fs (.create f) = .ok (⟨i.val, []⟩, fs')) :
    (fs'.disk.inode i).fileSize = 0 ∧ strcmpEq (fs'.disk.inode i).nameMem f = true := by
  rw [Ops.exec, bind_eq_ok] at hrun
  obtain ⟨⟨r, fs''⟩, hcreate, hrun⟩ := hrun
  simp only [pure_eq_ok, Except.ok.injEq, Prod.mk.injEq] at hrun
  obtain ⟨hr, rfl⟩ := hrun
  have hval := congrArg Ret.val hr
  have hri : r = some i := by
    cases r with
    | none =>
      simp only [Ret.ofIndex, Option.elim_none] at hval
      omega
    | some j =>
      simp only [Ret.ofIndex, Option.elim_some] at hval
      exact congrArg some (Fin.ext (by omega))
  rw [hri] at hcreate
  exact create_record hf hcreate

/-! ## Which file a name was given to -/

/-- The files that were created under each name and not deleted since. -/
abbrev Names := CStr → Option (Fin 8)

/-- The record after a call. -/
def filed (_ : FS × History) (names : Names) (e : Event) : Names :=
  match e.op with
  | .create f =>
    if 0 ≤ e.ret.val then
      Function.update names f ((List.finRange 8).find? fun i => (i.val : Int) = e.ret.val)
    else names
  | .delete f => Function.update names f none
  | _ => names

/-- SimpleFS with the record of its names. -/
def simplefsNames : Lts ((FS × History) × Names) Event :=
  simplefsHistory.withGhost (fun _ => none) filed

/-- A create that returns `i` gives the name to inode `i`. -/
theorem filed_created {s : FS × History} {names : Names} {f : CStr} {u : Uninit} {i : Fin 8} :
    filed s names ⟨.create f, u, ⟨i.val, []⟩⟩ = Function.update names f (some i) := by
  have hfind : ((List.finRange 8).find? fun j => decide ((j.val : Int) = i.val)) = some i := by
    revert i
    decide
  simp only [filed, if_pos (show (0 : Int) ≤ i.val by omega), hfind]

/-- The record agrees with the disk: the inode of a name spells it, and every inode in use has a
    name. -/
structure Filed (d : Disk) (names : Names) : Prop where
  spelled : ∀ {f i}, names f = some i →
    f.len ≤ 8 ∧ d.InUse i ∧ strcmpEq (d.inode i).nameMem f = true
  found : ∀ i, d.InUse i → ∃ f, names f = some i

namespace Filed

variable {d d' : Disk} {names : Names}

/-- **The search loops find what the record says.** -/
theorem lookup_eq (h : Filed d names) (f : CStr) : d.lookup f = names f := by
  -- an inode under `f` has `f` in the record, since it spells no other name
  have hback : ∀ i, d.lookup f = some i → names f = some i := by
    intro i hl
    obtain ⟨huse, hf⟩ := Inode.isFile_iff.mp (Disk.lookup_some hl)
    obtain ⟨g, hg⟩ := h.found i huse
    obtain ⟨-, -, hgi⟩ := h.spelled hg
    rw [strcmpEq_unique hf hgi]
    exact hg
  cases hl : d.lookup f with
  | some i => exact (hback i hl).symm
  | none =>
    cases hn : names f with
    | none => rfl
    | some i =>
      obtain ⟨-, huse, hf⟩ := h.spelled hn
      have hno := Disk.lookup_eq_none.mp hl i
      rw [Inode.isFile_iff.mpr ⟨huse, hf⟩] at hno
      cases hno

/-- Calls that leave the statuses and what the records of files spell. -/
theorem unmoved (h : Filed d names) (hst : ∀ i, (d'.inode i).status = (d.inode i).status)
    (hname : ∀ f i, names f = some i → strcmpEq (d'.inode i).nameMem f = true) :
    Filed d' names := by
  constructor
  · intro f i hf
    obtain ⟨hlen, huse, -⟩ := h.spelled hf
    exact ⟨hlen, (hst i).trans huse, hname f i hf⟩
  · intro i huse
    exact h.found i ((hst i).symm.trans huse)

theorem created (h : Filed d names) {tempBuf : Mem} {i : Fin 8} {new : Inode} {f : CStr}
    (hf : f.len ≤ 8) (hl : d.lookup f = none) (hidle : ¬ d.InUse i)
    (hst : new.status = inodeInUse) (hname : strcmpEq new.nameMem f = true) :
    Filed (d.created tempBuf i new) (Function.update names f (some i)) := by
  have hself : (d.created tempBuf i new).inode i = new := Disk.inode_setInode_self ..
  have hother : ∀ j, j ≠ i → (d.created tempBuf i new).inode j = d.inode j := by
    intro j hj
    rw [Disk.created, Disk.inode_setInode_ne _ _ _ hj, Disk.inode_writeSuperBlock]
  constructor
  · intro g j hg
    by_cases hgf : g = f
    · subst hgf
      rw [Function.update_self, Option.some.injEq] at hg
      subst hg
      rw [Disk.InUse, hself]
      exact ⟨hf, hst, hname⟩
    · rw [Function.update_of_ne hgf] at hg
      obtain ⟨hlen, huse, hgj⟩ := h.spelled hg
      have hj : j ≠ i := fun heq => hidle (heq ▸ huse)
      rw [Disk.InUse, hother j hj]
      exact ⟨hlen, huse, hgj⟩
  · intro j huse
    by_cases hj : j = i
    · exact ⟨f, by rw [hj, Function.update_self]⟩
    · rw [Disk.InUse, hother j hj] at huse
      obtain ⟨g, hg⟩ := h.found j huse
      refine ⟨g, ?_⟩
      rw [Function.update_of_ne, hg]
      rintro rfl
      rw [← h.lookup_eq, hl] at hg
      cases hg

theorem deleted (h : Filed d names) {i : Fin 8} {f : CStr} (hl : d.lookup f = some i)
    (hdel : Deleted d d' i) : Filed d' (Function.update names f none) := by
  have hfi : names f = some i := by rw [← h.lookup_eq, hl]
  constructor
  · intro g j hg
    by_cases hgf : g = f
    · rw [hgf, Function.update_self] at hg
      cases hg
    · rw [Function.update_of_ne hgf] at hg
      obtain ⟨hlen, huse, hgj⟩ := h.spelled hg
      -- the deleted inode has no second name
      have hj : j ≠ i := by
        rintro rfl
        exact hgf (strcmpEq_unique hgj (h.spelled hfi).2.2)
      rw [Disk.InUse, hdel.inode_ne j hj]
      exact ⟨hlen, huse, hgj⟩
  · intro j huse
    have hj : j ≠ i := by
      rintro rfl
      rw [Disk.InUse, hdel.status] at huse
      exact absurd huse (by decide)
    rw [Disk.InUse, hdel.inode_ne j hj] at huse
    obtain ⟨g, hg⟩ := h.found j huse
    refine ⟨g, ?_⟩
    rw [Function.update_of_ne, hg]
    rintro rfl
    rw [hfi, Option.some.injEq] at hg
    exact hj hg.symm

end Filed

/-! ## Writes -/

/-- A write of `nbytes` leaves the NUL behind the name of this record. -/
def KeepsNul (record : Inode) (nbytes : Int32) : Prop :=
  (∃ k, record.name k = 0) ∨ (record.fileSize + nbytes).toInt % 256 = 0

instance (record : Inode) (nbytes : Int32) : Decidable (KeepsNul record nbytes) :=
  inferInstanceAs (Decidable (_ ∨ _))

/-- **A write** to a file keeps the names in order exactly when it keeps the NUL. -/
theorem Filed.wrote_iff {d d' : Disk} {names : Names} (h : Filed d names) {i : Fin 8}
    (huse : d.InUse i) {o n : Nat} {buf : Mem} (hw : Wrote d d' i o n buf) {nbytes : Int32}
    (hn : nbytes.toInt = n) : Filed d' names ↔ KeepsNul (d.inode i) nbytes := by
  have hsize : (d'.inode i).fileSize = (d.inode i).fileSize + nbytes := by
    rw [hw.fileSize, ← hn]
    congr 1
    exact Int32.ofInt_toInt nbytes
  constructor
  · intro h'
    obtain ⟨f, hf⟩ := h.found i huse
    obtain ⟨hlen, -, hfi⟩ := h'.spelled hf
    obtain ⟨hname, h8⟩ := (Inode.strcmpEq_field hlen).mp hfi
    by_cases hlen8 : f.len = 8
    · right
      rw [← hsize]
      exact h8 hlen8
    · -- a shorter name has its NUL in the field
      refine .inl ⟨⟨f.len, by omega⟩, ?_⟩
      rw [← hw.name, hname ⟨f.len, by omega⟩ (Nat.le_refl _)]
      exact CStr.mem_len f
  · intro hkeep
    refine h.unmoved (fun j => ?_) fun f j hf => ?_
    · by_cases hj : j = i
      · rw [hj, hw.status]
      · rw [hw.inode_ne j hj]
    · obtain ⟨hlen, -, hfj⟩ := h.spelled hf
      by_cases hj : j = i
      · subst hj
        obtain ⟨hname, -⟩ := (Inode.strcmpEq_field hlen).mp hfj
        rw [Inode.strcmpEq_field hlen, hw.name]
        refine ⟨hname, fun h8 => ?_⟩
        rw [hsize]
        refine hkeep.resolve_left ?_
        rintro ⟨k, hk⟩
        rw [hname k (by omega)] at hk
        exact CStr.mem_ne_zero (by omega) hk
      · rw [hw.inode_ne j hj]
        exact hfj

/-! ## The calls that go by name -/

/-- A name that is there is refused. -/
theorem create_refused (tempBuf : Mem) {fs : FS} (hd : fs.disk.Formatted) {f : CStr}
    (hl : (fs.disk.lookup f).isSome = true) : Ops.create tempBuf f fs = .ok (none, fs) := by
  obtain ⟨last, hscan, -⟩ := scanInodes_lookup hd f .unset
  simp only [Ops.create, hscan, ok_bind, hl, if_true, pure_eq_ok]

theorem FS.bound_setHandle (fs : FS) (k : Fin 20) (i : Fin 8) (o : Int32) :
    (fs.setHandle k { offset := o, inodeNumber := Int32.ofInt i.val }).Bound k i := by
  rw [FS.Bound, FS.setHandle_self]

/-- `simplefs_open` of the name resolves to inode `i`, whatever handles are open, and
    `simplefs_create` of it returns -1. -/
structure Resolves (fs : FS) (f : CStr) (i : Fin 8) : Prop where
  opens : ∀ fs₁ : FS, fs₁.disk = fs.disk → (∃ k, (fs₁.fileHandleArray k).inodeNumber = -1) →
    ∃ k fs', Ops.openFile f fs₁ = .ok (some k, fs') ∧ fs'.Bound k i
  refused : ∀ tempBuf, Ops.create tempBuf f fs = .ok (none, fs)

theorem resolves_iff {fs : FS} (hd : fs.disk.Formatted) {f : CStr} {i : Fin 8} :
    Resolves fs f i ↔ fs.disk.lookup f = some i := by
  constructor
  · intro h
    -- open it where no handle is in use
    obtain ⟨fs₁, hdisk, hfree⟩ : ∃ fs₁ : FS, fs₁.disk = fs.disk ∧
        (fs₁.fileHandleArray 0).inodeNumber = -1 :=
      ⟨{ fs with fileHandleArray := fun _ => { offset := 0, inodeNumber := -1 } }, rfl, rfl⟩
    obtain ⟨k, fs', hopen, hi⟩ := h.opens fs₁ hdisk ⟨0, hfree⟩
    rw [← hdisk] at hd ⊢
    rcases openFile_cases f hd with ⟨hno, -⟩ | ⟨j, k', hyes, hl, -⟩
    · rw [hno] at hopen
      cases hopen
    · rw [hyes, Except.ok.injEq, Prod.mk.injEq, Option.some.injEq] at hopen
      obtain ⟨rfl, rfl⟩ := hopen
      rw [hl, bound_unique hi (FS.bound_setHandle _ k' j 0)]
  · intro hl
    constructor
    · intro fs₁ hdisk hfree
      rw [← hdisk] at hd hl
      rcases openFile_cases f hd with ⟨-, hno | hno⟩ | ⟨j, k, hyes, hj, -⟩
      · rw [hl] at hno
        cases hno
      · obtain ⟨k, hk⟩ := hfree
        exact absurd hk (hno k)
      · obtain rfl : i = j := Option.some.inj (hl.symm.trans hj)
        exact ⟨k, _, hyes, FS.bound_setHandle fs₁ k i 0⟩
    · intro tempBuf
      exact create_refused tempBuf hd (by rw [hl]; rfl)

/-! ## Over whole runs -/

/-- A contained client that creates names of at most 8 characters, and whose successful writes
    keep the NUL behind the name. -/
def NameKept (s : (FS × History) × Names) (e : Event) : Prop :=
  Contained s.1 e ∧
  match e.op with
  | .create f => f.len ≤ 8
  | .write h _ nbytes => e.ret.val = 0 → ∀ i, s.1.1.Bound h i →
    KeepsNul (s.1.1.disk.inode i) nbytes
  | _ => True

/-- **Every call** of such a client keeps the record in step with the disk. -/
theorem Filed.step {s : (FS × History) × Names} {e : Event} {fs' : FS} (h : Filed s.1.1.disk s.2)
    (hd : Owned s.1.1.disk) (hkept : NameKept s e)
    (hrun : Ops.exec e.uninit s.1.1 e.op = .ok (e.ret, fs')) :
    Filed fs'.disk (filed s.1 s.2 e) := by
  have heff := contained_effect hd hkept.1 hrun
  obtain ⟨op, u, ret⟩ := e
  cases heff with
  | @createRefused f =>
    have hneg : ¬ (0 : Int) ≤ -1 := by decide
    simp only [filed, if_neg hneg]
    exact h
  | @created f i new tempBuf hl hfree hnew =>
    have hlen : f.len ≤ 8 := hkept.2
    obtain ⟨-, hname⟩ := exec_create_record hlen hrun
    simp only [Disk.created, Disk.inode_setInode_self] at hname
    have hidle : ¬ s.1.1.disk.InUse i := by
      intro huse
      rw [hd.flag_of_inUse huse] at hfree
      exact absurd hfree (by decide)
    rw [filed_created]
    exact h.created hlen hl hidle hnew.status hname
  | @deleteNone f hl =>
    have hsame : filed s.1 s.2 ⟨.delete f, u, ⟨0, []⟩⟩ = s.2 := by
      funext g
      by_cases hg : g = f
      · rw [hg, ← h.lookup_eq f, hl]
        exact Function.update_self ..
      · exact Function.update_of_ne hg ..
    rw [hsame]
    exact h
  | deleted hl hdel => exact h.deleted hl hdel
  | openRefused | opened | closed | sought | read => exact h
  | @write k buf nbytes r fs' hw =>
    rcases hw.outcome with ⟨-, hleak⟩ | ⟨rfl, i, o, n, hi, huse, -, hn, -, hwr⟩
    · refine h.unmoved (fun j => by rw [hleak.sbOnly.inode]) fun f j hf => ?_
      rw [hleak.sbOnly.inode]
      exact (h.spelled hf).2.2
    · exact (h.wrote_iff huse hwr hn).mpr (hkept.2 rfl i hi)

theorem named_reach {s : (FS × History) × Names} (h : (simplefsNames.guard NameKept).Reach s) :
    Owned s.1.1.disk ∧ Filed s.1.1.disk s.2 := by
  refine Lts.Reach.invariant (I := fun s => Owned s.1.1.disk ∧ Filed s.1.1.disk s.2) ?_ ?_ h
  · rintro s ⟨hs, hnames⟩
    have hfresh := start_fresh hs
    refine ⟨hfresh.owned, ⟨fun hf => ?_, fun i huse => ?_⟩⟩
    · rw [hnames] at hf
      cases hf
    · rw [Disk.InUse, hfresh.status] at huse
      exact absurd huse (by decide)
  · rintro s e s' ⟨hd, hf⟩ ⟨hkept, ⟨hrun, -⟩, hnames⟩
    rw [hnames]
    exact ⟨hd.effect (contained_effect hd hkept.1 hrun), hf.step hd hkept hrun⟩

/-- **Name stability.**  In every state of such a run, `simplefs_open` and `simplefs_create` find
    each file under the name it was created with; and after one more successful write to a file
    they still do exactly when the write keeps the NUL behind the file's name. -/
theorem name_stable {s : (FS × History) × Names} (hs : (simplefsNames.guard NameKept).Reach s) :
    (∀ f i, s.2 f = some i → Resolves s.1.1 f i) ∧
    ∀ (tempBuf : Nat → Mem) (h : Fin 20) (i : Fin 8) (buf : Mem) (nbytes : Int32) (fs' : FS),
      s.1.1.Bound h i → WriteKept s.1.1 h i buf nbytes →
      Ops.write tempBuf h buf nbytes s.1.1 = .ok (0, fs') →
      ((∀ f j, s.2 f = some j → Resolves fs' f j) ↔ KeepsNul (s.1.1.disk.inode i) nbytes) := by
  obtain ⟨hd, hf⟩ := named_reach hs
  constructor
  · intro f i hfi
    rw [resolves_iff hd.formatted, hf.lookup_eq]
    exact hfi
  · intro tempBuf h i buf nbytes fs' hi hk hw
    rcases (hk.effect hd hi hw).outcome with ⟨hneg, -⟩ | ⟨-, j, o, n, hj, huse, -, hn, -, hwr⟩
    · exact absurd hneg (by decide)
    · obtain rfl := bound_unique hi hj
      have hd' := hd.wrote huse hwr
      rw [← hf.wrote_iff huse hwr hn]
      constructor
      · intro hall
        have hback : ∀ f j, s.2 f = some j → (fs'.disk.inode j).isFile f = true := fun f j hfj =>
          Disk.lookup_some ((resolves_iff hd'.formatted).mp (hall f j hfj))
        refine hf.unmoved (fun j => ?_) fun f j hfj => (Inode.isFile_iff.mp (hback f j hfj)).2
        by_cases hji : j = i
        · rw [hji, hwr.status]
        · rw [hwr.inode_ne j hji]
      · intro hf' f j hfj
        rw [resolves_iff hd'.formatted, hf'.lookup_eq]
        exact hfj

/-- `"abcdefgh"`. -/
def nameLong : CStr := ⟨[97, 98, 99, 100, 101, 102, 103, 104], by decide⟩

/-- Whether `NameKept` allows the call, as a computation: it does if writes start in a block. -/
def keepsNames (s : (FS × History) × Names) (e : Event) : Bool :=
  startsWrite s.1 e && match e.op with
  | .create f => decide (f.len ≤ 8)
  | .write h _ nbytes => decide (∀ i, s.1.1.Bound h i → KeepsNul (s.1.1.disk.inode i) nbytes)
  | _ => true

theorem nameKept_of_keepsNames {s : (FS × History) × Names} {e : Event}
    (h : keepsNames s e = true) : NameKept s e := by
  obtain ⟨hstarts, hnames⟩ := Bool.and_eq_true_iff.mp h
  refine ⟨contained_of_startsWrite hstarts, ?_⟩
  obtain ⟨op, u, ret⟩ := e
  cases op with
  | create f => exact of_decide_eq_true hnames
  | write h buf nbytes => exact fun _ => of_decide_eq_true hnames
  | delete | openFile | close | seek | read => trivial

/-- A name of 8 characters, with 256 bytes written to its file twice, and `"a"` with 5 bytes. -/
theorem name_stable_written :
    ∃ s fs', (simplefsNames.guard NameKept).Reach s ∧ Resolves s.1.1 nameLong 0 ∧
      Resolves s.1.1 nameA 1 ∧ Ops.write (fun _ _ => 0) 0 (fun _ => 122) 256 s.1.1 = .ok (0, fs') ∧
      Resolves fs' nameLong 0 ∧ Resolves fs' nameA 1 := by
  have hrun : (runRecorded filed (fun _ => none) keepsNames [.create nameLong, .openFile nameLong,
      .write 0 (fun _ => 120) 256, .create nameA, .openFile nameA, .write 1 (fun _ => 121) 5]).bind
      (fun s => (Ops.write (fun _ _ => 0) 0 (fun _ => 122) 256 s.1.1).toOption.map fun x =>
        (s.2 nameLong, s.2 nameA, decide (s.1.1.Bound 0 0), decide (s.1.1.Starts 0 0 256),
          decide (KeepsNul (s.1.1.disk.inode 0) 256), x.1)) =
      some (some 0, some 1, true, true, true, 0) := by decide +kernel
  obtain ⟨s, hs, hx⟩ := Option.bind_eq_some_iff.mp hrun
  obtain ⟨⟨r, fs'⟩, hw, hfacts⟩ := Option.map_eq_some_iff.mp hx
  simp only [Prod.mk.injEq, decide_eq_true_eq] at hfacts
  obtain ⟨hlong, ha, hbound, hstarts, hnul, rfl⟩ := hfacts
  have hreach : (simplefsNames.guard NameKept).Reach s :=
    runRecorded_reach hs fun s e _ hc => nameKept_of_keepsNames hc
  have hwrite := toOption_eq_some.mp hw
  obtain ⟨hfound, hkeeps⟩ := name_stable hreach
  have hafter := (hkeeps _ 0 0 _ 256 fs' hbound (hstarts.writeKept _) hwrite).mpr hnul
  exact ⟨s, fs', hreach, hfound _ _ hlong, hfound _ _ ha, hwrite, hafter _ _ hlong, hafter _ _ ha⟩

/-- **One byte** written to a file with a name of 8 characters, and the name can be created
    again, as inode 1. -/
theorem name_lost :
    ¬ ∀ s, simplefsNames.Reach s → ∀ f i, 1 ≤ f.len → f.len ≤ 8 → s.2 f = some i →
      Resolves s.1.1 f i := by
  intro hstable
  have hrun : (runRecorded filed (fun _ => none) (fun _ _ => true) [.create nameLong,
      .openFile nameLong, .write 0 (fun _ => 120) 1]).bind
      (fun s => (Ops.create (fun _ => 0) nameLong s.1.1).toOption.map fun x =>
        (s.2 nameLong, x.1)) = some (some 0, some 1) := by decide +kernel
  obtain ⟨s, hs, hx⟩ := Option.bind_eq_some_iff.mp hrun
  obtain ⟨⟨r, fs'⟩, hcreate, hfacts⟩ := Option.map_eq_some_iff.mp hx
  obtain ⟨hname, rfl⟩ := Prod.mk.inj hfacts
  have hreach : (simplefsNames.guard fun _ _ => True).Reach s :=
    runRecorded_reach hs fun _ _ _ _ => trivial
  have hres := hstable s hreach.of_guard nameLong 0 (by decide) (by decide) hname
  rw [toOption_eq_some, hres.refused] at hcreate
  cases hcreate

end OsCodes.SimpleFS
