/-
  The ownership invariant over whole runs.

  `Disciplined` is what the clients promise: short names, handles open on files not deleted
  since, no overflow of offset plus length, and writes that start in 0..256 at a block boundary
  or inside a block the file owns.  Under it every write has a `WriteEffect`, so the invariants
  of the disk (`Owned`), of the names (`Named`) and of the record (`Tracks`) hold in every
  reachable state, no call faults, and without a failed write no block is lost.

  1. `Named` is the invariant of the names, kept by every outcome (`Named.effect`);
  2. `Accounted` says that no block is lost as long as no write has failed;
  3. `Inv` puts these together with `Owned` and `Tracks`; `Inv.returns` shows that a disciplined
     call meets no fault, whatever memory it finds, and `Inv.step` that it keeps the invariant;
  4. `Inv.deleteAll_ok` is the induction over the files of a client that deletes them all;
  5. `OwnershipLaw` states the invariant in terms of the structures on disk, and
     `ownership_invariant` is the law of all disciplined runs.
-/
import OsCodes.SimpleFS.History
import OsCodes.SimpleFS.Spec

namespace OsCodes.SimpleFS

open Bytes

/-! ## The clients' side -/

/-- The sum of two `int`s fits an `int`. -/
def NoOverflow (a b : Int32) : Prop :=
  -2147483648 ≤ a.toInt + b.toInt ∧ a.toInt + b.toInt < 2147483648

/-- The offset of the handle is in 0..256, and at a block boundary or inside a block that the
    file behind the handle owns. -/
def FS.InPlace (fs : FS) (h : Fin 20) : Prop :=
  ∃ o : Nat, (fs.fileHandleArray h).offset.toInt = o ∧ o ≤ 256 ∧
    (o % 64 = 0 ∨ ∃ (i : Fin 8) (c : Fin 4), fs.Bound h i ∧ c.val = o / 64 ∧
      (fs.disk.inode i).directBlocks c ≠ -1)

instance (a b : Int32) : Decidable (NoOverflow a b) := inferInstanceAs (Decidable (_ ∧ _))

instance (fs : FS) (h : Fin 20) : Decidable (fs.InPlace h) :=
  decidable_of_iff (∃ o ∈ List.range 257, (fs.fileHandleArray h).offset.toInt = (o : Nat) ∧
      (o % 64 = 0 ∨ ∃ (i : Fin 8) (c : Fin 4), fs.Bound h i ∧ c.val = o / 64 ∧
        (fs.disk.inode i).directBlocks c ≠ -1))
    ⟨fun ⟨o, ho, hoff, hplace⟩ => ⟨o, hoff, Nat.lt_succ_iff.mp (List.mem_range.mp ho), hplace⟩,
      fun ⟨o, hoff, ho, hplace⟩ => ⟨o, List.mem_range.mpr (Nat.lt_succ_iff.mpr ho), hoff, hplace⟩⟩

/-- The calls a client may make: short names, live handles, and writes that start at the start of a
    block or in a block of the file. -/
def Disciplined (s : FS × History) : Op → Prop
  | .create f | .delete f | .openFile f => Short f
  | .close _ => True
  | .seek h _ => s.2.Live h
  | .read h nbytes => s.2.Live h ∧ NoOverflow (s.1.fileHandleArray h).offset nbytes
  | .write h _ nbytes =>
    s.2.Live h ∧ NoOverflow (s.1.fileHandleArray h).offset nbytes ∧ s.1.InPlace h

instance (s : FS × History) (op : Op) : Decidable (Disciplined s op) :=
  match op with
  | .create _ | .delete _ | .openFile _ => inferInstanceAs (Decidable (_ ∧ _))
  | .close _ => inferInstanceAs (Decidable True)
  | .seek _ _ => inferInstanceAs (Decidable (History.Live _ _))
  | .read _ _ => inferInstanceAs (Decidable (_ ∧ _))
  | .write _ _ _ => inferInstanceAs (Decidable (_ ∧ _ ∧ _))

/-! ## Writes in place -/

theorem bound_unique {fs : FS} {h : Fin 20} {i j : Fin 8} (hi : fs.Bound h i)
    (hj : fs.Bound h j) : i = j := by
  have h1 := toInt_ofInt_fin (by omega) i
  have h2 := toInt_ofInt_fin (by omega) j
  rw [← hi] at h1
  rw [← hj] at h2
  exact Fin.ext (by omega)

/-- **A write in place** through a handle bound to an inode in use returns, with an effect. -/
theorem write_returns (tempBuf : Nat → Mem) {fs : FS} {h : Fin 20} {i : Fin 8} (buf : Mem)
    {nbytes : Int32} (hd : Owned fs.disk) (hi : fs.Bound h i) (huse : fs.disk.InUse i)
    (hover : NoOverflow (fs.fileHandleArray h).offset nbytes) (hplace : fs.InPlace h) :
    ∃ r fs', Ops.write tempBuf h buf nbytes fs = .ok (r, fs') ∧
      WriteEffect fs h buf nbytes r fs' := by
  obtain ⟨o, ho, hle, hown⟩ := hplace
  have hsum := toInt_add_of_fits hover.1 hover.2
  by_cases hrej : nbytes.toInt < 0 ∨ 256 < ((fs.fileHandleArray h).offset + nbytes).toInt
  · have hleak : Leaked fs.disk fs.disk := ⟨.refl _, rfl, fun _ => .inl rfl⟩
    exact ⟨-1, fs, write_rejected tempBuf buf hd.formatted hi (.inr hrej), rfl, .inl ⟨rfl, hleak⟩⟩
  · rw [hsum, ho] at hrej
    have hn : nbytes.toInt = (nbytes.toInt.toNat : Int) := by omega
    have hend : o + nbytes.toInt.toNat ≤ 256 := by omega
    have hblk : ∀ hlt : o % 64 ≠ 0,
        (fs.disk.inode i).directBlocks ⟨o / 64, by omega⟩ ≠ -1 := by
      intro hlt
      rcases hown with hal | ⟨j, c, hj, hc, hne⟩
      · exact absurd hal hlt
      · obtain rfl := bound_unique hi hj
        have he : (⟨o / 64, by omega⟩ : Fin 4) = c := Fin.ext hc.symm
        rw [he]
        exact hne
    obtain ⟨r, d', hrun, -, hcase⟩ := write_cases tempBuf buf hd hi huse ho hn hend hblk
    refine ⟨r, { fs with disk := d' }, hrun, rfl, ?_⟩
    rcases hcase with ⟨hr, -, hl⟩ | ⟨hr, -, hw⟩
    · exact .inl ⟨hr, hl⟩
    · exact .inr ⟨hr, i, o, _, hi, huse, ho, hn, hend, hw⟩

/-! ## Names -/

/-- The names on disk are in order: none in a free inode, a short one in an inode in use, and no
    two alike. -/
structure Named (d : Disk) : Prop where
  idle : ∀ i, (d.inode i).status = inodeFree → (d.inode i).name 0 = 0
  spelled : ∀ i, d.InUse i → ∃ f, Short f ∧ strcmpEq (d.inode i).nameMem f = true
  one : ∀ {i j f}, d.InUse i → d.InUse j → strcmpEq (d.inode i).nameMem f = true →
    strcmpEq (d.inode j).nameMem f = true → i = j

namespace Named

variable {d d' : Disk}

/-- Names survive where status and name field do. -/
theorem unmoved (h : Named d) (hst : ∀ i, (d'.inode i).status = (d.inode i).status)
    (hname : ∀ i, (d'.inode i).name = (d.inode i).name) : Named d' := by
  have huse : ∀ i, d'.InUse i ↔ d.InUse i := by
    intro i
    rw [Disk.InUse, Disk.InUse, hst]
  have hback : ∀ {i f}, d'.InUse i → strcmpEq (d'.inode i).nameMem f = true →
      strcmpEq (d.inode i).nameMem f = true := by
    intro i f hi hf
    obtain ⟨g, hg, hgi⟩ := h.spelled i ((huse i).mp hi)
    have hgi' : strcmpEq (d'.inode i).nameMem g = true := by
      rw [Inode.strcmpEq_nameMem hg.2 (hname i)]
      exact hgi
    rw [strcmpEq_unique hf hgi']
    exact hgi
  constructor
  · intro i hi
    rw [hname]
    exact h.idle i (by rw [← hst]; exact hi)
  · intro i hi
    obtain ⟨f, hf, hfi⟩ := h.spelled i ((huse i).mp hi)
    exact ⟨f, hf, by rw [Inode.strcmpEq_nameMem hf.2 (hname i)]; exact hfi⟩
  · intro i j f hi hj hfi hfj
    exact h.one ((huse i).mp hi) ((huse j).mp hj) (hback hi hfi) (hback hj hfj)

theorem created (h : Named d) {tempBuf : Mem} {i : Fin 8} {new : Inode} {f : CStr} (hf : Short f)
    (hl : d.lookup f = none) (hnew : NewInode new f) : Named (d.created tempBuf i new) := by
  have hinode : ∀ j, j ≠ i → (d.created tempBuf i new).inode j = d.inode j := by
    intro j hj
    rw [Disk.created, Disk.inode_setInode_ne _ _ _ hj, Disk.inode_writeSuperBlock]
  have hself : (d.created tempBuf i new).inode i = new := Disk.inode_setInode_self ..
  -- no inode in use had the name
  have habs : ∀ j, d.InUse j → strcmpEq (d.inode j).nameMem f = true → False := by
    intro j hj hjf
    have hno := Disk.lookup_eq_none.mp hl j
    rw [Inode.isFile_iff.mpr ⟨hj, hjf⟩] at hno
    cases hno
  have hspell : ∀ {g}, strcmpEq new.nameMem g = true → g = f := fun hg =>
    strcmpEq_unique hg (hnew.name hf.2)
  constructor
  · intro j hj
    by_cases hji : j = i
    · subst hji
      rw [hself, hnew.status] at hj
      exact absurd hj (by decide)
    · rw [hinode j hji] at hj ⊢
      exact h.idle j hj
  · intro j hj
    by_cases hji : j = i
    · subst hji
      rw [hself]
      exact ⟨f, hf, hnew.name hf.2⟩
    · rw [Disk.InUse, hinode j hji] at hj
      rw [hinode j hji]
      exact h.spelled j hj
  · intro j k g hj hk hjg hkg
    by_cases hji : j = i <;> by_cases hki : k = i
    · rw [hji, hki]
    · rw [hji, hself] at hjg
      rw [hinode k hki, hspell hjg] at hkg
      rw [Disk.InUse, hinode k hki] at hk
      exact absurd hkg (habs k hk)
    · rw [hki, hself] at hkg
      rw [hinode j hji, hspell hkg] at hjg
      rw [Disk.InUse, hinode j hji] at hj
      exact absurd hjg (habs j hj)
    · rw [Disk.InUse, hinode j hji] at hj
      rw [Disk.InUse, hinode k hki] at hk
      rw [hinode j hji] at hjg
      rw [hinode k hki] at hkg
      exact h.one hj hk hjg hkg

theorem deleted (h : Named d) {i : Fin 8} (hdel : Deleted d d' i) : Named d' := by
  have huse : ∀ j, d'.InUse j → j ≠ i ∧ d.InUse j := by
    intro j hj
    have hji : j ≠ i := by
      rintro rfl
      rw [Disk.InUse, hdel.status] at hj
      exact absurd hj (by decide)
    rw [Disk.InUse, hdel.inode_ne j hji] at hj
    exact ⟨hji, hj⟩
  constructor
  · intro j hj
    by_cases hji : j = i
    · subst hji
      exact hdel.noName
    · rw [hdel.inode_ne j hji] at hj ⊢
      exact h.idle j hj
  · intro j hj
    obtain ⟨hji, hj⟩ := huse j hj
    rw [hdel.inode_ne j hji]
    exact h.spelled j hj
  · intro j k g hj hk hjg hkg
    obtain ⟨hji, hj⟩ := huse j hj
    obtain ⟨hki, hk⟩ := huse k hk
    rw [hdel.inode_ne j hji] at hjg
    rw [hdel.inode_ne k hki] at hkg
    exact h.one hj hk hjg hkg

/-- **Every outcome keeps the names in order**, a create provided its name is short. -/
theorem effect {fs fs' : FS} {op : Op} {r : Ret} (h : Named fs.disk)
    (hshort : ∀ f, op = .create f → Short f) (he : Effect fs op r fs') : Named fs'.disk := by
  cases he with
  | createRefused | deleteNone | openRefused | opened | closed | sought | read => exact h
  | created hl _ hnew => exact h.created (hshort _ rfl) hl hnew
  | deleted _ hdel => exact h.deleted hdel
  | write hw =>
    rcases hw.outcome with ⟨-, hl⟩ | ⟨-, i, o, n, -, -, -, -, -, hwr⟩
    · exact h.unmoved (fun j => by rw [hl.sbOnly.inode]) fun j => by rw [hl.sbOnly.inode]
    · refine h.unmoved (fun j => ?_) fun j => ?_
      · by_cases hj : j = i
        · rw [hj, hwr.status]
        · rw [hwr.inode_ne j hj]
      · by_cases hj : j = i
        · rw [hj, hwr.name]
        · rw [hwr.inode_ne j hj]

theorem start {fs : FS} (h : Fresh fs) : Named fs.disk where
  idle i _ := h.noName i
  spelled i hi := by
    rw [Disk.InUse, h.status] at hi
    exact absurd hi (by decide)
  one hi := by
    rw [Disk.InUse, h.status] at hi
    exact absurd hi (by decide)

end Named

/-! ## Lost blocks -/

/-- Unless some write has failed, every block marked used is some file's. -/
def Accounted (fs : FS) (g : History) : Prop := g.failed = false → NoLeak fs.disk.owner fs.disk.Used

theorem Accounted.effect {fs fs' : FS} {g : History} {e : Event} (h : Accounted fs g)
    (hd : Owned fs.disk) (he : Effect fs e.op e.ret fs') : Accounted fs' (g.after fs e) := by
  obtain ⟨op, u, r⟩ := e
  have hfail : ∀ {b : Bool}, (g.failed || b) = false → g.failed = false := fun hb =>
    (Bool.or_eq_false_iff.mp hb).1
  cases he with
  | createRefused | deleteNone | openRefused | opened | closed | sought | read => exact h
  | @created f i new tempBuf _ hfree hnew =>
    intro hf
    have hnl := h (by simpa [History.after] using hf)
    intro b hb
    have hused : (fs.disk.created tempBuf i new).Used b ↔ fs.disk.Used b := by
      rw [Disk.Used, Disk.created, Disk.sb_setInode, Disk.sb_writeSuperBlock]
      rfl
    obtain ⟨⟨j, c⟩, hs⟩ := hnl b (hused.mp hb)
    refine ⟨(j, c), ?_⟩
    -- the new inode's slots were empty before
    have hji : j ≠ i := by
      rintro rfl
      have hidle : (fs.disk.inode j).status = inodeFree :=
        (hd.status j).elim (fun hu => absurd (hfree.symm.trans hu.1) (by decide)) fun hx => hx.2
      rw [Disk.owner, hd.idle j hidle, blockOf_neg_one] at hs
      cases hs
    rw [Disk.owner, Disk.created, Disk.inode_setInode_ne _ _ _ hji, Disk.inode_writeSuperBlock]
    exact hs
  | deleted _ hdel => exact fun hf => (h hf).release hdel.owner hdel.used
  | write hw =>
    intro hf
    rcases hw.outcome with ⟨rfl, -⟩ | ⟨-, i, o, n, -, -, -, -, -, hwr⟩
    · simp [History.after] at hf
    · refine (h (hfail hf)).grow ?_ ?_
      · rintro ⟨j, c⟩ b hs
        rw [hwr.owner, Disk.ownerWith]
        split
        · rename_i hj
          simp only at hj
          subst hj
          have hs' := Disk.owner_eq_some.mp hs
          rw [blockOf_eq_some, hwr.filled.keep c (by rw [hs']; exact ofInt_fin_ne_neg_one b)]
          exact hs'
        · exact hs
      · intro b hb
        rcases hwr.filled.flags b with hsame | ⟨c, -, hc⟩
        · left
          rw [Disk.Used, ← hsame]
          exact hb
        · exact .inr ⟨(i, c), Disk.owner_eq_some.mpr hc⟩

/-! ## The invariant of a disciplined run -/

/-- What holds in every state of a disciplined run. -/
structure Inv (s : FS × History) : Prop where
  owned : Owned s.1.disk
  named : Named s.1.disk
  tracks : Tracks s.1 s.2
  accounted : Accounted s.1 s.2

/-- Under discipline every outcome is an `Effect`. -/
theorem Inv.step_effect {s : FS × History} (h : Inv s) {u : Uninit} {op : Op} {r : Ret} {fs' : FS}
    (hop : Disciplined s op) (hrun : Ops.exec u s.1 op = .ok (r, fs')) : Effect s.1 op r fs' := by
  refine exec_effect h.owned ?_ hrun
  rintro k buf nbytes r fs' rfl hwrun
  obtain ⟨⟨i, hl⟩, hover, hplace⟩ := hop
  obtain ⟨r₁, fs₁, hrun₁, heff⟩ := write_returns u.tempBuf buf h.owned (h.tracks.live hl)
    (h.tracks.inUse_of_live hl) hover hplace
  rw [hrun₁, Except.ok.injEq, Prod.mk.injEq] at hwrun
  obtain ⟨rfl, rfl⟩ := hwrun
  exact heff

/-- **No call of a disciplined client faults**, whatever the memory it finds. -/
theorem Inv.returns {s : FS × History} (h : Inv s) (u : Uninit) {op : Op}
    (hop : Disciplined s op) : ∃ r fs', Ops.exec u s.1 op = .ok (r, fs') := by
  cases op with
  | create f =>
    rcases create_cases (u.tempBuf 0) f h.owned.formatted with
      ⟨he, -⟩ | ⟨i, new, he, -⟩ | ⟨-, hlen⟩
    · exact ⟨_, _, by rw [Ops.exec, he]; rfl⟩
    · exact ⟨_, _, by rw [Ops.exec, he]; rfl⟩
    · -- a short name fits into an inode
      have hf : Short f := hop
      exact absurd hf.2 (by omega)
  | delete f =>
    rcases delete_ok u.tempBuf f h.owned with ⟨he, -⟩ | ⟨i, d', he, -⟩
    · exact ⟨_, _, by rw [Ops.exec, he]; rfl⟩
    · exact ⟨_, _, by rw [Ops.exec, he]; rfl⟩
  | openFile f =>
    rcases openFile_cases f h.owned.formatted with ⟨he, -⟩ | ⟨i, k, he, -⟩
    · exact ⟨_, _, by rw [Ops.exec, he]; rfl⟩
    · exact ⟨_, _, by rw [Ops.exec, he]; rfl⟩
  | close k => exact ⟨_, _, rfl⟩
  | seek k nseek => exact ⟨_, _, rfl⟩
  | read k nbytes =>
    obtain ⟨⟨i, hl⟩, -⟩ := hop
    rcases read_cases u.temp nbytes h.owned (h.tracks.live hl) with ⟨-, he⟩ | ⟨-, temp', -, he⟩
    · exact ⟨_, _, by rw [Ops.exec, he]; rfl⟩
    · exact ⟨_, _, by rw [Ops.exec, he]; rfl⟩
  | write k buf nbytes =>
    obtain ⟨⟨i, hl⟩, hover, hplace⟩ := hop
    obtain ⟨r, fs', he, -⟩ := write_returns u.tempBuf buf h.owned (h.tracks.live hl)
      (h.tracks.inUse_of_live hl) hover hplace
    exact ⟨_, _, by rw [Ops.exec, he]; rfl⟩

/-- **The step lemma**: a call of a disciplined client keeps the ownership of blocks, the names and
    the record. -/
theorem Inv.step {s s' : FS × History} {e : Event} (h : Inv s) (hop : Disciplined s e.op)
    (hst : simplefsHistory.step s e s') : Inv s' := by
  obtain ⟨hrun, hg⟩ := hst
  have heff := h.step_effect hop hrun
  constructor
  · exact h.owned.effect heff
  · refine h.named.effect (fun f hf => ?_) heff
    rw [hf] at hop
    exact hop
  · rw [hg]
    exact h.tracks.effect heff
  · rw [hg]
    exact h.accounted.effect h.owned heff

theorem Inv.start {s : FS × History} (h : simplefsHistory.start s) : Inv s := by
  have hfresh := start_fresh h
  obtain ⟨-, hg⟩ := h
  constructor
  · exact hfresh.owned
  · exact Named.start hfresh
  · rw [hg]
    exact Tracks.start hfresh
  · intro _ b hb
    rw [Disk.Used, hfresh.blockFlag] at hb
    exact absurd hb (by decide)

/-- **The run lemma**: they hold wherever disciplined calls lead from a formatted disk. -/
theorem Inv.of_reach {s : FS × History}
    (h : (simplefsHistory.guard fun s e => Disciplined s e.op).Reach s) : Inv s := by
  refine h.invariant ?_ ?_
  · intro _ h0
    exact Inv.start h0
  · intro _ _ _ hi hst
    exact hi.step hst.1 hst.2

/-! ## Deleting every file -/

/-- A client that deletes one file after the other. -/
def deleteAll : List (CStr × Uninit) → FS → Except Fault FS
  | [], fs => .ok fs
  | (filename, u) :: rest, fs => do
    let (_, fs) ← Ops.exec u fs (.delete filename)
    deleteAll rest fs

/-- With no file left, and no block lost, the freelists are empty. -/
theorem Inv.empty {s : FS × History} (h : Inv s) (hok : s.2.failed = false)
    (hno : ∀ i, ¬ s.1.disk.InUse i) :
    (∀ i, s.1.disk.sb.inodeFreelist i = flagFree) ∧
      ∀ b, s.1.disk.sb.datablockFreelist b = flagFree := by
  constructor
  · intro i
    exact (h.owned.status i).elim (fun hu => absurd hu.2 (hno i)) fun hf => hf.1
  · intro b
    refine (h.owned.flag b).resolve_right fun hb => ?_
    obtain ⟨⟨i, c⟩, hs⟩ := h.accounted hok b hb
    rw [Disk.owner, h.owned.idle i (h.owned.not_inUse (hno i)), blockOf_neg_one] at hs
    cases hs

/-- **Deleting every file** returns, and empties both freelists. -/
theorem Inv.deleteAll_ok : ∀ (l : List (CStr × Uninit)) (s : FS × History), Inv s →
    s.2.failed = false →
    (∀ i f, s.1.disk.InUse i → strcmpEq (s.1.disk.inode i).nameMem f = true → f ∈ l.map Prod.fst) →
    ∃ fs', deleteAll l s.1 = .ok fs' ∧ (∀ i, fs'.disk.sb.inodeFreelist i = flagFree) ∧
      ∀ b, fs'.disk.sb.datablockFreelist b = flagFree := by
  intro l
  induction l with
  | nil =>
    intro s h hok hall
    refine ⟨s.1, rfl, h.empty hok fun i hi => ?_⟩
    obtain ⟨f, -, hf⟩ := h.named.spelled i hi
    exact absurd (hall i f hi hf) List.not_mem_nil
  | cons a l ih =>
    obtain ⟨f, u⟩ := a
    intro s h hok hall
    have hmem : ∀ i g, s.1.disk.InUse i → strcmpEq (s.1.disk.inode i).nameMem g = true → g ≠ f →
        g ∈ l.map Prod.fst := by
      intro i g hi hg hne
      exact (List.mem_cons.mp (hall i g hi hg)).resolve_left hne
    rcases delete_ok u.tempBuf f h.owned with ⟨he, hl⟩ | ⟨i, d', he, hl, hdel⟩
    · -- no file has the name
      have hrun : Ops.exec u s.1 (.delete f) = .ok (⟨0, []⟩, s.1) := by rw [Ops.exec, he]; rfl
      obtain ⟨fs', hrest, hfree⟩ := ih s h hok fun j g hj hg => hmem j g hj hg (by
        rintro rfl
        have hno := Disk.lookup_eq_none.mp hl j
        rw [Inode.isFile_iff.mpr ⟨hj, hg⟩] at hno
        cases hno)
      exact ⟨fs', by rw [deleteAll, hrun]; exact hrest, hfree⟩
    · have hrun : Ops.exec u s.1 (.delete f) = .ok (⟨0, []⟩, { s.1 with disk := d' }) := by
        rw [Ops.exec, he]; rfl
      have heff : Effect s.1 (.delete f) ⟨0, []⟩ { s.1 with disk := d' } := .deleted hl hdel
      have h' : Inv ({ s.1 with disk := d' }, s.2.after s.1 ⟨.delete f, u, ⟨0, []⟩⟩) := by
        constructor
        · exact h.owned.effect heff
        · exact h.named.deleted hdel
        · exact Tracks.effect (e := ⟨.delete f, u, ⟨0, []⟩⟩) h.tracks heff
        · exact Accounted.effect (e := ⟨.delete f, u, ⟨0, []⟩⟩) h.accounted h.owned heff
      obtain ⟨hi, hif⟩ := Inode.isFile_iff.mp (Disk.lookup_some hl)
      obtain ⟨fs', hrest, hfree⟩ := ih _ h' hok (by
        intro j g hj hg
        have hji : j ≠ i := by
          rintro rfl
          rw [Disk.InUse, hdel.status] at hj
          exact absurd hj (by decide)
        rw [Disk.InUse, hdel.inode_ne j hji] at hj
        rw [hdel.inode_ne j hji] at hg
        apply hmem j g hj hg
        rintro rfl
        exact hji (h.named.one hj hi hg hif))
      exact ⟨fs', by rw [deleteAll, hrun]; exact hrest, hfree⟩

/-! ## The law -/

/-- The ownership invariant in terms of the structures on disk. -/
structure OwnershipLaw (d : Disk) (failed : Bool) : Prop where
  flag_iff : ∀ i, d.sb.inodeFreelist i = flagUsed ↔ (d.inode i).status = inodeInUse
  named : ∀ i, d.InUse i → ∃ f, Short f ∧ strcmpEq (d.inode i).nameMem f = true
  distinct : ∀ i j f, d.InUse i → d.InUse j → strcmpEq (d.inode i).nameMem f = true →
    strcmpEq (d.inode j).nameMem f = true → i = j
  entries : ∀ i c, (d.inode i).directBlocks c = -1 ∨
    0 ≤ ((d.inode i).directBlocks c).toInt ∧ ((d.inode i).directBlocks c).toInt < 30
  idle : ∀ i, ¬ d.InUse i → ∀ c, (d.inode i).directBlocks c = -1
  once : ∀ i c j c', (d.inode i).directBlocks c ≠ -1 →
    (d.inode i).directBlocks c = (d.inode j).directBlocks c' → i = j ∧ c = c'
  used : ∀ i c b, (d.inode i).directBlocks c = Int32.ofInt (b : Fin 30).val →
    d.sb.datablockFreelist b = flagUsed
  referenced : failed = false → ∀ b, d.sb.datablockFreelist b = flagUsed →
    ∃ i c, (d.inode i).directBlocks c = Int32.ofInt b.val

theorem Inv.law {s : FS × History} (h : Inv s) : OwnershipLaw s.1.disk s.2.failed where
  flag_iff i := by
    constructor
    · intro hf
      rcases h.owned.status i with hu | hn
      · exact hu.2
      · rw [hn.1] at hf
        exact absurd hf (by decide)
    · exact fun hi => h.owned.flag_of_inUse hi
  named := h.named.spelled
  distinct _ _ _ hi hj hf hf' := h.named.one hi hj hf hf'
  entries i c := by
    rcases h.owned.range i c with hc | ⟨b, hb⟩
    · exact .inl hc
    · right
      rw [hb, toInt_ofInt_fin (by omega)]
      omega
  idle i hi := h.owned.idle i (h.owned.not_inUse hi)
  once i c j c' hne heq := by
    obtain ⟨b, hb⟩ := h.owned.owner_of_ne hne
    have hb' : s.1.disk.owner (j, c') = some b := by
      rw [Disk.owner_eq_some, ← heq]
      exact Disk.owner_eq_some.mp hb
    exact Prod.mk.injEq .. ▸ h.owned.owns.apart hb hb'
  used _ _ _ hb := h.owned.owns.marked (Disk.owner_eq_some.mpr hb)
  referenced hok b hb := by
    obtain ⟨⟨i, c⟩, hs⟩ := h.accounted hok b hb
    exact ⟨i, c, Disk.owner_eq_some.mp hs⟩

/-- **Ownership over whole runs.**  In every state of a disciplined run the structures on disk
    obey the law, every disciplined call returns, so that no `assert` fires, and unless a write
    has failed deleting every file empties both freelists. -/
theorem ownership_invariant {s : FS × History}
    (h : (simplefsHistory.guard fun s e => Disciplined s e.op).Reach s) :
    OwnershipLaw s.1.disk s.2.failed ∧
    (∀ u op, Disciplined s op → ∃ r fs', Ops.exec u s.1 op = .ok (r, fs')) ∧
    (s.2.failed = false → ∀ l : List (CStr × Uninit),
      (∀ i f, s.1.disk.InUse i → strcmpEq (s.1.disk.inode i).nameMem f = true →
        f ∈ l.map Prod.fst) →
      ∃ fs', deleteAll l s.1 = .ok fs' ∧ (∀ i, fs'.disk.sb.inodeFreelist i = flagFree) ∧
        ∀ b, fs'.disk.sb.datablockFreelist b = flagFree) := by
  have hi := Inv.of_reach h
  exact ⟨hi.law, fun u _ hop => hi.returns u hop,
    fun hok l hall => Inv.deleteAll_ok l s hi hok hall⟩

/-- Two files, of two blocks and of one, and then both deleted. -/
theorem ownership_invariant_files :
    ∃ s, (simplefsHistory.guard fun s e => Disciplined s e.op).Reach s ∧
      s.1.disk.owner (0, 0) = some 0 ∧ s.1.disk.owner (0, 1) = some 1 ∧
      s.1.disk.owner (1, 0) = some 2 ∧ OwnershipLaw s.1.disk s.2.failed ∧
      ∃ fs', deleteAll [(nameA, .zero), (nameB, .zero)] s.1 = .ok fs' ∧
        (∀ i, fs'.disk.sb.inodeFreelist i = flagFree) ∧
        ∀ b, fs'.disk.sb.datablockFreelist b = flagFree := by
  have hrun : (runGuarded (fun s e => decide (Disciplined s e.op))
      [.create nameA, .create nameB, .openFile nameA, .openFile nameB,
        .write 0 (fun _ => 120) 70, .seek 1 64, .seek 1 (-64), .write 1 (fun _ => 121) 5]).map
      (fun s => (s.1.disk.owner (0, 0), s.1.disk.owner (0, 1), s.1.disk.owner (1, 0), s.2.failed,
        decide (∀ i, s.1.disk.InUse i → strcmpEq (s.1.disk.inode i).nameMem nameA = true ∨
          strcmpEq (s.1.disk.inode i).nameMem nameB = true))) =
      some (some 0, some 1, some 2, false, true) := by decide +kernel
  obtain ⟨s, hs, hfacts⟩ := Option.map_eq_some_iff.mp hrun
  simp only [Prod.mk.injEq, decide_eq_true_eq] at hfacts
  obtain ⟨h00, h01, h10, hok, hnames⟩ := hfacts
  have hreach : (simplefsHistory.guard fun s e => Disciplined s e.op).Reach s :=
    runGuarded_reach hs fun s e _ hc => of_decide_eq_true hc
  obtain ⟨hlaw, -, hdelete⟩ := ownership_invariant hreach
  refine ⟨s, hreach, h00, h01, h10, hlaw, hdelete hok _ fun i f hi hf => ?_⟩
  rcases hnames i hi with ha | hb
  · rw [strcmpEq_unique hf ha]
    exact List.mem_cons_self
  · rw [strcmpEq_unique hf hb]
    exact List.mem_cons_of_mem _ List.mem_cons_self

end OsCodes.SimpleFS
