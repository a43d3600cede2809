/-
  SimpleFS refines the map from names to byte strings.

  `Refines` relates a file system to a `Spec`: every abstract file is `Held` by an inode in use,
  every inode in use holds one, and live handles point to the inode of their file.  Each call has
  its own step lemma; `append_refinement` puts them together over whole runs.

  Structure:

  1. `Held` ties one file to one inode: its name, its size, its bytes, and blocks up to its end;
  2. `Refines` ties the two systems, and `Refines.start` the two start states;
  3. each call has its lemma.  Calls that change no file go by `Held.keep`; a write at the end of
     a file goes by `held_append`, which is where the bytes are looked at;
  4. `Refines.step` says of a call of an appending client that it returns, that the abstract file
     system allows its answer, and that the states behind it are related again;
  5. `refines_of_reach` and `append_refinement` are the same over runs.

  The clients append without zero bytes: with a zero byte, or a write over old bytes, the program
  does something else, and `RoundTrip` and `Overwrite` say exactly when.
-/
import OsCodes.SimpleFS.Ownership
import OsCodes.SimpleFS.Content
import OsCodes.SimpleFS.Spec
import Mathlib.Data.Finite.Defs
import Mathlib.Data.Fintype.EquivFin

namespace OsCodes.SimpleFS

open Bytes

/-! ## The relation -/

/-- Inode `i` holds the file `f` with the content `bytes`. -/
structure Held (d : Disk) (i : Fin 8) (f : CStr) (bytes : List UInt8) : Prop where
  inUse : d.InUse i
  name : strcmpEq (d.inode i).nameMem f = true
  size : (d.inode i).fileSize.toInt = bytes.length
  max : bytes.length ≤ 256
  blocks : ∀ c : Fin 4, (d.inode i).directBlocks c ≠ -1 ↔ 64 * c.val < bytes.length
  byte : ∀ p (hp : p < bytes.length), d.fileByte i p = some bytes[p]
  nonzero : (0 : UInt8) ∉ bytes

/-- The file system represents the abstract one. -/
structure Refines (fs : FS) (spec : Spec) : Prop where
  owned : Owned fs.disk
  named : Named fs.disk
  present : ∀ {f bytes}, spec.file f = some bytes → Short f ∧ ∃ i, Held fs.disk i f bytes
  absent : ∀ {i f}, fs.disk.InUse i → strcmpEq (fs.disk.inode i).nameMem f = true →
    (spec.file f).isSome
  free : ∀ h, spec.handle h = .free ↔ (fs.fileHandleArray h).inodeNumber = -1
  live : ∀ {h f o}, spec.handle h = .live f o → (fs.fileHandleArray h).offset.toInt = o ∧
    o ≤ 256 ∧ ∃ i, fs.Bound h i ∧ fs.disk.InUse i ∧
      strcmpEq (fs.disk.inode i).nameMem f = true

/-- What a client can see of the files: the names that exist, their lengths and their bytes. -/
def Contents (d : Disk) (spec : Spec) : Prop :=
  ∀ f, Short f → match spec.file f with
    | none => d.lookup f = none
    | some bytes => ∃ i, d.lookup f = some i ∧ (d.inode i).fileSize.toInt = bytes.length ∧
      ∀ p (hp : p < bytes.length), d.fileByte i p = some bytes[p]

/-- An inode in use is found under its name. -/
theorem Named.lookup_eq {d : Disk} (h : Named d) {i : Fin 8} {f : CStr} (hi : d.InUse i)
    (hf : strcmpEq (d.inode i).nameMem f = true) : d.lookup f = some i := by
  cases hl : d.lookup f with
  | none =>
    have hno := Disk.lookup_eq_none.mp hl i
    rw [Inode.isFile_iff.mpr ⟨hi, hf⟩] at hno
    cases hno
  | some j =>
    obtain ⟨hj, hjf⟩ := Inode.isFile_iff.mp (Disk.lookup_some hl)
    rw [h.one hi hj hf hjf]

/-- A file stays where its inode and its bytes do. -/
theorem Held.keep {d d' : Disk} {i : Fin 8} {f : CStr} {bytes : List UInt8}
    (h : Held d i f bytes) (hinode : d'.inode i = d.inode i)
    (hbyte : ∀ p, d'.fileByte i p = d.fileByte i p) : Held d' i f bytes where
  inUse := by rw [Disk.InUse, hinode]; exact h.inUse
  name := by rw [hinode]; exact h.name
  size := by rw [hinode]; exact h.size
  max := h.max
  blocks c := by rw [hinode]; exact h.blocks c
  byte p hp := by rw [hbyte]; exact h.byte p hp
  nonzero := h.nonzero

/-- The bytes of a file are behind its inode and in blocks from position 320 on. -/
theorem fileByte_of_high {d d' : Disk} {i : Fin 8} (hinode : d'.inode i = d.inode i)
    (hhigh : ∀ k, 320 ≤ k → d'.byte k = d.byte k) (p : Int) :
    d'.fileByte i p = d.fileByte i p :=
  Disk.fileByte_congr (fun c _ _ => by rw [Disk.owner, Disk.owner, hinode])
    fun _ _ _ _ _ _ => hhigh _ (by omega)

namespace Refines

variable {fs : FS} {spec : Spec}

theorem held_of_live (h : Refines fs spec) {k : Fin 20} {f : CStr} {o : Nat}
    (hl : spec.handle k = .live f o) :
    ∃ i bytes, spec.file f = some bytes ∧ Short f ∧ fs.Bound k i ∧ Held fs.disk i f bytes := by
  obtain ⟨-, -, i, hi, huse, hname⟩ := h.live hl
  obtain ⟨bytes, hbytes⟩ := Option.isSome_iff_exists.mp (h.absent huse hname)
  obtain ⟨hf, j, hheld⟩ := h.present hbytes
  rw [← h.named.one huse hheld.inUse hname hheld.name] at hheld
  exact ⟨i, bytes, hbytes, hf, hi, hheld⟩

/-- A name exists in both or in neither. -/
theorem lookup_isSome (h : Refines fs spec) (f : CStr) :
    (fs.disk.lookup f).isSome ↔ (spec.file f).isSome := by
  constructor
  · intro hl
    obtain ⟨i, hi⟩ := Option.isSome_iff_exists.mp hl
    obtain ⟨huse, hf⟩ := Inode.isFile_iff.mp (Disk.lookup_some hi)
    exact h.absent huse hf
  · intro hf
    obtain ⟨bytes, hbytes⟩ := Option.isSome_iff_exists.mp hf
    obtain ⟨-, i, hheld⟩ := h.present hbytes
    rw [h.named.lookup_eq hheld.inUse hheld.name]
    rfl

/-- Eight files are all inodes in use. -/
theorem full_iff (h : Refines fs spec) : spec.Full ↔ ∀ i, fs.disk.InUse i := by
  constructor
  · rintro ⟨name, hinj, hex⟩
    have hheld : ∀ k, ∃ i, fs.disk.InUse i ∧
        strcmpEq (fs.disk.inode i).nameMem (name k) = true := by
      intro k
      obtain ⟨bytes, hbytes⟩ := Option.isSome_iff_exists.mp (hex k)
      obtain ⟨-, i, hi⟩ := h.present hbytes
      exact ⟨i, hi.inUse, hi.name⟩
    choose g huse hname using hheld
    -- different names are in different inodes, and eight of them fill the table
    have hg : Function.Injective g := by
      intro k k' hkk
      apply hinj
      have hk := hname k
      rw [hkk] at hk
      exact strcmpEq_unique hk (hname k')
    intro i
    obtain ⟨k, rfl⟩ := Finite.injective_iff_surjective.mp hg i
    exact huse k
  · intro hall
    choose name hshort hname using fun i => h.named.spelled i (hall i)
    refine ⟨name, fun i j hij => ?_, fun i => h.absent (hall i) (hname i)⟩
    have hi := hname i
    rw [hij] at hi
    exact h.named.one (hall i) (hall j) hi (hname j)

/-- A handle array and an abstract one that differ at `k` only. -/
theorem set_handle (h : Refines fs spec) {k : Fin 20} {handle : FileHandle} {slot : Slot}
    (hfree : slot = .free ↔ handle.inodeNumber = -1)
    (hlive : ∀ f o, slot = .live f o → handle.offset.toInt = o ∧ o ≤ 256 ∧
      ∃ i : Fin 8, handle.inodeNumber = Int32.ofInt i.val ∧ fs.disk.InUse i ∧
        strcmpEq (fs.disk.inode i).nameMem f = true) :
    Refines (fs.setHandle k handle) (spec.setHandle k slot) where
  owned := h.owned
  named := h.named
  present := h.present
  absent := h.absent
  free k' := by
    by_cases hk : k' = k
    · rw [hk, Spec.handle_setHandle_self, FS.setHandle_self]
      exact hfree
    · rw [Spec.handle_setHandle_ne _ _ _ hk, FS.setHandle_ne _ _ _ hk]
      exact h.free k'
  live {k' f o} hl := by
    simp only [FS.Bound]
    by_cases hk : k' = k
    · rw [hk, Spec.handle_setHandle_self] at hl
      rw [hk, FS.setHandle_self]
      exact hlive f o hl
    · rw [Spec.handle_setHandle_ne _ _ _ hk] at hl
      rw [FS.setHandle_ne _ _ _ hk]
      exact h.live hl

/-! ## Call by call -/

theorem create (h : Refines fs spec) (u : Uninit) {f : CStr} (hf : Short f) :
    ∃ r fs', Ops.exec u fs (.create f) = .ok (r, fs') ∧ spec.Allows (.create f) r ∧
      Refines fs' (spec.after (.create f) r) := by
  rcases create_cases (u.tempBuf 0) f h.owned.formatted with
    ⟨hrun, hwhy⟩ | ⟨i, new, hrun, hl, hfree, hnew⟩ | ⟨-, hlen⟩
  · have hafter : spec.after (.create f) ⟨-1, []⟩ = spec := by
      simp only [Spec.after]
      exact if_neg (by decide)
    refine ⟨⟨-1, []⟩, fs, by rw [Ops.exec, hrun]; rfl, ⟨rfl, by simp, ?_⟩, by rw [hafter]; exact h⟩
    refine ⟨fun _ => ?_, fun _ => rfl⟩
    rcases hwhy with hex | hall
    · exact .inl ((h.lookup_isSome f).mp hex)
    · refine .inr (h.full_iff.mpr fun i => ?_)
      exact (h.owned.status i).elim (fun hu => hu.2) fun hf => absurd hf.1 (hall i)
  · have heff : Effect fs (.create f) ⟨i.val, []⟩
        { fs with disk := fs.disk.created (u.tempBuf 0) i new } := .created hl hfree hnew
    have hidle : (fs.disk.inode i).status = inodeFree :=
      (h.owned.status i).elim (fun hu => absurd (hfree.symm.trans hu.1) (by decide)) fun hx => hx.2
    have hnot : ¬ fs.disk.InUse i := fun hu => hu.ne_free hidle
    have hnone : spec.file f = none := by
      rw [← Option.not_isSome_iff_eq_none, ← h.lookup_isSome, hl]
      simp
    have hinode : ∀ j, j ≠ i →
        (fs.disk.created (u.tempBuf 0) i new).inode j = fs.disk.inode j := by
      intro j hj
      rw [Disk.created, Disk.inode_setInode_ne _ _ _ hj, Disk.inode_writeSuperBlock]
    have hself : (fs.disk.created (u.tempBuf 0) i new).inode i = new := Disk.inode_setInode_self ..
    have hhigh : ∀ k, 320 ≤ k →
        (fs.disk.created (u.tempBuf 0) i new).byte k = fs.disk.byte k := by
      intro k hk
      rw [Disk.created, Disk.byte_setInode _ _ _ (by omega),
        Disk.byte_writeSuperBlock _ _ _ (by omega)]
    have hafter : spec.after (.create f) ⟨i.val, []⟩ = spec.setFile f (some []) := by
      simp only [Spec.after]
      exact if_pos (by omega)
    have hne : ∀ j, fs.disk.InUse j → j ≠ i := by
      rintro j hj rfl
      exact hnot hj
    refine ⟨⟨i.val, []⟩, _, by rw [Ops.exec, hrun]; rfl, ⟨rfl, by simp only; omega, ?_⟩, ?_⟩
    · refine ⟨fun heq => by simp only at heq; omega, ?_⟩
      rintro (hex | hfull)
      · rw [hnone] at hex
        cases hex
      · exact absurd (h.full_iff.mp hfull i) hnot
    · rw [hafter]
      constructor
      · exact h.owned.effect heff
      · exact h.named.created hf hl hnew
      · intro g bytes hg
        by_cases hgf : g = f
        · rw [hgf, Spec.file_setFile_self, Option.some.injEq] at hg
          subst hg
          rw [hgf]
          refine ⟨hf, i, ?_, ?_, ?_, by simp, ?_, by simp, by simp⟩
          · rw [Disk.InUse, hself]
            exact hnew.status
          · rw [hself]
            exact hnew.name hf.2
          · rw [hself, hnew.fileSize hf.2]
            rfl
          · intro c
            rw [hself, hnew.noBlock]
            simp
        · rw [Spec.file_setFile_ne _ _ _ hgf] at hg
          obtain ⟨hgs, j, hheld⟩ := h.present hg
          have hj := hne j hheld.inUse
          exact ⟨hgs, j, hheld.keep (hinode j hj) (fileByte_of_high (hinode j hj) hhigh)⟩
      · intro j g hj hg
        by_cases hji : j = i
        · rw [hji, hself] at hg
          rw [strcmpEq_unique hg (hnew.name hf.2), Spec.file_setFile_self]
          rfl
        · rw [Disk.InUse, hinode j hji] at hj
          rw [hinode j hji] at hg
          have hsome := h.absent hj hg
          by_cases hgf : g = f
          · rw [hgf, Spec.file_setFile_self]
            rfl
          · rw [Spec.file_setFile_ne _ _ _ hgf]
            exact hsome
      · exact h.free
      · intro k g o hl
        obtain ⟨ho, hle, j, hj, huse, hg⟩ := h.live hl
        have hji := hne j huse
        exact ⟨ho, hle, j, hj, by rw [Disk.InUse, hinode j hji]; exact huse,
          by rw [hinode j hji]; exact hg⟩
  · exact absurd hf.2 (by omega)

theorem delete (h : Refines fs spec) (u : Uninit) (f : CStr) :
    ∃ r fs', Ops.exec u fs (.delete f) = .ok (r, fs') ∧ spec.Allows (.delete f) r ∧
      Refines fs' (spec.after (.delete f) r) := by
  have hfree : ∀ slot, Spec.dropped f slot = .free ↔ slot = .free := by
    intro slot
    cases slot with
    | free => simp [Spec.dropped]
    | stale => simp [Spec.dropped]
    | live g o =>
      simp only [Spec.dropped]
      split
      · simp
      · simp
  have hlive : ∀ slot g o, Spec.dropped f slot = .live g o → slot = .live g o ∧ g ≠ f := by
    intro slot g o hd
    cases slot with
    | free => cases hd
    | stale => cases hd
    | live g' o' =>
      simp only [Spec.dropped] at hd
      split at hd
      · cases hd
      · rename_i hne
        cases hd
        exact ⟨rfl, hne⟩
  rcases delete_ok u.tempBuf f h.owned with ⟨hrun, hl⟩ | ⟨i, d', hrun, hl, hdel⟩
  · -- no such file
    have hnone : spec.file f = none := by
      rw [← Option.not_isSome_iff_eq_none, ← h.lookup_isSome, hl]
      simp
    refine ⟨⟨0, []⟩, fs, by rw [Ops.exec, hrun]; rfl, rfl, h.owned, h.named, ?_, ?_, ?_, ?_⟩
    · intro g bytes hg
      by_cases hgf : g = f
      · simp only [Spec.after, hgf, Spec.file_setFile_self] at hg
        cases hg
      · simp only [Spec.after, Spec.file_setFile_ne _ _ _ hgf] at hg
        exact h.present hg
    · intro j g hj hg
      have hsome := h.absent hj hg
      have hgf : g ≠ f := by
        rintro rfl
        rw [hnone] at hsome
        cases hsome
      simp only [Spec.after, Spec.file_setFile_ne _ _ _ hgf]
      exact hsome
    · intro k
      exact (hfree _).trans (h.free k)
    · intro k g o hk
      exact h.live (hlive _ _ _ hk).1
  · have heff : Effect fs (.delete f) ⟨0, []⟩ { fs with disk := d' } := .deleted hl hdel
    obtain ⟨hi, hif⟩ := Inode.isFile_iff.mp (Disk.lookup_some hl)
    have hkeep : ∀ j, j ≠ i → ∀ p, d'.fileByte j p = fs.disk.fileByte j p := fun j hj =>
      fileByte_of_high (hdel.inode_ne j hj) hdel.byte
    -- another name is in another inode
    have hother : ∀ {j g}, strcmpEq (fs.disk.inode j).nameMem g = true → g ≠ f → j ≠ i := by
      rintro j g hg hgf rfl
      exact hgf (strcmpEq_unique hg hif)
    refine ⟨⟨0, []⟩, _, by rw [Ops.exec, hrun]; rfl, rfl, h.owned.effect heff,
      h.named.deleted hdel, ?_, ?_, ?_, ?_⟩
    · intro g bytes hg
      by_cases hgf : g = f
      · simp only [Spec.after, hgf, Spec.file_setFile_self] at hg
        cases hg
      · simp only [Spec.after, Spec.file_setFile_ne _ _ _ hgf] at hg
        obtain ⟨hgs, j, hheld⟩ := h.present hg
        have hj := hother hheld.name hgf
        exact ⟨hgs, j, hheld.keep (hdel.inode_ne j hj) (hkeep j hj)⟩
    · intro j g hj hg
      have hji : j ≠ i := by
        rintro rfl
        rw [Disk.InUse, hdel.status] at hj
        exact absurd hj (by decide)
      rw [Disk.InUse, hdel.inode_ne j hji] at hj
      rw [hdel.inode_ne j hji] at hg
      have hgf : g ≠ f := by
        rintro rfl
        exact hji (h.named.one hj hi hg hif)
      simp only [Spec.after, Spec.file_setFile_ne _ _ _ hgf]
      exact h.absent hj hg
    · intro k
      exact (hfree _).trans (h.free k)
    · intro k g o hk
      obtain ⟨hk, hgf⟩ := hlive _ _ _ hk
      obtain ⟨ho, hle, j, hj, huse, hg⟩ := h.live hk
      have hji := hother hg hgf
      exact ⟨ho, hle, j, hj, by rw [Disk.InUse, hdel.inode_ne j hji]; exact huse,
        by rw [hdel.inode_ne j hji]; exact hg⟩

theorem openFile (h : Refines fs spec) (u : Uninit) (f : CStr) :
    ∃ r fs', Ops.exec u fs (.openFile f) = .ok (r, fs') ∧ spec.Allows (.openFile f) r ∧
      Refines fs' (spec.after (.openFile f) r) := by
  rcases openFile_cases f h.owned.formatted with ⟨hrun, hwhy⟩ | ⟨i, k, hrun, hl, hk⟩
  · have hno : ¬ ((spec.file f).isSome ∧ ∃ k, spec.handle k = .free) := by
      rintro ⟨hex, k, hk⟩
      rcases hwhy with hnone | hall
      · rw [← h.lookup_isSome, hnone] at hex
        cases hex
      · exact hall k ((h.free k).mp hk)
    have hafter : spec.after (.openFile f) ⟨-1, []⟩ = spec := by
      have hnone : ∀ k : Fin 20, ¬ (k.val : Int) = -1 := fun k => by omega
      simp only [Spec.after, hnone, if_false]
    refine ⟨⟨-1, []⟩, fs, by rw [Ops.exec, hrun]; rfl, ⟨rfl, ?_, ?_⟩, by rw [hafter]; exact h⟩
    · exact ⟨fun hne => absurd rfl hne, fun hyes => absurd hyes hno⟩
    · exact fun hne => absurd rfl hne
  · obtain ⟨hi, hif⟩ := Inode.isFile_iff.mp (Disk.lookup_some hl)
    have hafter : spec.after (.openFile f) ⟨k.val, []⟩ = spec.setHandle k (.live f 0) := by
      simp only [Spec.after, Spec.setHandle, Spec.mk.injEq, true_and]
      funext k'
      by_cases hk' : k' = k
      · rw [hk', if_pos rfl, Function.update_self]
      · rw [if_neg (fun heq => hk' (Fin.ext (by omega))), Function.update_of_ne hk']
    refine ⟨⟨k.val, []⟩, _, by rw [Ops.exec, hrun]; rfl, ⟨rfl, ?_, ?_⟩, ?_⟩
    · refine ⟨fun _ => ⟨?_, k, (h.free k).mpr hk⟩, fun _ => by simp only; omega⟩
      rw [← h.lookup_isSome, hl]
      rfl
    · exact fun _ => ⟨k, rfl, (h.free k).mpr hk⟩
    · rw [hafter]
      refine h.set_handle ⟨fun heq => (by cases heq), fun heq => ?_⟩ ?_
      · exact absurd heq (ofInt_fin8_ne_neg_one i)
      · rintro g o hgo
        cases hgo
        exact ⟨rfl, by omega, i, rfl, hi, hif⟩

theorem close (h : Refines fs spec) (u : Uninit) (k : Fin 20) :
    ∃ r fs', Ops.exec u fs (.close k) = .ok (r, fs') ∧ spec.Allows (.close k) r ∧
      Refines fs' (spec.after (.close k) r) :=
  ⟨⟨0, []⟩, _, rfl, rfl, h.set_handle ⟨fun _ => rfl, fun _ => rfl⟩ fun _ _ hc => by cases hc⟩

theorem seek (h : Refines fs spec) (u : Uninit) {k : Fin 20} {nseek : Int32}
    (hop : spec.Appending (.seek k nseek)) :
    ∃ r fs', Ops.exec u fs (.seek k nseek) = .ok (r, fs') ∧ spec.Allows (.seek k nseek) r ∧
      Refines fs' (spec.after (.seek k nseek) r) := by
  obtain ⟨f, o, hl, hlow, hhigh⟩ := hop
  obtain ⟨ho, hle, i, hi, huse, hname⟩ := h.live hl
  have hadd : ((fs.fileHandleArray k).offset + nseek).toInt = o + nseek.toInt := by
    rw [toInt_add_of_fits (by omega) (by omega), ho]
  refine ⟨⟨0, []⟩, _, by rw [Ops.exec, seek_eq]; rfl, rfl, ?_⟩
  simp only [Spec.after, hl]
  refine h.set_handle ⟨fun heq => (by cases heq), fun heq => ?_⟩ ?_
  · have hb : (fs.fileHandleArray k).inodeNumber = Int32.ofInt i.val := hi
    rw [hb] at heq
    exact absurd heq (ofInt_fin8_ne_neg_one i)
  · rintro g o' hgo
    cases hgo
    refine ⟨?_, by omega, i, hi, huse, hname⟩
    rw [hadd]
    omega

theorem read (h : Refines fs spec) (u : Uninit) {k : Fin 20} {nbytes : Int32}
    (hop : spec.Appending (.read k nbytes)) :
    ∃ r fs', Ops.exec u fs (.read k nbytes) = .ok (r, fs') ∧ spec.Allows (.read k nbytes) r ∧
      Refines fs' (spec.after (.read k nbytes) r) := by
  obtain ⟨f, o, hl, hlow, hhigh⟩ := hop
  obtain ⟨ho, -⟩ := h.live hl
  obtain ⟨i, bytes, hbytes, -, hi, hheld⟩ := h.held_of_live hl
  have hadd : ((fs.fileHandleArray k).offset + nbytes).toInt = o + nbytes.toInt := by
    rw [toInt_add_of_fits (by omega) (by omega), ho]
  have hallows : ∀ r : Ret, r = (if 0 ≤ nbytes.toInt ∧ o + nbytes.toInt ≤ bytes.length then
      ⟨0, (bytes.drop o).take nbytes.toInt.toNat⟩ else ⟨-1, []⟩) →
      spec.Allows (.read k nbytes) r := by
    rintro r hr g o' bytes' hl' hb'
    obtain ⟨rfl, rfl⟩ : f = g ∧ o = o' := by
      have := hl.symm.trans hl'
      injection this with h1 h2
      exact ⟨h1, h2⟩
    obtain rfl : bytes = bytes' := Option.some.inj (hbytes.symm.trans hb')
    exact hr
  rcases read_cases u.temp nbytes h.owned hi with ⟨hrej, hrun⟩ | ⟨hacc, temp', hst, hrun⟩
  · rw [hadd, hheld.size] at hrej
    exact ⟨⟨-1, []⟩, fs, by rw [Ops.exec, hrun]; rfl, hallows _ (by rw [if_neg (by omega)]), h⟩
  · rw [hadd, hheld.size] at hacc
    refine ⟨⟨0, _⟩, fs, by rw [Ops.exec, hrun]; rfl, hallows _ ?_, h⟩
    rw [if_pos (by omega), Ret.mk.injEq]
    refine ⟨rfl, List.ext_getElem ?_ fun p hp hp' => ?_⟩
    · simp only [List.length_map, List.length_range, List.length_take, List.length_drop]
      omega
    · simp only [List.length_map, List.length_range] at hp
      -- no NUL stops the copy before `p`
      have hbyte : ∀ j, j ≤ p → ∃ hj : o + j < bytes.length,
          temp' ((fs.fileHandleArray k).offset.toInt + j) = bytes[o + j] := by
        intro j hj
        refine ⟨by omega, hst.fileByte ?_⟩
        rw [ho]
        exact hheld.byte (o + j) (by omega)
      rw [List.getElem_map, List.getElem_range, List.getElem_take, List.getElem_drop,
        strncpy_of_nonzero]
      · exact (hbyte p (Nat.le_refl p)).2
      · intro j hj hzero
        obtain ⟨hlt, hv⟩ := hbyte j hj
        rw [hv] at hzero
        exact hheld.nonzero (hzero ▸ List.getElem_mem hlt)

/-- A write at the end of a file appends. -/
theorem held_append {d d' : Disk} {i : Fin 8} {f : CStr} {bytes : List UInt8} {buf : Mem}
    {nbytes : Int32} {n : Nat} (hd : Owned d) (hf : Short f) (hheld : Held d i f bytes)
    (hn : nbytes.toInt = n) (hend : bytes.length + n ≤ 256) (hbuf : ∀ k < n, buf k ≠ 0)
    (hw : Wrote d d' i bytes.length n buf) :
    Held d' i f (bytes ++ Spec.written buf nbytes) := by
  have hwritten : Spec.written buf nbytes = (List.range n).map buf := by
    rw [Spec.written, hn, Int.toNat_natCast]
  have hlen : (bytes ++ Spec.written buf nbytes).length = bytes.length + n := by
    rw [hwritten, List.length_append, List.length_map, List.length_range]
  have hentry : ∀ c : Fin 4, (d'.inode i).directBlocks c ≠ -1 ↔
      64 * c.val < bytes.length + n := by
    intro c
    by_cases hc : (d.inode i).directBlocks c = -1
    · have hlow : ¬ 64 * c.val < bytes.length := fun hlt => (hheld.blocks c).mpr hlt hc
      by_cases hS : 64 * c.val < bytes.length + n
      · exact ⟨fun _ => hS, fun _ => hw.filled.filled c ⟨by omega, hS⟩⟩
      · rw [hw.filled.off c fun hx => hS hx.2, hc]
        exact ⟨fun hne => absurd rfl hne, fun hlt => absurd hlt hS⟩
    · have hlow := (hheld.blocks c).mp hc
      rw [hw.filled.keep c hc]
      exact ⟨fun _ => by omega, fun _ => hc⟩
  constructor
  · rw [Disk.InUse, hw.status]
    exact hheld.inUse
  · rw [Inode.strcmpEq_nameMem hf.2 hw.name]
    exact hheld.name
  · have hfits : (Int32.ofInt (n : Int)).toInt = n := toInt_ofInt_of_fits (by omega) (by omega)
    have hsize := hheld.size
    rw [hw.fileSize, toInt_add_of_fits (by omega) (by omega), hfits, hsize, hlen]
    omega
  · rw [hlen]
    exact hend
  · intro c
    rw [hlen]
    exact hentry c
  · intro p hp
    rw [hlen] at hp
    obtain ⟨c, k, hk, rfl⟩ : ∃ (c : Fin 4) (k : Nat), k < 64 ∧ p = 64 * c.val + k :=
      ⟨⟨p / 64, by omega⟩, p % 64, by omega, by simp only; omega⟩
    have hcast : ((64 * c.val + k : Nat) : Int) = 64 * c.val + k := by omega
    by_cases hold : 64 * c.val + k < bytes.length
    · -- an old byte: not touched, or in front of the offset in the partial block
      rw [List.getElem_append_left hold, ← hheld.byte _ hold, hcast]
      by_cases hT : Touched bytes.length n c
      · obtain ⟨b, hb⟩ := hd.owner_of_ne ((hheld.blocks c).mpr (by omega))
        have hb' : d'.owner (i, c) = some b := by
          rw [Disk.owner_eq_some, hw.filled.keep c ((hheld.blocks c).mpr (by omega))]
          exact Disk.owner_eq_some.mp hb
        rw [(hw.stored hd).fileByte_touched hT hb' hk, newByte, if_pos hold]
        exact (Disk.fileByte_eq_some.mpr ⟨c, b, k, hk, rfl, hb, rfl⟩).symm
      · exact (hw.stored hd).fileByte_untouched hT hk
    · -- a new byte
      have hT : Touched bytes.length n c := .inl ⟨by omega, by omega⟩
      obtain ⟨b, hb⟩ := (hd.wrote hheld.inUse hw).owner_of_ne ((hentry c).mpr (by omega))
      rw [hcast, (hw.stored hd).fileByte_touched hT hb hk, newByte, if_neg hold, if_pos hp,
        strncpy_of_nonzero, List.getElem_append_right (by omega)]
      · simp only [hwritten, List.getElem_map, List.getElem_range, view_apply]
        congr 2
        omega
      · intro j hj
        exact hbuf _ (by omega)
  · rw [hwritten, List.mem_append, List.mem_map]
    rintro (hz | ⟨k, hk, hz⟩)
    · exact hheld.nonzero hz
    · exact hbuf k (List.mem_range.mp hk) hz

theorem write (h : Refines fs spec) (u : Uninit) {k : Fin 20} {buf : Mem} {nbytes : Int32}
    (hop : spec.Appending (.write k buf nbytes)) :
    ∃ r fs', Ops.exec u fs (.write k buf nbytes) = .ok (r, fs') ∧
      spec.Allows (.write k buf nbytes) r ∧
      Refines fs' (spec.after (.write k buf nbytes) r) := by
  obtain ⟨f, bytes, hl, hbytes, hlow, hhigh, hbuf⟩ := hop
  obtain ⟨ho, hle, -⟩ := h.live hl
  obtain ⟨i, bytes', hbytes', hf, hi, hheld⟩ := h.held_of_live hl
  obtain rfl : bytes = bytes' := Option.some.inj (hbytes.symm.trans hbytes')
  have hplace : fs.InPlace k := by
    refine ⟨bytes.length, ho, hle, ?_⟩
    by_cases hal : bytes.length % 64 = 0
    · exact .inl hal
    · exact .inr ⟨i, ⟨bytes.length / 64, by omega⟩, hi, rfl, (hheld.blocks _).mpr (by
        simp only
        omega)⟩
  have hover : NoOverflow (fs.fileHandleArray k).offset nbytes := by
    rw [NoOverflow, ho]
    exact ⟨hlow, hhigh⟩
  obtain ⟨r, fs', hrun, heff⟩ :=
    write_returns u.tempBuf buf h.owned hi hheld.inUse hover hplace
  have hcall : Effect fs (.write k buf nbytes) ⟨r, []⟩ fs' := .write heff
  have howned := h.owned.effect hcall
  have hnamed : Named fs'.disk := h.named.effect (by rintro g ⟨⟩) hcall
  refine ⟨⟨r, []⟩, fs', by rw [Ops.exec, hrun]; rfl, ?_⟩
  rcases heff.outcome with ⟨rfl, hleak⟩ | ⟨rfl, j, o, n, hj, huse, hoff, hn, hend, hw⟩
  · have hafter : spec.after (.write k buf nbytes) ⟨-1, []⟩ = spec := by
      simp only [Spec.after, hl]
      exact if_neg (by decide)
    rw [hafter]
    refine ⟨.inr rfl, howned, hnamed, ?_, ?_, ?_, ?_⟩
    · intro g content hg
      obtain ⟨hgs, j, hgheld⟩ := h.present hg
      exact ⟨hgs, j, hgheld.keep (hleak.sbOnly.inode j) (hleak.fileByte j)⟩
    · intro j g hj hg
      rw [Disk.InUse, hleak.sbOnly.inode] at hj
      rw [hleak.sbOnly.inode] at hg
      exact h.absent hj hg
    · intro k'
      rw [heff.handles]
      exact h.free k'
    · intro k' g o hk
      simp only [FS.Bound, Disk.InUse, heff.handles, hleak.sbOnly.inode]
      exact h.live hk
  · obtain rfl := bound_unique hi hj
    obtain rfl : bytes.length = o := by omega
    have hafter : spec.after (.write k buf nbytes) ⟨0, []⟩ =
        spec.setFile f (some (bytes ++ Spec.written buf nbytes)) := by
      simp only [Spec.after, hl, hbytes, Option.map_some, if_true]
    have hothers : OthersKept fs.disk fs'.disk i := hw.othersKept h.owned huse
    have hname : ∀ j g, Short g → strcmpEq (fs'.disk.inode j).nameMem g =
        strcmpEq (fs.disk.inode j).nameMem g := by
      intro j g hg
      by_cases hji : j = i
      · rw [hji]
        exact Inode.strcmpEq_nameMem hg.2 hw.name
      · rw [hw.inode_ne j hji]
    have hstatus : ∀ j, (fs'.disk.inode j).status = (fs.disk.inode j).status := by
      intro j
      by_cases hji : j = i
      · rw [hji, hw.status]
      · rw [hw.inode_ne j hji]
    have hother : ∀ {j g}, strcmpEq (fs.disk.inode j).nameMem g = true → g ≠ f → j ≠ i := by
      rintro j g hg hgf rfl
      exact hgf (strcmpEq_unique hg hheld.name)
    rw [hafter]
    refine ⟨.inl ⟨rfl, by omega⟩, howned, hnamed, ?_, ?_, ?_, ?_⟩
    · intro g content hg
      by_cases hgf : g = f
      · rw [hgf, Spec.file_setFile_self, Option.some.injEq] at hg
        subst hg
        rw [hgf]
        exact ⟨hf, i, held_append h.owned hf hheld hn hend (fun l hl => hbuf l (by omega)) hw⟩
      · rw [Spec.file_setFile_ne _ _ _ hgf] at hg
        obtain ⟨hgs, j, hgheld⟩ := h.present hg
        have hj := hother hgheld.name hgf
        exact ⟨hgs, j, hgheld.keep (hw.inode_ne j hj) (hothers.fileByte hj)⟩
    · intro j g hj hg
      obtain ⟨g', hg', hgj⟩ := h.named.spelled j (by rw [Disk.InUse, ← hstatus]; exact hj)
      have hsome := h.absent (by rw [Disk.InUse, ← hstatus]; exact hj) hgj
      obtain rfl : g = g' := by
        apply strcmpEq_unique hg
        rw [hname j g' hg']
        exact hgj
      by_cases hgf : g = f
      · rw [hgf, Spec.file_setFile_self]
        rfl
      · rw [Spec.file_setFile_ne _ _ _ hgf]
        exact hsome
    · intro k'
      rw [heff.handles]
      exact h.free k'
    · intro k' g o hk
      obtain ⟨ho', hle', j, hj', huse', hg⟩ := h.live hk
      obtain ⟨g', hg', hgj⟩ := h.named.spelled j huse'
      obtain rfl : g = g' := strcmpEq_unique hg hgj
      rw [heff.handles]
      refine ⟨ho', hle', j, ?_, ?_, ?_⟩
      · rw [FS.Bound, heff.handles]
        exact hj'
      · rw [Disk.InUse, hstatus]
        exact huse'
      · rw [hname j g hg']
        exact hg

/-- **The step lemma.**  A call of an appending client returns, returns what the abstract file
    system allows, and leaves a file system that represents its next state. -/
theorem step (h : Refines fs spec) (u : Uninit) {op : Op} (hop : spec.Appending op) :
    ∃ r fs', Ops.exec u fs op = .ok (r, fs') ∧ spec.Allows op r ∧
      Refines fs' (spec.after op r) := by
  cases op with
  | create f => exact h.create u hop
  | delete f => exact h.delete u f
  | openFile f => exact h.openFile u f
  | close k => exact h.close u k
  | seek k nseek => exact h.seek u hop
  | read k nbytes => exact h.read u hop
  | write k buf nbytes => exact h.write u hop

theorem contents (h : Refines fs spec) : Contents fs.disk spec := by
  intro f _
  cases hf : spec.file f with
  | none =>
    simp only
    rw [← Option.not_isSome_iff_eq_none, h.lookup_isSome, hf]
    simp
  | some bytes =>
    obtain ⟨-, i, hheld⟩ := h.present hf
    exact ⟨i, h.named.lookup_eq hheld.inUse hheld.name, hheld.size, hheld.byte⟩

end Refines

/-! ## Whole runs -/

/-- SimpleFS beside the abstract file system. -/
def simplefsSpec : Lts (FS × Spec) Event :=
  simplefs.withGhost .empty fun _ spec e => spec.after e.op e.ret

theorem refines_start {s : FS × Spec} (h : simplefsSpec.start s) : Refines s.1 s.2 := by
  obtain ⟨⟨tempBuf, name, hrun⟩, hg⟩ := h
  obtain ⟨fs, hrun', hfresh⟩ := formatDisk_fresh tempBuf name
  obtain rfl : s.1 = fs := Except.ok.inj (hrun.symm.trans hrun')
  have hnot : ∀ i, ¬ s.1.disk.InUse i := by
    intro i hi
    rw [Disk.InUse, hfresh.status] at hi
    exact absurd hi (by decide)
  rw [hg]
  refine ⟨hfresh.owned, Named.start hfresh, fun hf => (by cases hf), ?_, ?_,
    fun hl => (by cases hl)⟩
  · intro i f hi
    exact absurd hi (hnot i)
  · intro h
    rw [hfresh.handle h]
    exact ⟨fun _ => rfl, fun _ => rfl⟩

/-- **The run lemma**: in every run of appending clients the disk is what the abstract state says. -/
theorem refines_of_reach {s : FS × Spec}
    (h : (simplefsSpec.guard fun s e => s.2.Appending e.op).Reach s) : Refines s.1 s.2 := by
  refine Lts.Reach.invariant (I := fun s => Refines s.1 s.2) ?_ ?_ h
  · intro s hs
    exact refines_start hs
  · rintro s e s' hi ⟨hop, hrun, hg⟩
    obtain ⟨r, fs', hrun', -, hnext⟩ := hi.step e.uninit hop
    obtain ⟨hr, hfs⟩ := Prod.mk.inj (Except.ok.inj (hrun'.symm.trans hrun))
    rw [hr, hfs] at hnext
    rw [hg]
    exact hnext

/-- **Refinement.**  In every state of a run of appending clients the disk holds what the abstract
    file system says, and every further call of such a client returns, with a value and data that
    the abstract file system allows, and leaves what it says then. -/
theorem append_refinement {s : FS × Spec}
    (h : (simplefsSpec.guard fun s e => s.2.Appending e.op).Reach s) :
    Contents s.1.disk s.2 ∧ (s.2.Full ↔ ∀ i, s.1.disk.InUse i) ∧
    ∀ u op, s.2.Appending op → ∃ r fs', Ops.exec u s.1 op = .ok (r, fs') ∧ s.2.Allows op r ∧
      Contents fs'.disk (s.2.after op r) := by
  have hi := refines_of_reach h
  refine ⟨hi.contents, hi.full_iff, fun u op hop => ?_⟩
  obtain ⟨r, fs', hrun, hallows, hnext⟩ := hi.step u hop
  exact ⟨r, fs', hrun, hallows, hnext.contents⟩

/-- A run of an appending client with the abstract file system beside it. -/
def runSpec : List Op → Option (FS × Spec) :=
  runCalls Prod.fst (fun s e d => (d, s.2.after e.op e.ret))
    (fun s e => decide (s.2.Appending e.op)) fun d => (d, .empty)

theorem runSpec_reach {l : List Op} {s : FS × Spec} (h : runSpec l = some s) :
    (simplefsSpec.guard fun s e => s.2.Appending e.op).Reach s := by
  refine runCalls_reach ?_ ?_ h
  · exact fun tempBuf name d hd => ⟨⟨tempBuf, name, hd⟩, rfl⟩
  · exact fun s e d _ hc hexec => ⟨of_decide_eq_true hc, hexec, rfl⟩

/-- Two files: 60 bytes and then 10, which go to two blocks, are appended to `"a"` and 5 to `"b"`,
    and the last 10 of `"a"` are read. -/
theorem append_refinement_read : ∃ s fs',
    (simplefsSpec.guard fun s e => s.2.Appending e.op).Reach s ∧
    s.2.file nameA = some (List.replicate 60 120 ++ List.replicate 10 121) ∧
    s.2.file nameB = some (List.replicate 5 122) ∧ Contents s.1.disk s.2 ∧
    Ops.exec .zero s.1 (.read 0 10) = .ok (⟨0, List.replicate 10 121⟩, fs') := by
  have hrun : (runSpec [.create nameA, .create nameB, .openFile nameA, .openFile nameB,
      .write 0 (fun _ => 120) 60, .seek 0 60, .write 0 (fun _ => 121) 10,
      .write 1 (fun _ => 122) 5]).map (fun s => (s.2.file nameA, s.2.file nameB, s.2.handle 0)) =
      some (some (List.replicate 60 120 ++ List.replicate 10 121),
        some (List.replicate 5 122), .live nameA 60) := by decide +kernel
  obtain ⟨s, hs, hfacts⟩ := Option.map_eq_some_iff.mp hrun
  simp only [Prod.mk.injEq] at hfacts
  obtain ⟨ha, hb, hhandle⟩ := hfacts
  have hreach := runSpec_reach hs
  obtain ⟨hcontents, -, hcall⟩ := append_refinement hreach
  obtain ⟨r, fs', hexec, hallows, -⟩ := hcall .zero (.read 0 10) ⟨nameA, 60, hhandle, by decide⟩
  refine ⟨s, fs', hreach, ha, hb, hcontents, ?_⟩
  have hread : r = ⟨0, List.replicate 10 121⟩ := hallows nameA 60 _ hhandle ha
  rw [hexec, hread]

end OsCodes.SimpleFS
