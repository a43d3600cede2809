/-
  Directories as maps.

  `execDir` is what the system calls do to a directory that they have locked.  As long as all goes
  through `dirlink` and `unlink` no two entries have the same name, and every run is a run of maps
  from names to inode numbers.

  1. `Named` is the invariant: the disk is as it should be (`Sane`), and every directory has whole
     entries with different names;
  2. `Named.step` compares one operation with the maps, and `Named.panics_iff` says when it
     panics, which is where a new entry has no place;
  3. `runs_of_names` is the refinement of runs, and `reach_names` the invariant with the condition
     for a panic, in every state that is reached.

  `.` and `..` are names like any other here; that `sys_unlink` refuses them is in `unlink`.
-/
import OsCodes.Xv6.Dirent

namespace OsCodes.Inodes

open Bytes Log

/-- The strings "." and "..". -/
def dots (n : Nat) : Mem := fun k => if k < n then 46 else 0

/-- What `sys_unlink` does to the directory, for a file that may go; `false` is its -1. -/
def unlink (dev : Devsw) (sb : Superblock) (d : Disk) (dp : Inode) (name : Mem) :
    Except String (Bool × Inode × Disk) :=
  if namecmp name (dots 1) = 0 ∨ namecmp name (dots 2) = 0 then .ok (false, dp, d)
  else do
    let r ← dirlookup dev sb d dp name
    match r.1 with
    | none => return (false, r.2)
    | some found =>
      -- `memset(&de, 0, sizeof(de))`
      let w ← writei dev sb r.2.2 r.2.1 (fun _ => 0) (UInt32.ofNat found.2) (UInt32.ofNat DIRENT)
      if w.1 ≠ some (UInt32.ofNat DIRENT) then .error "unlink: writei" else return (true, w.2)

/-- What the system calls do to a directory. -/
inductive DirOp (N : Nat)
  | dirlookup (i : Fin N) (name : Mem)
  | dirlink (i : Fin N) (name : Mem) (inum : Nat)
  | unlink (i : Fin N) (name : Mem)

/-- What an operation returns. -/
inductive DirAnswer
  | found (inum : Option Nat)
  | done (ok : Bool)
  deriving DecidableEq

/-- One call on the disk, of an inode as it is there. -/
def execDir (dev : Devsw) (sb : Superblock) (d : Disk) :
    DirOp sb.ninodes → Except String (DirAnswer × Disk)
  | .dirlookup i name => do
    let r ← dirlookup dev sb d (inode sb d i) name
    return (.found (r.1.map Prod.fst), r.2.2)
  | .dirlink i name inum => do
    let r ← dirlink dev sb d (inode sb d i) name inum
    return (.done r.1, r.2.2)
  | .unlink i name => do
    let r ← unlink dev sb d (inode sb d i) name
    return (.done r.1, r.2.2)

/-- `namex` gives directories only, and an inode number is an unsigned short. -/
def DirAllowed (sb : Superblock) (d : Disk) : DirOp sb.ninodes → Prop
  | .dirlookup i _ | .unlink i _ => (dinode sb d i).type = T_DIR
  | .dirlink i _ inum => (dinode sb d i).type = T_DIR ∧ 0 < inum ∧ inum < 65536

instance (sb : Superblock) (d : Disk) (op : DirOp sb.ninodes) : Decidable (DirAllowed sb d op) :=
  match op with
  | .dirlookup i _ | .unlink i _ => inferInstanceAs (Decidable ((dinode sb d i).type = T_DIR))
  | .dirlink i _ inum =>
    inferInstanceAs (Decidable ((dinode sb d i).type = T_DIR ∧ 0 < inum ∧ inum < 65536))

/-- The runs from the disk `d₀`. -/
def directories (dev : Devsw) (sb : Superblock) (d₀ : Disk) :
    Lts Disk (DirOp sb.ninodes × DirAnswer) where
  start d := d = d₀
  step d e d' := DirAllowed sb d e.1 ∧ execDir dev sb d e.1 = .ok (e.2, d')

/-! ## Maps -/

instance (p q : Mem) : Decidable (Same p q) := inferInstanceAs (Decidable (∀ k < DIRSIZ, _))

namespace NameMap

variable {N : Nat}

/-- `name` stands for `r` in directory `i`. -/
def set (g : Fin N → Mem → Option Nat) (i : Fin N) (name : Mem) (r : Option Nat) :
    Fin N → Mem → Option Nat :=
  Function.update g i fun n => if Same n name then r else g i n

/-- The same call on a table of names: no bytes, no entries, no blocks.  The names `.` and `..` can
    be linked but not unlinked. -/
def Step (g : Fin N → Mem → Option Nat) : DirOp N → DirAnswer → (Fin N → Mem → Option Nat) → Prop
  | .dirlookup i name, a, g' => a = .found (g i name) ∧ g' = g
  | .dirlink i name inum, a, g' =>
    if (g i name).isSome then a = .done false ∧ g' = g
    else a = .done true ∧ g' = set g i name (some inum)
  | .unlink i name, a, g' =>
    if Same name (dots 1) ∨ Same name (dots 2) ∨ g i name = none then a = .done false ∧ g' = g
    else a = .done true ∧ g' = set g i name none

/-- The runs from the maps `g₀`. -/
def system (g₀ : Fin N → Mem → Option Nat) :
    Lts (Fin N → Mem → Option Nat) (DirOp N × DirAnswer) where
  start g := g = g₀
  step g e g' := Step g e.1 e.2 g'

end NameMap

/-- The maps that the directories are. -/
def names (sb : Superblock) (d : Disk) : Fin sb.ninodes → Mem → Option Nat :=
  fun i => lookup (table sb d i).data

/-- Between two operations: in addition, the directories have whole entries with different names. -/
structure Named (sb : Superblock) (d : Disk) : Prop where
  sane : Sane sb d
  isDir : ∀ i, (table sb d i).type = T_DIR → IsDir (table sb d i)
  distinct : ∀ i, (table sb d i).type = T_DIR → Distinct (table sb d i).data

section Step

variable {dev : Devsw} {sb : Superblock} {d d' : Disk} {i : Fin sb.ninodes} {name : Mem}
  {op : DirOp sb.ninodes} {data : List UInt8}

/-- One directory has changed. -/
theorem Named.update (h : Named sb d) (hcons : Consistent sb d')
    (htable : table sb d' = Function.update (table sb d) i ((table sb d i).withData data))
    (htype : (table sb d i).type = T_DIR) (hwhole : DIRENT ∣ data.length)
    (hdistinct : Distinct data) : Named sb d' := by
  have hdir : IsDir ((table sb d i).withData data) := ⟨htype, hwhole⟩
  refine ⟨⟨hcons, ?_⟩, fun j hj => ?_, fun j hj => ?_⟩
  · rw [htable]
    -- a directory is in use
    refine h.sane.blank.update i fun hzero => ?_
    rw [hdir.type] at hzero
    cases hzero
  · rw [htable] at hj ⊢
    by_cases hji : j = i
    · rw [hji, Function.update_self]
      exact hdir
    · rw [Function.update_of_ne hji] at hj ⊢
      exact h.isDir j hj
  · rw [htable] at hj ⊢
    by_cases hji : j = i
    · rw [hji, Function.update_self]
      exact hdistinct
    · rw [Function.update_of_ne hji] at hj ⊢
      exact h.distinct j hj

theorem names_update {r : Option Nat}
    (htable : table sb d' = Function.update (table sb d) i ((table sb d i).withData data))
    (hsame : ∀ n, Same n name → lookup data n = r)
    (hother : ∀ n, ¬ Same n name → lookup data n = lookup (table sb d i).data n) :
    names sb d' = NameMap.set (names sb d) i name r := by
  funext j n
  rw [names, htable, NameMap.set]
  by_cases hji : j = i
  · subst hji
    rw [Function.update_self, Function.update_self]
    change lookup data n = _
    split
    · rename_i h
      exact hsame n h
    · rename_i h
      exact hother n h
  · rw [Function.update_of_ne hji, Function.update_of_ne hji]
    rfl

/-- What the write of `sys_unlink` does to the table. -/
theorem write_erased (dev : Devsw) (h : Consistent sb d) (htype : (table sb d i).type = T_DIR)
    {j : Nat} (hj : j < (table sb d i).data.length / DIRENT) :
    Spec.write dev (table sb d i) (fun _ => 0) (UInt32.ofNat (DIRENT * j)) (UInt32.ofNat DIRENT) =
      (some (UInt32.ofNat DIRENT), (table sb d i).withData (erased (table sb d i).data j)) := by
  have hmax := h.length_le i
  have hle := mul_le_of_lt hj
  have hn : (UInt32.ofNat DIRENT).toNat = DIRENT := rfl
  have hoff : (UInt32.ofNat (DIRENT * j)).toNat = DIRENT * j := by
    rw [UInt32.toNat_ofNat']
    simp only [MAXFILE, NDIRECT, NINDIRECT, BSIZE, DIRENT] at hmax hle ⊢
    omega
  have hdev : (table sb d i).type ≠ T_DEV := by
    rw [htype]
    decide
  have hno : ¬((Spec.refused (table sb d i) (UInt32.ofNat (DIRENT * j)) (UInt32.ofNat DIRENT) ||
      Spec.tooLarge (UInt32.ofNat (DIRENT * j)) (UInt32.ofNat DIRENT)) = true) := by
    rw [Spec.refused, Spec.tooLarge, hoff, hn, Bool.or_eq_true, Bool.or_eq_true,
      decide_eq_true_eq, decide_eq_true_eq, decide_eq_true_eq]
    simp only [MAXFILE, NDIRECT, NINDIRECT, BSIZE, DIRENT] at hmax hle ⊢
    omega
  rw [Spec.write, if_neg hdev, if_neg hno, hoff, hn]
  rfl

/-- **`unlink`** erases the entry, and never panics. -/
theorem unlink_of_entry (dev : Devsw) (h : Consistent sb d) (hdir : IsDir (table sb d i))
    (hdots : ¬(namecmp name (dots 1) = 0 ∨ namecmp name (dots 2) = 0)) {j : Nat}
    (hfirst : first (isEntry name) (table sb d i).data = some j) :
    ∃ d', unlink dev sb d (inode sb d i) name = .ok (true, inode sb d' i, d') ∧
      Consistent sb d' ∧ table sb d' = Function.update (table sb d) i
        ((table sb d i).withData (erased (table sb d i).data j)) := by
  have hj := (first_eq_some.mp hfirst).1
  have hwrite := write_erased dev h hdir.type hj
  have hexec : unlink dev sb d (inode sb d i) name =
      writei dev sb d (inode sb d i) (fun _ => 0) (UInt32.ofNat (DIRENT * j))
        (UInt32.ofNat DIRENT) >>= fun w =>
      if w.1 ≠ some (UInt32.ofNat DIRENT) then .error "unlink: writei" else pure (true, w.2) := by
    rw [unlink, if_neg hdots, dirlookup_eq h hdir, hfirst]
    rfl
  rcases @writei_table dev sb d h i (fun _ => 0) (UInt32.ofNat (DIRENT * j))
    (UInt32.ofNat DIRENT) with ⟨d', hok, hcons, htable⟩ | ⟨-, hfull⟩
  · rw [hwrite] at hok htable
    refine ⟨d', ?_, hcons, htable⟩
    rw [hexec, hok]
    rfl
  · -- the file keeps its length
    rw [hwrite] at hfull
    have hcost := blocks_update (table sb d) i
      ((table sb d i).withData (erased (table sb d i).data j))
    change _ = _ + need (erased _ j).length at hcost
    rw [length_erased hj] at hcost
    rw [Nat.add_right_cancel hcost] at hfull
    exact absurd hfull h.fits

/-- **One operation** on a directory is one on the maps. -/
theorem Named.step (h : Named sb d) (hallowed : DirAllowed sb d op) {a : DirAnswer}
    (hok : execDir dev sb d op = .ok (a, d')) :
    Named sb d' ∧ NameMap.Step (names sb d) op a (names sb d') := by
  have hcons := h.sane.consistent
  cases op with
  | dirlookup i name =>
    have hdir := h.isDir i hallowed
    rw [execDir, dirlookup_eq hcons hdir] at hok
    cases hok
    refine ⟨h, ?_, rfl⟩
    rw [names, lookup]
    cases first (isEntry name) (table sb d i).data with
    | none => rfl
    | some k => rfl
  | dirlink i name inum =>
    obtain ⟨htype, hpos, hlt⟩ := hallowed
    have hdir := h.isDir i htype
    by_cases hname : lookup (table sb d i).data name = none
    · rcases dirlink_cases dev hcons hdir inum hname with
        ⟨d₁, hlink, hcons₁, -, htable⟩ | ⟨⟨e, herr⟩, -⟩
      · rw [execDir, hlink] at hok
        cases hok
        have hmod : inum % 65536 = inum := Nat.mod_eq_of_lt hlt
        refine ⟨h.update hcons₁ htable htype (linked_whole hdir.whole name inum)
          ((h.distinct i htype).linked hname inum), ?_⟩
        rw [NameMap.Step, if_neg (by rw [names, hname]; exact Bool.false_ne_true)]
        refine ⟨rfl, names_update htable (fun n hn => ?_) fun n hn => lookup_linked_other hn⟩
        rw [lookup_linked_same hname (by omega) hn, hmod]
      · rw [execDir, herr] at hok
        cases hok
    · -- the name is there: -1
      rw [execDir, dirlink_of_present hcons hdir inum hname] at hok
      cases hok
      have hsome : (names sb d i name).isSome := Option.isSome_iff_ne_none.mpr hname
      refine ⟨h, ?_⟩
      rw [NameMap.Step, if_pos hsome]
      exact ⟨rfl, rfl⟩
  | unlink i name =>
    have hdir := h.isDir i hallowed
    by_cases hdots : namecmp name (dots 1) = 0 ∨ namecmp name (dots 2) = 0
    · rw [execDir, unlink, if_pos hdots] at hok
      cases hok
      rw [namecmp_eq_zero, namecmp_eq_zero] at hdots
      refine ⟨h, ?_⟩
      rw [NameMap.Step, if_pos (hdots.imp_right .inl)]
      exact ⟨rfl, rfl⟩
    · cases hfirst : first (isEntry name) (table sb d i).data with
      | none =>
        have hnone : names sb d i name = none := by rw [names, lookup, hfirst]; rfl
        rw [execDir, unlink, if_neg hdots, dirlookup_eq hcons hdir, hfirst] at hok
        cases hok
        refine ⟨h, ?_⟩
        rw [NameMap.Step, if_pos (.inr (.inr hnone))]
        exact ⟨rfl, rfl⟩
      | some j =>
        -- entry `j` is the only one with the name, so without it the name is gone
        have hsome : names sb d i name ≠ none := by
          rw [names, lookup, hfirst]
          exact Option.some_ne_none _
        obtain ⟨d₁, hunlink, hcons₁, htable⟩ := unlink_of_entry dev hcons hdir hdots hfirst
        rw [execDir, hunlink] at hok
        cases hok
        have hj := (first_eq_some.mp hfirst).1
        have hdistinct := h.distinct i hallowed
        rw [namecmp_eq_zero, namecmp_eq_zero] at hdots
        have hno : ¬(Same name (dots 1) ∨ Same name (dots 2) ∨ names sb d i name = none) := by
          rintro (hdot | hdot | hnone)
          · exact hdots (.inl hdot)
          · exact hdots (.inr hdot)
          · exact hsome hnone
        refine ⟨h.update hcons₁ htable hallowed (by rw [length_erased hj]; exact hdir.whole)
          (hdistinct.erased hj), ?_⟩
        rw [NameMap.Step, if_neg hno]
        exact ⟨rfl, names_update htable (fun n hn => lookup_erased_same hdistinct hfirst hn)
          fun n hn => lookup_erased_other hfirst hn⟩

/-- When an operation on a directory panics. -/
theorem Named.panics_iff (h : Named sb d) (hallowed : DirAllowed sb d op) :
    (∃ e, execDir dev sb d op = .error e) ↔ ∃ i name inum, op = .dirlink i name inum ∧
      lookup (table sb d i).data name = none ∧ Spec.Full sb (table sb d) i name inum := by
  have hcons := h.sane.consistent
  cases op with
  | dirlookup i name =>
    rw [execDir, dirlookup_eq hcons (h.isDir i hallowed)]
    refine iff_of_false ?_ ?_
    · rintro ⟨e, herr⟩
      cases herr
    · rintro ⟨j, n, v, heq, -⟩
      cases heq
  | dirlink i name inum =>
    have hdir := h.isDir i hallowed.1
    by_cases hname : lookup (table sb d i).data name = none
    · rcases dirlink_cases dev hcons hdir inum hname with
        ⟨d₁, hok, -, hfull, -⟩ | ⟨⟨e, herr⟩, hfull⟩
      · rw [execDir, hok]
        refine iff_of_false ?_ ?_
        · rintro ⟨e, herr⟩
          cases herr
        · rintro ⟨j, n, v, heq, -, hfull'⟩
          cases heq
          exact hfull hfull'
      · rw [execDir, herr]
        exact iff_of_true ⟨e, rfl⟩ ⟨i, name, inum, rfl, hname, hfull⟩
    · rw [execDir, dirlink_of_present hcons hdir inum hname]
      refine iff_of_false ?_ ?_
      · rintro ⟨e, herr⟩
        cases herr
      · rintro ⟨j, n, v, heq, hnone, -⟩
        cases heq
        exact hname hnone
  | unlink i name =>
    have hdir := h.isDir i hallowed
    refine iff_of_false ?_ ?_
    · rintro ⟨e, herr⟩
      by_cases hdots : namecmp name (dots 1) = 0 ∨ namecmp name (dots 2) = 0
      · rw [execDir, unlink, if_pos hdots] at herr
        cases herr
      · cases hfirst : first (isEntry name) (table sb d i).data with
        | none =>
          rw [execDir, unlink, if_neg hdots, dirlookup_eq hcons hdir, hfirst] at herr
          cases herr
        | some j =>
          obtain ⟨d₁, hok, -, -⟩ := unlink_of_entry dev hcons hdir hdots hfirst
          rw [execDir, hok] at herr
          cases herr
    · rintro ⟨j, n, v, heq, -⟩
      cases heq

end Step

/-! ## Runs on directories -/

section Run

variable {dev : Devsw} {sb : Superblock} {d₀ d : Disk} {g₀ : Fin sb.ninodes → Mem → Option Nat}
  {trs : List (Disk × (DirOp sb.ninodes × DirAnswer) × Disk)}

theorem Named.run (h : Named sb d) {d' : Disk} (hrun : (directories dev sb d₀).Run d trs d') :
    Named sb d' ∧ (NameMap.system g₀).Run (names sb d)
      (trs.map fun t => (names sb t.1, t.2.1, names sb t.2.2)) (names sb d') := by
  induction hrun with
  | nil d => exact ⟨h, .nil _⟩
  | cons hstep _ ih =>
    obtain ⟨h₁, hspec⟩ := h.step hstep.1 hstep.2
    obtain ⟨h', hrun'⟩ := ih h₁
    exact ⟨h', .cons hspec hrun'⟩

theorem reach_named (h : Named sb d₀) (hr : (directories dev sb d₀).Reach d) : Named sb d :=
  hr.invariant (fun _ heq => heq ▸ h) fun _ _ _ hnamed hstep => (hnamed.step hstep.1 hstep.2).1

/-- Whole entries of which none is in use. -/
def Vacant (f : File) : Prop :=
  DIRENT ∣ f.data.length ∧ ∀ k < f.data.length / DIRENT, isFree (entry f.data k)

instance (f : File) : Decidable (Vacant f) := inferInstanceAs (Decidable (_ ∧ _))

/-- Where no directory has a name, all are in order. -/
theorem Named.of_vacant (h : Sane sb d)
    (hvacant : ∀ i, (table sb d i).type = T_DIR → Vacant (table sb d i)) : Named sb d := by
  refine ⟨h, fun i hi => ⟨hi, (hvacant i hi).1⟩, fun i hi n j k hj _ hentry _ => ?_⟩
  have hfree := of_decide_eq_true ((hvacant i hi).2 j hj)
  exact absurd hfree (isEntry_iff.mp hentry).1

/-! ### Two directories -/

/-- Directory 1 has room for two names, 3 is empty, and the file has the other blocks. -/
def mkdirs : List (Op smallDisk.ninodes) :=
  [.ialloc T_DIR, .ialloc T_FILE, .ialloc T_DIR, .writei 2 text 0 8704, .writei 1 (fun _ => 0) 0 32]

/-- A name of one character. -/
def letter (c : UInt8) : Mem := fun k => if k = 0 then c else 0

/-- Names come and go: "c" is linked where "a" was, and the new "a" behind "b". -/
def linking : List (DirOp smallDisk.ninodes) :=
  [.dirlink 1 (letter 97) 2, .dirlink 1 (letter 98) 3, .dirlink 1 (letter 97) 3, .unlink 1 (dots 1),
    .unlink 1 (letter 97), .dirlookup 1 (letter 97), .dirlink 1 (letter 99) 2,
    .dirlookup 1 (letter 98), .dirlink 1 (letter 97) 3]

/-- The run on `d` that answers these calls. -/
def answeredDir (calls : List (DirOp smallDisk.ninodes)) (d : Disk) :
    Option (List DirAnswer × Disk) :=
  Lts.answers (fun d op => if DirAllowed smallDisk d op then
    (execDir noDevices smallDisk d op).toOption else none) calls d

theorem run_answeredDir {calls : List (DirOp smallDisk.ninodes)} {as : List DirAnswer}
    {d₁ : Disk} (h : answeredDir calls d₁ = some (as, d)) : ∃ trs,
      (directories noDevices smallDisk d₁).Run d₁ trs d ∧ trs.map (fun t => t.2.1) = calls.zip as := by
  refine Lts.Run.of_answers (fun s op a s' hok => ?_) h
  rw [Option.ite_none_right_eq_some] at hok
  exact ⟨hok.1, toOption_eq_some.mp hok.2⟩

/-- After `mkdirs` the directories are in order. -/
theorem mkdirs_named {as : List Answer} (h : answered mkdirs = some (as, d)) :
    Named smallDisk d := by
  have hfacts : (answered mkdirs).all fun s => decide (∀ i : Fin smallDisk.ninodes,
      (table smallDisk s.2 i).type = T_DIR → Vacant (table smallDisk s.2 i)) := by decide +kernel
  rw [h, Option.all_some, decide_eq_true_eq] at hfacts
  exact .of_vacant (reach_sane (formatted_sane smallDisk) (reach_answered h)) hfacts

end Run

end OsCodes.Inodes
