/-
  What `simplefs_create`, `simplefs_delete` and `simplefs_open` do to a disk whose metadata is
  in order.

  `Owned` is the order they keep: flags and statuses agree, block numbers are in range, blocks
  in use are referred to once and have been written.  The lemmas `create_cases`, `delete_ok` and
  `openFile_ok` are the only place where these functions are unfolded.

  The owner map takes a slot of an inode to the data block that its entry names; that no block is
  referred to twice is that this map is injective, and the general facts about it are those of
  `Lib.Ownership`.  `Owned` asks nothing of the names, which have an invariant of their own
  (`Named` in `Ownership`, `Filed` in `NameField`), and nothing of blocks that are marked used and
  belong to no file, which failed writes leave behind.
-/
import OsCodes.SimpleFS.Layout
import OsCodes.Lib.Ownership

namespace OsCodes.SimpleFS

open Bytes

/-! ## Block numbers -/

/-- The data block that an entry of `direct_blocks` names. -/
def blockOf (v : Int32) : Option (Fin 30) :=
  if h : 0 ≤ v.toInt ∧ v.toInt < 30 then some ⟨v.toInt.toNat, by omega⟩ else none

theorem toInt_ofInt_fin {n : Nat} (hn : n ≤ 100) (b : Fin n) :
    (Int32.ofInt (b.val : Int)).toInt = b.val := by
  have := b.isLt
  exact toInt_ofInt_of_fits (by omega) (by omega)

@[simp] theorem blockOf_neg_one : blockOf (-1) = none := by decide

@[simp] theorem blockOf_ofInt (b : Fin 30) : blockOf (Int32.ofInt b.val) = some b := by
  have hb := toInt_ofInt_fin (by omega) b
  have := b.isLt
  unfold blockOf
  rw [dif_pos (by omega)]
  congr 1
  apply Fin.ext
  simp [hb]

theorem blockOf_eq_some {v : Int32} {b : Fin 30} : blockOf v = some b ↔ v = Int32.ofInt b.val := by
  constructor
  · intro h
    unfold blockOf at h
    split at h
    · rename_i hr
      apply Int32.toInt_inj.mp
      rw [toInt_ofInt_fin (by omega) b]
      have hb : v.toInt.toNat = b.val := congrArg Fin.val (Option.some.inj h)
      omega
    · cases h
  · intro h
    rw [h, blockOf_ofInt]

theorem ofInt_fin_ne_neg_one (b : Fin 30) : Int32.ofInt b.val ≠ -1 := by
  intro h
  have hb := blockOf_ofInt b
  rw [h, blockOf_neg_one] at hb
  cases hb

/-! ## The order of the metadata -/

/-- The data block in slot `s.2` of inode `s.1`. -/
def Disk.owner (d : Disk) (s : Fin 8 × Fin 4) : Option (Fin 30) :=
  blockOf ((d.inode s.1).directBlocks s.2)

/-- Data block `b` is marked used in the freelist of the superblock. -/
def Disk.Used (d : Disk) (b : Fin 30) : Prop := d.sb.datablockFreelist b = flagUsed

/-- Inode `i` holds a file, as its status says. -/
def Disk.InUse (d : Disk) (i : Fin 8) : Prop := (d.inode i).status = inodeInUse

instance (d : Disk) (i : Fin 8) : Decidable (d.InUse i) :=
  inferInstanceAs (Decidable (_ = _))

theorem Disk.InUse.ne_free {d : Disk} {i : Fin 8} (h : d.InUse i) :
    (d.inode i).status ≠ inodeFree := by
  intro hf
  rw [Disk.InUse, hf] at h
  exact absurd h (by decide)

/-- The ownership invariant of the disk. -/
structure Owned (d : Disk) : Prop where
  formatted : d.Formatted
  status : ∀ i, d.sb.inodeFreelist i = flagUsed ∧ (d.inode i).status = inodeInUse ∨
    d.sb.inodeFreelist i = flagFree ∧ (d.inode i).status = inodeFree
  flag : ∀ b, d.sb.datablockFreelist b = flagFree ∨ d.sb.datablockFreelist b = flagUsed
  range : ∀ i c, (d.inode i).directBlocks c = -1 ∨
    ∃ b : Fin 30, (d.inode i).directBlocks c = Int32.ofInt b.val
  idle : ∀ i, (d.inode i).status = inodeFree → ∀ c, (d.inode i).directBlocks c = -1
  owns : Owns d.owner d.Used
  present : ∀ s b, d.owner s = some b → d.Present b

namespace Owned

variable {d : Disk}

theorem not_inUse (h : Owned d) {i : Fin 8} (hi : ¬ d.InUse i) : (d.inode i).status = inodeFree :=
  (h.status i).elim (fun hu => absurd hu.2 hi) fun hf => hf.2

theorem inUse_of_ne (h : Owned d) {i : Fin 8} (hi : (d.inode i).status ≠ inodeFree) :
    d.InUse i := (h.status i).elim (fun hu => hu.2) fun hf => absurd hf.2 hi

theorem flag_of_inUse (h : Owned d) {i : Fin 8} (hi : d.InUse i) :
    d.sb.inodeFreelist i = flagUsed :=
  (h.status i).elim (fun hu => hu.1) fun hf => absurd hf.2 hi.ne_free

/-- An entry that is not `-1` names a block. -/
theorem owner_of_ne (h : Owned d) {i : Fin 8} {c : Fin 4}
    (hc : (d.inode i).directBlocks c ≠ -1) : ∃ b, d.owner (i, c) = some b := by
  obtain ⟨b, hb⟩ := (h.range i c).resolve_left hc
  exact ⟨b, blockOf_eq_some.mpr hb⟩

end Owned

theorem Disk.owner_eq_some {d : Disk} {i : Fin 8} {c : Fin 4} {b : Fin 30} :
    d.owner (i, c) = some b ↔ (d.inode i).directBlocks c = Int32.ofInt b.val := blockOf_eq_some

theorem Fresh.owned {fs : FS} (h : Fresh fs) : Owned fs.disk where
  formatted := h.formatted
  status i := .inr ⟨h.inodeFlag i, h.status i⟩
  flag b := .inl (h.blockFlag b)
  range i c := .inl (h.noBlock i c)
  idle i _ c := h.noBlock i c
  owns :=
    { marked := by intro s b hs; rw [Disk.owner, h.noBlock, blockOf_neg_one] at hs; cases hs
      apart := by intro s t b hs; rw [Disk.owner, h.noBlock, blockOf_neg_one] at hs; cases hs }
  present s b hs := by rw [Disk.owner, h.noBlock, blockOf_neg_one] at hs; cases hs

/-! ## Names -/

theorem Inode.nameMem_lt {s : Inode} {k : Nat} (hk : k < 8) : s.nameMem k = s.name ⟨k, hk⟩ := by
  simp only [nameMem, view_apply, encode, show ¬ 4 + k < 4 by omega, show 4 + k < 12 by omega,
    dite_true, if_false, Nat.add_sub_cancel_left]

/-- For a name of at most 7 characters `strcmp` stays inside the field. -/
theorem Inode.strcmpEq_nameMem {s t : Inode} {filename : CStr} (hlen : filename.len ≤ 7)
    (hname : s.name = t.name) : strcmpEq s.nameMem filename = strcmpEq t.nameMem filename :=
  strcmpEq_congr fun k hk => by rw [nameMem_lt (by omega), nameMem_lt (by omega), hname]

/-- An inode whose name is empty has no name of positive length. -/
theorem Inode.strcmpEq_noName {s : Inode} {filename : CStr} (h0 : s.name 0 = 0)
    (hlen : 0 < filename.len) : strcmpEq s.nameMem filename = false :=
  strcmpEq_nul (by rw [nameMem_lt (by omega)]; exact h0) hlen

/-- `strcpy` of a string that fits into the struct leaves `status`. -/
theorem Inode.strcpyName_ok (inode : Inode) {s : CStr} (hlen : s.len ≤ 27) :
    ∃ t, inode.strcpyName s = .ok t ∧ t.status = inode.status ∧
      (s.len ≤ 7 → t.fileSize = inode.fileSize ∧ t.directBlocks = inode.directBlocks) ∧
      ∀ k : Fin 8, k.val ≤ s.len → t.name k = s.mem k := by
  have hback : Inode.decode inode.encode = inode := inode.decode_encode
  refine ⟨_, if_pos (by omega), ?_, fun h7 => ⟨?_, funext fun c => ?_⟩, fun k hk => ?_⟩
  · conv_rhs => rw [← hback]
    exact get32_congr fun k hk => blit_out (by omega)
  · conv_rhs => rw [← hback]
    exact get32_congr fun k hk => blit_out (by omega)
  · conv_rhs => rw [← hback]
    exact get32_congr fun k hk => blit_out (by omega)
  · simp only [decode]
    rw [blit_in (by omega), Nat.add_sub_cancel_left]

/-- A string that does not fit is refused. -/
theorem Inode.strcpyName_long (inode : Inode) {s : CStr} (hlen : 27 < s.len) :
    inode.strcpyName s = .error .bounds := if_neg (by omega)

/-! ## Searching the inodes -/

/-- The inode under a name, as the search loops find it. -/
def Disk.lookup (d : Disk) (filename : CStr) : Option (Fin 8) :=
  (List.finRange 8).find? fun i => (d.inode i).isFile filename

/-- The loop stops at the first hit. -/
theorem scanInodes_ok {d : Disk} (h : d.Formatted) (hit : Inode → Bool) :
    ∀ (is : List (Fin 8)) (z : Inode), ∃ last,
      scanInodes d hit is z = .ok (is.find? fun i => hit (d.inode i), last) ∧
      ∀ i, (is.find? fun i => hit (d.inode i)) = some i → last = d.inode i := by
  intro is
  induction is with
  | nil => intro z; exact ⟨z, rfl, by simp⟩
  | cons i is ih =>
    intro z
    by_cases hi : hit (d.inode i) = true
    · refine ⟨d.inode i, ?_, ?_⟩
      · simp only [scanInodes, readInode_ok h, ok_bind, hi, if_true, List.find?_cons_of_pos,
          pure_eq_ok]
      · intro j hj
        rw [List.find?_cons_of_pos (p := fun i => hit (d.inode i)) hi] at hj
        rw [Option.some.inj hj]
    · obtain ⟨last, hrun, hlast⟩ := ih (d.inode i)
      refine ⟨last, ?_, ?_⟩
      · simp only [scanInodes, readInode_ok h, ok_bind, hi, if_false, Bool.false_eq_true, hrun,
          List.find?_cons_of_neg, not_false_eq_true]
      · intro j hj
        rw [List.find?_cons_of_neg (p := fun i => hit (d.inode i)) hi] at hj
        exact hlast j hj

/-- Two tests that agree on the inodes of the disk stop the loop at the same place. -/
theorem scanInodes_congr {d : Disk} (h : d.Formatted) {hit hit' : Inode → Bool}
    (hh : ∀ i, hit (d.inode i) = hit' (d.inode i)) :
    ∀ (is : List (Fin 8)) (z : Inode), scanInodes d hit is z = scanInodes d hit' is z := by
  intro is
  induction is with
  | nil => intro z; rfl
  | cons i is ih =>
    intro z
    simp only [scanInodes, readInode_ok h, ok_bind, hh i, ih]

theorem Disk.lookup_eq_none {d : Disk} {filename : CStr} :
    d.lookup filename = none ↔ ∀ i, (d.inode i).isFile filename = false := by
  simp [Disk.lookup]

theorem Disk.lookup_some {d : Disk} {filename : CStr} {i : Fin 8}
    (h : d.lookup filename = some i) : (d.inode i).isFile filename = true :=
  List.find?_some (p := fun i => (d.inode i).isFile filename) h

/-- The search loop of the operations, on a formatted disk. -/
theorem scanInodes_lookup {d : Disk} (h : d.Formatted) (filename : CStr) (z : Inode) : ∃ last,
    scanInodes d (Inode.isFile filename) (List.finRange 8) z =
      .ok (d.lookup filename, last) ∧
    ∀ i, d.lookup filename = some i → last = d.inode i :=
  scanInodes_ok h (Inode.isFile filename) (List.finRange 8) z

theorem Inode.isFile_iff {s : Inode} {filename : CStr} :
    s.isFile filename = true ↔ s.status = inodeInUse ∧ strcmpEq s.nameMem filename = true := by
  simp [Inode.isFile]

/-! ## `simplefs_create` -/

/-- The disk after a new file got inode `i`. -/
def Disk.created (d : Disk) (tempBuf : Mem) (i : Fin 8) (new : Inode) : Disk :=
  (writeSuperBlock tempBuf (d.sb.setInodeFlag i flagUsed) d).setInode i new

/-- What the inode of a new file holds. -/
structure NewInode (new : Inode) (filename : CStr) : Prop where
  status : new.status = inodeInUse
  noBlock : ∀ c, new.directBlocks c = -1
  fileSize : filename.len ≤ 7 → new.fileSize = 0
  name : filename.len ≤ 7 → strcmpEq new.nameMem filename = true

/-- **`simplefs_create`.**  It refuses a name that exists and a ninth file, and otherwise takes a
    free inode; only a name that does not fit into an inode ends it. -/
theorem create_cases (tempBuf : Mem) (filename : CStr) {fs : FS} (h : fs.disk.Formatted) :
    (Ops.create tempBuf filename fs = .ok (none, fs) ∧
      ((fs.disk.lookup filename).isSome ∨ ∀ i, fs.disk.sb.inodeFreelist i ≠ flagFree)) ∨
    (∃ i new, Ops.create tempBuf filename fs =
        .ok (some i, { fs with disk := fs.disk.created tempBuf i new }) ∧
      fs.disk.lookup filename = none ∧ fs.disk.sb.inodeFreelist i = flagFree ∧
      NewInode new filename) ∨
    (Ops.create tempBuf filename fs = .error .bounds ∧ 27 < filename.len) := by
  obtain ⟨last, hscan, -⟩ := scanInodes_lookup h filename .unset
  simp only [Ops.create, hscan, ok_bind, pure_eq_ok]
  cases hl : fs.disk.lookup filename with
  | some i => exact .inl ⟨rfl, .inl rfl⟩
  | none =>
    simp only [Option.isSome_none, Bool.false_eq_true, if_false, allocInode_ok tempBuf h, ok_bind]
    cases ha : (List.finRange 8).find? fun i => decide (fs.disk.sb.inodeFreelist i = flagFree) with
    | none =>
      refine .inl ⟨rfl, .inr fun i hi => ?_⟩
      have := List.find?_eq_none.mp ha i (List.mem_finRange i)
      simp [hi] at this
    | some i =>
      have hfree : fs.disk.sb.inodeFreelist i = flagFree := by simpa using List.find?_some ha
      simp only
      by_cases hlen : filename.len ≤ 27
      · obtain ⟨t, hcpy, hst, hshort, hname⟩ :=
          Inode.strcpyName_ok { last with status := inodeInUse, fileSize := 0 } hlen
        refine .inr (.inl ⟨i, { t with directBlocks := fun _ => -1 }, ?_, trivial, hfree,
          hst, fun _ => rfl, fun h7 => (hshort h7).1, fun h7 => ?_⟩)
        · rw [hcpy, ok_bind, writeInode_ok, ok_bind]
          rfl
        · rw [strcmpEq_iff]
          intro k hk
          rw [Inode.nameMem_lt (by omega)]
          exact hname ⟨k, by omega⟩ hk
      · refine .inr (.inr ⟨?_, by omega⟩)
        rw [Inode.strcpyName_long _ (by omega), error_bind]

/-! ## Changes to the superblock alone -/

/-- From `d` to `d'` only the block of the superblock changed. -/
structure Disk.SbOnly (d d' : Disk) : Prop where
  size : d'.size = d.size
  byte : ∀ k, 64 ≤ k → d'.byte k = d.byte k

namespace Disk.SbOnly

variable {d d' d'' : Disk}

theorem refl (d : Disk) : SbOnly d d := ⟨rfl, fun _ _ => rfl⟩

theorem trans (h : SbOnly d d') (h' : SbOnly d' d'') : SbOnly d d'' :=
  ⟨h'.size.trans h.size, fun k hk => (h'.byte k hk).trans (h.byte k hk)⟩

theorem formatted (h : SbOnly d d') (hd : d.Formatted) : d'.Formatted := by
  rw [Formatted, h.size]; exact hd

theorem inode (h : SbOnly d d') (i : Fin 8) : d'.inode i = d.inode i :=
  inode_congr fun k hk _ => h.byte k (by omega)

theorem owner (h : SbOnly d d') : d'.owner = d.owner := by
  funext s
  rw [Disk.owner, Disk.owner, h.inode]

theorem block (h : SbOnly d d') (b : Fin 30) (k : Nat) : d'.block b k = d.block b k :=
  h.byte _ (by omega)

end Disk.SbOnly

theorem sbOnly_writeSuperBlock (tempBuf : Mem) (s : Superblock) {d : Disk} (hd : d.Formatted) :
    d.SbOnly (writeSuperBlock tempBuf s d) where
  size := by
    have : 320 ≤ d.size := hd
    rw [Disk.size_writeSuperBlock]
    omega
  byte _ hk := Disk.byte_writeSuperBlock tempBuf s d hk

/-! ## `simplefs_delete` -/

/-- Freeing the blocks of an inode: each is marked used when its turn comes, because no two
    slots name the same block. -/
theorem freeBlocks_ok (tempBuf : Nat → Mem) (inode : Inode)
    (hone : ∀ c c', inode.directBlocks c ≠ -1 → inode.directBlocks c = inode.directBlocks c' →
      c = c') :
    ∀ (cs : List (Fin 4)) (d : Disk), d.Formatted → cs.Nodup →
      (∀ c ∈ cs, inode.directBlocks c ≠ -1 →
        ∃ b : Fin 30, inode.directBlocks c = Int32.ofInt b.val ∧ d.Used b) →
      ∃ d', freeBlocks tempBuf inode cs d = .ok d' ∧ d.SbOnly d' ∧
        d'.sb.inodeFreelist = d.sb.inodeFreelist ∧
        (∀ b : Fin 30, (∃ c ∈ cs, inode.directBlocks c = Int32.ofInt b.val) →
          d'.sb.datablockFreelist b = flagFree) ∧
        ∀ b : Fin 30, (¬ ∃ c ∈ cs, inode.directBlocks c = Int32.ofInt b.val) →
          d'.sb.datablockFreelist b = d.sb.datablockFreelist b := by
  intro cs
  induction cs with
  | nil => intro d _ _ _; exact ⟨d, rfl, .refl d, rfl, by simp, fun _ _ => rfl⟩
  | cons c cs ih =>
    intro d hd hnd hused
    obtain ⟨hc, hnd⟩ := List.nodup_cons.mp hnd
    by_cases hempty : inode.directBlocks c = -1
    · obtain ⟨d', hrun, hsb, hif, hfreed, hkept⟩ :=
        ih d hd hnd fun c' hc' => hused c' (List.mem_cons_of_mem _ hc')
      have hrest : ∀ b : Fin 30, (∃ c' ∈ c :: cs, inode.directBlocks c' = Int32.ofInt b.val) ↔
          ∃ c' ∈ cs, inode.directBlocks c' = Int32.ofInt b.val := by
        intro b
        have hb : inode.directBlocks c ≠ Int32.ofInt b.val := by
          rw [hempty]; exact (ofInt_fin_ne_neg_one b).symm
        simp only [List.mem_cons, or_and_right, exists_or, exists_eq_left, hb, false_or]
      refine ⟨d', by simp only [freeBlocks, hempty, ne_eq, not_true, if_false, hrun], hsb, hif,
        fun b hb => hfreed b ((hrest b).mp hb), fun b hb => hkept b fun hb' => ?_⟩
      exact hb ((hrest b).mpr hb')
    · obtain ⟨b₀, hb₀, hu₀⟩ := hused c List.mem_cons_self hempty
      have hstep : freeDataBlock (tempBuf c) (inode.directBlocks c).toInt d =
          .ok (writeSuperBlock (tempBuf c) (d.sb.setBlockFlag b₀ flagFree) d) := by
        rw [hb₀, toInt_ofInt_fin (by omega)]
        exact freeDataBlock_ok (tempBuf c) hd hu₀
      have hsb₁ := sbOnly_writeSuperBlock (tempBuf c) (d.sb.setBlockFlag b₀ flagFree) hd
      obtain ⟨d', hrun, hsb, hif, hfreed, hkept⟩ :=
        ih (writeSuperBlock (tempBuf c) (d.sb.setBlockFlag b₀ flagFree) d) (hsb₁.formatted hd) hnd
          (by
            intro c' hc' hne
            obtain ⟨b, hb, hu⟩ := hused c' (List.mem_cons_of_mem _ hc') hne
            refine ⟨b, hb, ?_⟩
            have hbb : b ≠ b₀ := by
              rintro rfl
              exact hc (hone c c' hempty (by rw [hb₀, hb]) ▸ hc')
            rw [Disk.Used, Disk.sb_writeSuperBlock, Superblock.setBlockFlag_ne _ _ _ hbb]
            exact hu)
      have hrest : ∀ b : Fin 30, (∃ c' ∈ c :: cs, inode.directBlocks c' = Int32.ofInt b.val) ↔
          b = b₀ ∨ ∃ c' ∈ cs, inode.directBlocks c' = Int32.ofInt b.val := by
        intro b
        have hb : inode.directBlocks c = Int32.ofInt b.val ↔ b = b₀ := by
          rw [hb₀]
          refine ⟨fun heq => ?_, fun heq => by rw [heq]⟩
          have hblk := blockOf_ofInt b₀
          rw [heq, blockOf_ofInt] at hblk
          exact Option.some.inj hblk
        simp only [List.mem_cons, or_and_right, exists_or, exists_eq_left, hb]
      refine ⟨d', ?_, hsb₁.trans hsb, ?_, fun b hb => ?_, fun b hb => ?_⟩
      · simp only [freeBlocks, ne_eq, hempty, not_false_eq_true, if_true, hstep, ok_bind, hrun]
      · rw [hif, Disk.sb_writeSuperBlock]
        rfl
      · by_cases hin : ∃ c' ∈ cs, inode.directBlocks c' = Int32.ofInt b.val
        · exact hfreed b hin
        · obtain rfl : b = b₀ := ((hrest b).mp hb).resolve_right hin
          rw [hkept b hin, Disk.sb_writeSuperBlock, Superblock.setBlockFlag_self]
      · have hne : b ≠ b₀ := fun heq => hb ((hrest b).mpr (.inl heq))
        rw [hkept b fun hin => hb ((hrest b).mpr (.inr hin)), Disk.sb_writeSuperBlock,
          Superblock.setBlockFlag_ne _ _ _ hne]

/-- What deleting the file in inode `i` makes of the disk. -/
structure Deleted (d d' : Disk) (i : Fin 8) : Prop where
  size : d.size ≤ d'.size
  byte : ∀ k, 320 ≤ k → d'.byte k = d.byte k
  inode_ne : ∀ j, j ≠ i → d'.inode j = d.inode j
  status : (d'.inode i).status = inodeFree
  noName : (d'.inode i).name 0 = 0
  noBlock : ∀ c, (d'.inode i).directBlocks c = -1
  inodeFlag : d'.sb.inodeFreelist = Function.update d.sb.inodeFreelist i flagFree
  blockFlag : ∀ b : Fin 30, d'.sb.datablockFreelist b =
    if ∃ c, (d.inode i).directBlocks c = Int32.ofInt b.val then flagFree
    else d.sb.datablockFreelist b

/-- **`simplefs_delete`.**  On a disk in order it returns: no `assert` behind it fires. -/
theorem delete_ok (tempBuf : Nat → Mem) (filename : CStr) {fs : FS} (h : Owned fs.disk) :
    (Ops.delete tempBuf filename fs = .ok fs ∧ fs.disk.lookup filename = none) ∨
    ∃ i d', Ops.delete tempBuf filename fs = .ok { fs with disk := d' } ∧
      fs.disk.lookup filename = some i ∧ Deleted fs.disk d' i := by
  obtain ⟨last, hscan, hlast⟩ := scanInodes_lookup h.formatted filename .unset
  simp only [Ops.delete, hscan, ok_bind, pure_eq_ok]
  cases hl : fs.disk.lookup filename with
  | none => exact .inl ⟨rfl, rfl⟩
  | some i =>
    obtain rfl := hlast i hl
    have huse : fs.disk.InUse i := (Inode.isFile_iff.mp (Disk.lookup_some hl)).1
    have hone : ∀ c c', (fs.disk.inode i).directBlocks c ≠ -1 →
        (fs.disk.inode i).directBlocks c = (fs.disk.inode i).directBlocks c' → c = c' := by
      intro c c' hne heq
      obtain ⟨b, hb⟩ := h.owner_of_ne hne
      have hb' : fs.disk.owner (i, c') = some b := by rw [← hb, Disk.owner, Disk.owner, heq]
      exact congrArg Prod.snd (h.owns.apart hb hb')
    obtain ⟨d₁, hfree, hsb₁, hif₁, hfreed, hkept⟩ :=
      freeBlocks_ok tempBuf (fs.disk.inode i) hone (List.finRange 4) fs.disk h.formatted
        (List.nodup_finRange 4) (by
          intro c _ hne
          obtain ⟨b, hb⟩ := h.owner_of_ne hne
          exact ⟨b, Disk.owner_eq_some.mp hb, h.owns.marked hb⟩)
    obtain ⟨t, hcpy, -, -, hname⟩ :=
      Inode.strcpyName_ok (fs.disk.inode i) (s := CStr.empty) (by decide)
    have hd₁ : d₁.Formatted := hsb₁.formatted h.formatted
    have hd₂ : (d₁.setInode i t).Formatted := by
      have : 320 ≤ d₁.size := hd₁
      rw [Disk.Formatted, Disk.size_setInode]
      omega
    have hflag : (d₁.setInode i t).sb.inodeFreelist i = flagUsed := by
      rw [Disk.sb_setInode, hif₁]
      exact h.flag_of_inUse huse
    have hrun := freeInode_ok (tempBuf 4) hd₂ hflag
    refine .inr ⟨i, (writeSuperBlock (tempBuf 4)
        ((d₁.setInode i t).sb.setInodeFlag i flagFree) (d₁.setInode i t)).setInode i
        { (d₁.setInode i t).inode i with
          status := inodeFree, fileSize := 0, directBlocks := fun _ => -1 }, ?_, rfl, ?_⟩
    · simp only [hfree, hcpy, writeInode_ok, hrun, ok_bind]
    · constructor
      · simp only [Disk.size_setInode, Disk.size_writeSuperBlock, hsb₁.size]
        omega
      · intro k hk
        rw [Disk.byte_setInode _ _ _ (by omega), Disk.byte_writeSuperBlock _ _ _ (by omega),
          Disk.byte_setInode _ _ _ (by omega), hsb₁.byte k (by omega)]
      · intro j hj
        rw [Disk.inode_setInode_ne _ _ _ hj, Disk.inode_writeSuperBlock,
          Disk.inode_setInode_ne _ _ _ hj, hsb₁.inode]
      · rw [Disk.inode_setInode_self]
      · rw [Disk.inode_setInode_self, Disk.inode_setInode_self]
        exact hname 0 (Nat.zero_le _)
      · intro c
        rw [Disk.inode_setInode_self]
      · rw [Disk.sb_setInode, Disk.sb_writeSuperBlock, Disk.sb_setInode,
          Superblock.inodeFreelist_setInodeFlag, hif₁]
      · intro b
        rw [Disk.sb_setInode, Disk.sb_writeSuperBlock, Disk.sb_setInode,
          Superblock.datablockFreelist_setInodeFlag]
        simp only [List.mem_finRange, true_and] at hfreed hkept
        split
        · exact hfreed b ‹_›
        · exact hkept b ‹_›

/-! ## `simplefs_open` -/

/-- **`simplefs_open`.**  It binds the first free handle to the inode under the name. -/
theorem openFile_cases (filename : CStr) {fs : FS} (h : fs.disk.Formatted) :
    (Ops.openFile filename fs = .ok (none, fs) ∧
      (fs.disk.lookup filename = none ∨ ∀ k, (fs.fileHandleArray k).inodeNumber ≠ -1)) ∨
    ∃ i k, Ops.openFile filename fs =
        .ok (some k, fs.setHandle k { offset := 0, inodeNumber := Int32.ofInt i.val }) ∧
      fs.disk.lookup filename = some i ∧ (fs.fileHandleArray k).inodeNumber = -1 := by
  obtain ⟨last, hscan, -⟩ := scanInodes_lookup h filename .unset
  simp only [Ops.openFile, hscan, ok_bind, pure_eq_ok]
  cases hl : fs.disk.lookup filename with
  | none => exact .inl ⟨rfl, .inl rfl⟩
  | some i =>
    simp only [Ops.bindHandle]
    cases hf : (List.finRange 20).find? fun k =>
        decide ((fs.fileHandleArray k).inodeNumber = -1) with
    | none =>
      refine .inl ⟨rfl, .inr fun k hk => ?_⟩
      have := List.find?_eq_none.mp hf k (List.mem_finRange k)
      simp [hk] at this
    | some k => exact .inr ⟨i, k, rfl, rfl, by simpa using List.find?_some hf⟩

end OsCodes.SimpleFS
