/-
  Directories.

  The data of a directory are entries of 16 bytes: an inode number, 0 where the entry is free, and
  a name that `strncpy` has filled with NULs.  `dirlookup` and `dirlink` are the two loops over
  them; `lookup` is the map from names to inode numbers that they keep.

  `strncmp` stops where both names end, and `strncpy` pads with NULs, so two names are the same to
  a directory when their first 14 bytes up to a NUL are (`Same`).  `scan_first` puts the loops in
  terms of the entries: `dirlookup` finds the first entry with the name, and `dirlink` the first
  free one, or the place behind the last.  A panic of `dirlink` is a write that does not go
  through (`Spec.Full`).
-/
import OsCodes.Xv6.InodeRun

namespace OsCodes.Inodes

open Bytes Log

/-- `strncmp` of string.c. -/
def strncmp (p q : Mem) : Nat → Int
  | 0 => 0
  | n + 1 =>
    if p 0 ≠ 0 ∧ p 0 = q 0 then strncmp (view p 1) (view q 1) n else (p 0).toNat - (q 0).toNat

abbrev DIRSIZ : Nat := 14

/-- `sizeof(struct dirent)`. -/
abbrev DIRENT : Nat := 16

namespace Dirent

/-- `de.inum`. -/
def inum (de : List UInt8) : Nat := (de.getD 0 0).toNat + 256 * (de.getD 1 0).toNat

/-- `de.name`. -/
def name (de : List UInt8) : Mem := fun k => de.getD (2 + k) 0

/-- The bytes of `de` after `strncpy(de.name, name, DIRSIZ)` and `de.inum = inum`. -/
def fill (name : Mem) (inum : Nat) : Mem
  | 0 => UInt8.ofNat inum
  | 1 => UInt8.ofNat (inum / 256)
  | k + 2 => strncpy name k

end Dirent

/-- Names are equal when they agree up to their NULs, or in all 14 bytes. -/
def namecmp (s t : Mem) : Int := strncmp s t DIRSIZ

/-- The loops of `dirlookup` and `dirlink`: the entry at which they stop, if any, and `off`. -/
def scan (dev : Devsw) (sb : Superblock) (message : String) (stop : List UInt8 → Bool)
    (size off : Nat) (dp : Inode) (d : Disk) :
    Except String (Option (List UInt8) × Nat × Inode × Disk) :=
  if _h : off < size then do
    let r ← readi dev sb d dp (UInt32.ofNat off) (UInt32.ofNat DIRENT)
    match r.1 with
    | none => .error message
    | some de =>
      -- the directory ends inside the entry
      if de.length ≠ DIRENT then .error message
      else if stop de then return (some de, off, r.2)
      else scan dev sb message stop size (off + DIRENT) r.2.1 r.2.2
  else return (none, off, dp, d)
termination_by size - off
decreasing_by
  have : 0 < DIRENT := by decide
  omega

/-- The entry is in use and has this name. -/
def isEntry (name : Mem) (de : List UInt8) : Bool :=
  decide (Dirent.inum de ≠ 0) && decide (namecmp name (Dirent.name de) = 0)

/-- An entry with inode number 0 may be taken by `dirlink`. -/
def isFree (de : List UInt8) : Bool := decide (Dirent.inum de = 0)

/-- The inode number and the offset of the entry. -/
def dirlookup (dev : Devsw) (sb : Superblock) (d : Disk) (dp : Inode) (name : Mem) :
    Except String (Option (Nat × Nat) × Inode × Disk) :=
  if dp.type ≠ T_DIR then .error "dirlookup not DIR"
  else do
    let r ← scan dev sb "dirlookup read" (isEntry name) dp.size.toNat 0 dp d
    return (r.1.map fun de => (Dirent.inum de, r.2.1), r.2.2)

/-- The result is -1 for `false`. -/
def dirlink (dev : Devsw) (sb : Superblock) (d : Disk) (dp : Inode) (name : Mem) (inum : Nat) :
    Except String (Bool × Inode × Disk) := do
  let r ← dirlookup dev sb d dp name
  if r.1.isSome then return (false, r.2)
  else do
    let s ← scan dev sb "dirlink read" isFree dp.size.toNat 0 r.2.1 r.2.2
    -- at the end of the directory when no entry is free
    let w ← writei dev sb s.2.2.2 s.2.2.1 (Dirent.fill name inum) (UInt32.ofNat s.2.1)
      (UInt32.ofNat DIRENT)
    if w.1 ≠ some (UInt32.ofNat DIRENT) then .error "dirlink" else return (true, w.2)

/-! ## Names -/

section Names

variable {p q name : Mem} {n k : Nat}

theorem strncpy_zero (p : Mem) : strncpy p 0 = p 0 := by
  rw [strncpy]
  split
  · rfl
  · rename_i h
    by_contra hp
    refine h fun j hj => ?_
    rw [Nat.le_zero.mp hj]
    exact fun h0 => hp h0.symm

theorem strncpy_succ (h : p 0 ≠ 0) (k : Nat) : strncpy p (k + 1) = strncpy (view p 1) k := by
  have hiff : (∀ j, j ≤ k + 1 → p j ≠ 0) ↔ ∀ j, j ≤ k → view p 1 j ≠ 0 := by
    constructor
    · intro hall j hj
      rw [view_apply]
      exact hall (1 + j) (by omega)
    · intro hall j hj
      cases j with
      | zero => exact h
      | succ j =>
        have hj' := hall j (by omega)
        rwa [view_apply, Nat.add_comm] at hj'
  rw [strncpy, strncpy, view_apply, Nat.add_comm 1 k]
  by_cases hall : ∀ j, j ≤ k + 1 → p j ≠ 0
  · rw [if_pos hall, if_pos (hiff.mp hall)]
  · rw [if_neg hall, if_neg fun hall' => hall (hiff.mpr hall')]

theorem strncpy_of_zero (h : p 0 = 0) (k : Nat) : strncpy p k = 0 :=
  if_neg fun hall => hall 0 (Nat.zero_le k) h

/-- Names are equal for `strncmp` when `strncpy` stores the same. -/
theorem strncmp_eq_zero (p q : Mem) (n : Nat) :
    strncmp p q n = 0 ↔ ∀ k < n, strncpy p k = strncpy q k := by
  induction n generalizing p q with
  | zero => exact iff_of_true rfl fun k hk => absurd hk (Nat.not_lt_zero k)
  | succ n ih =>
    rw [strncmp]
    by_cases h : p 0 ≠ 0 ∧ p 0 = q 0
    · have hq : q 0 ≠ 0 := h.2 ▸ h.1
      rw [if_pos h, ih]
      constructor
      · intro hall k hk
        cases k with
        | zero => rw [strncpy_zero, strncpy_zero, h.2]
        | succ k => rw [strncpy_succ h.1, strncpy_succ hq, hall k (by omega)]
      · intro hall k hk
        have hk' := hall (k + 1) (by omega)
        rwa [strncpy_succ h.1, strncpy_succ hq] at hk'
    · -- the strings end here, or differ
      rw [if_neg h]
      constructor
      · intro hdiff k _
        have heq : p 0 = q 0 := UInt8.toNat_inj.mp (by omega)
        have hp : p 0 = 0 := by
          by_contra hp
          exact h ⟨hp, heq⟩
        rw [strncpy_of_zero hp, strncpy_of_zero (heq ▸ hp)]
      · intro hall
        have h0 := hall 0 (Nat.succ_pos n)
        rw [strncpy_zero, strncpy_zero] at h0
        rw [h0]
        omega

/-- The same name: equal up to a NUL, or in all that an entry keeps. -/
def Same (p q : Mem) : Prop := ∀ k < DIRSIZ, strncpy p k = strncpy q k

theorem namecmp_eq_zero : namecmp p q = 0 ↔ Same p q := strncmp_eq_zero p q DIRSIZ

theorem strncpy_strncpy (p : Mem) : strncpy (strncpy p) = strncpy p := by
  funext k
  by_cases h : ∀ j, j ≤ k → p j ≠ 0
  · have hcopy : ∀ j, j ≤ k → strncpy p j = p j :=
      fun j hj => strncpy_of_nonzero fun i hi => h i (Nat.le_trans hi hj)
    exact strncpy_of_nonzero fun j hj => by rw [hcopy j hj]; exact h j hj
  · -- behind the first NUL
    have hzero : strncpy p k = 0 := if_neg h
    rw [hzero]
    exact if_neg fun hall => hall k (Nat.le_refl k) hzero

end Names

/-! ## The entries of a directory -/

/-- Entry `k`. -/
def entry (data : List UInt8) (k : Nat) : List UInt8 := (data.drop (DIRENT * k)).take DIRENT

/-- The first entry with `p`. -/
def first (p : List UInt8 → Bool) (data : List UInt8) : Option Nat :=
  (List.range (data.length / DIRENT)).find? fun k => p (entry data k)

/-- The inode number that the directory has for a name. -/
def lookup (data : List UInt8) (name : Mem) : Option Nat :=
  (first (isEntry name) data).map fun k => Dirent.inum (entry data k)

section Entries

variable {data bytes de : List UInt8} {p : List UInt8 → Bool} {name name' : Mem} {j k m n : Nat}

theorem length_entry (h : DIRENT * (k + 1) ≤ data.length) : (entry data k).length = DIRENT := by
  rw [entry, List.length_take, List.length_drop]
  simp only [DIRENT] at h ⊢
  omega

/-- One entry is written. -/
theorem entry_overwrite (hj : DIRENT * j ≤ data.length) (hbytes : bytes.length = DIRENT) (k : Nat) :
    entry (overwrite data (DIRENT * j) bytes) k = if k = j then bytes else entry data k := by
  refine List.ext_getElem? fun i => ?_
  rw [entry, overwrite]
  simp only [DIRENT] at hj hbytes
  by_cases hkj : k = j
  · rw [if_pos hkj, hkj]
    simp only [List.getElem?_take, List.getElem?_drop, List.getElem?_append, List.length_append,
      List.length_take, DIRENT]
    by_cases hi : i < 16
    · rw [if_pos hi, if_pos (by omega), if_neg (by omega)]
      congr 1
      omega
    · rw [if_neg hi, List.getElem?_eq_none (by omega)]
  · rw [if_neg hkj, entry]
    simp only [List.getElem?_take, List.getElem?_drop, List.getElem?_append, List.length_append,
      List.length_take, DIRENT]
    by_cases hi : i < 16
    · rw [if_pos hi, if_pos hi]
      -- before what is written, or behind it
      rcases Nat.lt_or_gt_of_ne hkj with hlt | hgt
      · have hle : 16 * (k + 1) ≤ 16 * j := Nat.mul_le_mul_left _ hlt
        rw [if_pos (by omega), if_pos (by omega), if_pos (by omega)]
      · have hle : 16 * (j + 1) ≤ 16 * k := Nat.mul_le_mul_left _ hgt
        rw [if_neg (by omega)]
        congr 1
        omega
    · rw [if_neg hi, if_neg hi]

theorem Dirent.inum_fill (name : Mem) (i : Nat) :
    Dirent.inum ((List.range DIRENT).map (Dirent.fill name i)) = i % 65536 := by
  change (UInt8.ofNat i).toNat + 256 * (UInt8.ofNat (i / 256)).toNat = _
  rw [UInt8.toNat_ofNat', UInt8.toNat_ofNat']
  omega

/-- The name that an entry gets is the one that it is given. -/
theorem Dirent.same_fill (name name' : Mem) (i : Nat) :
    Same name' (Dirent.name ((List.range DIRENT).map (Dirent.fill name i))) ↔ Same name' name := by
  have hname : ∀ k < DIRSIZ,
      strncpy (Dirent.name ((List.range DIRENT).map (Dirent.fill name i))) k = strncpy name k := by
    intro k hk
    rw [← strncpy_strncpy name]
    -- the bytes of the entry are those that `strncpy` has stored, and it stores them again
    refine strncpy_congr fun l hl => ?_
    have hlt : 2 + l < DIRENT := by
      change 2 + l < 16
      change k < 14 at hk
      omega
    rw [Dirent.name, List.getD_eq_getElem?_getD, List.getElem?_map, List.getElem?_range hlt,
      Nat.add_comm 2 l]
    rfl
  constructor
  · intro h k hk
    rw [h k hk, hname k hk]
  · intro h k hk
    rw [h k hk, hname k hk]

theorem isEntry_iff : isEntry name de = true ↔ Dirent.inum de ≠ 0 ∧ Same name (Dirent.name de) := by
  rw [isEntry, Bool.and_eq_true, decide_eq_true_eq, decide_eq_true_eq, namecmp_eq_zero]

theorem first_eq_some : first p data = some k ↔ k < data.length / DIRENT ∧ p (entry data k) ∧
    ∀ j < k, p (entry data j) = false := by
  rw [first, List.find?_range_eq_some, List.mem_range]
  simp only [Bool.not_eq_true']
  exact and_left_comm

theorem first_eq_none : first p data = none ↔
    ∀ k, k < data.length / DIRENT → p (entry data k) = false := by
  rw [first, List.find?_eq_none]
  simp only [List.mem_range, Bool.not_eq_true]

/-- There is one such entry. -/
theorem first_of_unique (hk : k < data.length / DIRENT) (hp : p (entry data k))
    (hone : ∀ j, j < data.length / DIRENT → p (entry data j) → j = k) : first p data = some k := by
  cases hfirst : first p data with
  | none =>
    have hno := first_eq_none.mp hfirst k hk
    rw [hp] at hno
    cases hno
  | some j =>
    obtain ⟨hj, hpj, -⟩ := first_eq_some.mp hfirst
    rw [hone j hj hpj]

/-- Where `dirlink` puts an entry: in the first free one, or behind the last. -/
def slot (data : List UInt8) : Nat := (first isFree data).getD (data.length / DIRENT)

theorem slot_le (data : List UInt8) : DIRENT * slot data ≤ data.length := by
  have hle : slot data ≤ data.length / DIRENT := by
    rw [slot]
    cases hfirst : first isFree data with
    | none => exact Nat.le_refl _
    | some k => exact Nat.le_of_lt (first_eq_some.mp hfirst).1
  exact (Nat.mul_le_mul_left _ hle).trans (Nat.mul_div_le _ _)

/-- No entry is lost there. -/
theorem isEntry_slot (h : slot data < data.length / DIRENT) (name : Mem) :
    isEntry name (entry data (slot data)) = false := by
  cases hfirst : first isFree data with
  | none =>
    rw [slot, hfirst] at h
    exact absurd h (Nat.lt_irrefl _)
  | some k =>
    have hfree := (first_eq_some.mp hfirst).2.1
    rw [slot, hfirst, Bool.eq_false_iff]
    exact fun hentry => (isEntry_iff.mp hentry).1 (of_decide_eq_true hfree)

/-- The data with one more entry. -/
def linked (data : List UInt8) (name : Mem) (inum : Nat) : List UInt8 :=
  overwrite data (DIRENT * slot data) ((List.range DIRENT).map (Dirent.fill name inum))

theorem entry_linked (data : List UInt8) (name : Mem) (inum k : Nat) :
    entry (linked data name inum) k = if k = slot data then
      (List.range DIRENT).map (Dirent.fill name inum) else entry data k :=
  entry_overwrite (slot_le data) rfl k

theorem length_linked (data : List UInt8) (name : Mem) (inum : Nat) :
    (linked data name inum).length = max data.length (DIRENT * (slot data + 1)) :=
  length_overwrite (slot_le data)

theorem linked_whole (h : DIRENT ∣ data.length) (name : Mem) (inum : Nat) :
    DIRENT ∣ (linked data name inum).length := by
  rw [length_linked data]
  rcases max_choice data.length (DIRENT * (slot data + 1)) with hmax | hmax
  · rw [hmax]
    exact h
  · rw [hmax]
    exact Nat.dvd_mul_right _ _

theorem entries_linked (data : List UInt8) (name : Mem) (inum : Nat) :
    (linked data name inum).length / DIRENT = max (data.length / DIRENT) (slot data + 1) := by
  rw [length_linked data]
  simp only [DIRENT]
  omega

/-- A name is found as before where only an entry with another name changes. -/
theorem lookup_of_change {data' : List UInt8} (hentry : ∀ k, k ≠ j → entry data' k = entry data k)
    (hmore : data.length / DIRENT ≤ data'.length / DIRENT)
    (hnew : ∀ k, k < data'.length / DIRENT → k < data.length / DIRENT ∨ k = j)
    (hbefore : j < data.length / DIRENT → isEntry name (entry data j) = false)
    (hafter : isEntry name (entry data' j) = false) : lookup data' name = lookup data name := by
  have hsame : ∀ k, k < data.length / DIRENT →
      isEntry name (entry data' k) = isEntry name (entry data k) := by
    intro k hk
    by_cases hkj : k = j
    · subst hkj
      rw [hafter, hbefore hk]
    · rw [hentry k hkj]
  have hfirst : first (isEntry name) data' = first (isEntry name) data := by
    refine Option.ext fun k => ?_
    rw [first_eq_some, first_eq_some]
    constructor
    · rintro ⟨hk, hp, hno⟩
      have hlt : k < data.length / DIRENT := by
        refine (hnew k hk).resolve_right fun hkj => ?_
        rw [hkj, hafter] at hp
        cases hp
      refine ⟨hlt, by rwa [hsame k hlt] at hp, fun l hl => ?_⟩
      rw [← hsame l (Nat.lt_trans hl hlt)]
      exact hno l hl
    · rintro ⟨hk, hp, hno⟩
      refine ⟨Nat.lt_of_lt_of_le hk hmore, by rwa [hsame k hk], fun l hl => ?_⟩
      rw [hsame l (Nat.lt_trans hl hk)]
      exact hno l hl
  rw [lookup, lookup, hfirst]
  cases hfound : first (isEntry name) data with
  | none => rfl
  | some k =>
    obtain ⟨hk, hp, -⟩ := first_eq_some.mp hfound
    have hkj : k ≠ j := by
      rintro rfl
      rw [hbefore hk] at hp
      cases hp
    rw [Option.map_some, Option.map_some, hentry k hkj]

theorem isEntry_of_same {de : List UInt8} (hsame : Same name' name) (h : isEntry name' de = true) :
    isEntry name de = true := by
  rw [isEntry_iff] at h ⊢
  exact ⟨h.1, fun k hk => (hsame k hk).symm.trans (h.2 k hk)⟩

/-- No two entries have the same name. -/
def Distinct (data : List UInt8) : Prop := ∀ name j k, j < data.length / DIRENT →
  k < data.length / DIRENT → isEntry name (entry data j) = true →
  isEntry name (entry data k) = true → j = k

/-! ### A new entry -/

/-- Only the new entry may be behind the old end. -/
theorem lt_of_linked {inum : Nat} (hk : k < (linked data name inum).length / DIRENT) :
    k < data.length / DIRENT ∨ k = slot data := by
  have hslot := slot_le data
  rw [entries_linked] at hk
  simp only [DIRENT] at hslot hk ⊢
  omega

theorem isEntry_fill {inum : Nat}
    (h : isEntry name' ((List.range DIRENT).map (Dirent.fill name inum)) = true) : Same name' name :=
  (Dirent.same_fill name name' inum).mp (isEntry_iff.mp h).2

/-- The new name. -/
theorem lookup_linked_same {inum : Nat} (hnone : lookup data name = none)
    (hinum : inum % 65536 ≠ 0) (hsame : Same name' name) :
    lookup (linked data name inum) name' = some (inum % 65536) := by
  have hno := first_eq_none.mp (Option.map_eq_none_iff.mp hnone)
  have hfirst : first (isEntry name') (linked data name inum) = some (slot data) := by
    refine first_of_unique ?_ ?_ fun k hk hp => ?_
    · rw [entries_linked data]
      omega
    · rw [entry_linked data, if_pos rfl, isEntry_iff, Dirent.inum_fill, Dirent.same_fill]
      exact ⟨hinum, hsame⟩
    · -- another entry with the name would have been found before
      by_contra hne
      rw [entry_linked data, if_neg hne] at hp
      have hentry := isEntry_of_same hsame hp
      rw [hno k ((lt_of_linked hk).resolve_right hne)] at hentry
      cases hentry
  rw [lookup, hfirst, Option.map_some, entry_linked data, if_pos rfl, Dirent.inum_fill]

/-- The other names. -/
theorem lookup_linked_other {inum : Nat} (hother : ¬ Same name' name) :
    lookup (linked data name inum) name' = lookup data name' := by
  refine lookup_of_change (j := slot data) (fun k hk => ?_) ?_ (fun k hk => lt_of_linked hk)
    (fun hslot => isEntry_slot hslot name') ?_
  · rw [entry_linked data, if_neg hk]
  · rw [entries_linked]
    exact Nat.le_max_left _ _
  · rw [entry_linked data, if_pos rfl, Bool.eq_false_iff]
    exact fun hp => hother (isEntry_fill hp)

theorem Distinct.linked (h : Distinct data) (hnone : lookup data name = none) (inum : Nat) :
    Distinct (linked data name inum) := by
  have hno := first_eq_none.mp (Option.map_eq_none_iff.mp hnone)
  -- an old entry with the new name is what `dirlookup` has excluded
  have hnew : ∀ n j k, j = slot data → k ≠ slot data →
      k < (Inodes.linked data name inum).length / DIRENT →
      isEntry n (entry (Inodes.linked data name inum) j) = true →
      isEntry n (entry (Inodes.linked data name inum) k) = true → False := by
    intro n j k hj hk hlt hpj hpk
    rw [entry_linked data, if_pos hj] at hpj
    rw [entry_linked data, if_neg hk] at hpk
    have hentry := isEntry_of_same (isEntry_fill hpj) hpk
    rw [hno k ((lt_of_linked hlt).resolve_right hk)] at hentry
    cases hentry
  intro n j k hj hk hpj hpk
  by_cases hjs : j = slot data
  · by_cases hks : k = slot data
    · rw [hjs, hks]
    · exact (hnew n j k hjs hks hk hpj hpk).elim
  · by_cases hks : k = slot data
    · exact (hnew n k j hks hjs hj hpk hpj).elim
    · rw [entry_linked data, if_neg hjs] at hpj
      rw [entry_linked data, if_neg hks] at hpk
      exact h n j k ((lt_of_linked hj).resolve_right hjs) ((lt_of_linked hk).resolve_right hks)
        hpj hpk

/-! ### An entry that goes -/

/-- The data without entry `j`. -/
def erased (data : List UInt8) (j : Nat) : List UInt8 :=
  overwrite data (DIRENT * j) ((List.range DIRENT).map fun _ => 0)

theorem mul_le_of_lt (hj : j < data.length / DIRENT) : DIRENT * (j + 1) ≤ data.length :=
  (Nat.mul_le_mul_left _ hj).trans (Nat.mul_div_le _ _)

theorem length_erased (hj : j < data.length / DIRENT) : (erased data j).length = data.length := by
  have hle := mul_le_of_lt hj
  rw [erased, length_overwrite (by simp only [DIRENT] at hle ⊢; omega), List.length_map,
    List.length_range]
  simp only [DIRENT] at hle ⊢
  omega

theorem entry_erased (hj : j < data.length / DIRENT) (k : Nat) : entry (erased data j) k =
    if k = j then (List.range DIRENT).map fun _ => 0 else entry data k := by
  have hle := mul_le_of_lt hj
  exact entry_overwrite (by simp only [DIRENT] at hle ⊢; omega) rfl k

theorem isEntry_zero (name : Mem) : isEntry name ((List.range DIRENT).map fun _ => 0) = false :=
  rfl

/-- An entry of the new data is one of the old. -/
theorem of_entry_erased (hj : j < data.length / DIRENT)
    (hp : isEntry name (entry (erased data j) k) = true) :
    k ≠ j ∧ isEntry name (entry data k) = true := by
  rw [entry_erased hj] at hp
  split at hp
  · rw [isEntry_zero] at hp
    cases hp
  · rename_i hkj
    exact ⟨hkj, hp⟩

theorem Distinct.erased (h : Distinct data) (hj : j < data.length / DIRENT) :
    Distinct (erased data j) := by
  intro n k l hk hl hpk hpl
  rw [length_erased hj] at hk hl
  exact h n k l hk hl (of_entry_erased hj hpk).2 (of_entry_erased hj hpl).2

theorem lookup_erased_same (h : Distinct data) (hfirst : first (isEntry name) data = some j)
    (hsame : Same name' name) : lookup (erased data j) name' = none := by
  obtain ⟨hj, hpj, -⟩ := first_eq_some.mp hfirst
  refine Option.map_eq_none_iff.mpr (first_eq_none.mpr fun k hk => ?_)
  rw [length_erased hj] at hk
  rw [Bool.eq_false_iff]
  intro hp
  obtain ⟨hkj, hpk⟩ := of_entry_erased hj hp
  exact hkj (h name k j hk hj (isEntry_of_same hsame hpk) hpj)

theorem lookup_erased_other (hfirst : first (isEntry name) data = some j)
    (hother : ¬ Same name' name) : lookup (erased data j) name' = lookup data name' := by
  obtain ⟨hj, hpj, -⟩ := first_eq_some.mp hfirst
  refine lookup_of_change (j := j) (fun k hk => ?_) ?_ (fun k hk => ?_) (fun _ => ?_) ?_
  · rw [entry_erased hj, if_neg hk]
  · rw [length_erased hj]
  · rw [length_erased hj] at hk
    exact .inl hk
  · rw [Bool.eq_false_iff]
    intro hp
    have hname := (isEntry_iff.mp hpj).2
    have hname' := (isEntry_iff.mp hp).2
    exact hother fun k hk => (hname' k hk).trans (hname k hk).symm
  · rw [entry_erased hj, if_pos rfl, isEntry_zero]

end Entries

/-! ## The loops -/

/-- A directory has whole entries. -/
structure IsDir (f : File) : Prop where
  type : f.type = T_DIR
  whole : DIRENT ∣ f.data.length

section Scan

variable {dev : Devsw} {sb : Superblock} {d d' : Disk} {i : Fin sb.ninodes} {name : Mem}
  {k m : Nat}

theorem Consistent.length_le (h : Consistent sb d) (i : Fin sb.ninodes) :
    (table sb d i).data.length ≤ MAXFILE * BSIZE := by
  rw [length_data]
  exact Good.len_le h i.isLt

/-- `readi` gives entry `k`. -/
theorem readi_entry (h : Consistent sb d) (htype : (table sb d i).type = T_DIR)
    (hk : DIRENT * (k + 1) ≤ (table sb d i).data.length) :
    readi dev sb d (inode sb d i) (UInt32.ofNat (DIRENT * k)) (UInt32.ofNat DIRENT) =
      .ok (some (entry (table sb d i).data k), inode sb d i, d) := by
  have hmax := h.length_le i
  have hn : (UInt32.ofNat DIRENT).toNat = 16 := rfl
  have hoff : (UInt32.ofNat (DIRENT * k)).toNat = DIRENT * k := by
    rw [UInt32.toNat_ofNat']
    simp only [MAXFILE, NDIRECT, NINDIRECT, BSIZE, DIRENT] at hmax hk ⊢
    omega
  have hdev : (table sb d i).type ≠ T_DEV := by
    rw [htype]
    decide
  have hrefused : Spec.refused (table sb d i) (UInt32.ofNat (DIRENT * k)) (UInt32.ofNat DIRENT) =
      false := by
    rw [Spec.refused, Bool.or_eq_false_iff, decide_eq_false_iff_not, decide_eq_false_iff_not, hoff,
      hn]
    simp only [MAXFILE, NDIRECT, NINDIRECT, BSIZE, DIRENT] at hmax hk ⊢
    omega
  rw [readi_table h, Spec.read, if_neg hdev, hrefused, hoff, hn]
  rfl

/-- The loop stops at the first such entry, or at the end. -/
theorem scan_eq (dev : Devsw) (message : String) (stop : List UInt8 → Bool)
    (h : Consistent sb d) (htype : (table sb d i).type = T_DIR)
    (hm : (table sb d i).data.length = DIRENT * m) : ∀ n k, k + n = m →
    scan dev sb message stop (DIRENT * m) (DIRENT * k) (inode sb d i) d =
      .ok (match (List.range' k n).find? fun j => stop (entry (table sb d i).data j) with
        | some j => (some (entry (table sb d i).data j), DIRENT * j, inode sb d i, d)
        | none => (none, DIRENT * m, inode sb d i, d)) := by
  intro n
  induction n with
  | zero =>
    intro k hk
    rw [scan, dif_neg (by rw [← hk]; exact Nat.lt_irrefl _), ← hk]
    rfl
  | succ n ih =>
    intro k hk
    have hle : DIRENT * (k + 1) ≤ DIRENT * m := Nat.mul_le_mul_left _ (by omega)
    have hlt : DIRENT * k < DIRENT * m := Nat.lt_of_lt_of_le (by simp only [DIRENT]; omega) hle
    rw [← hm] at hle
    rw [scan, dif_pos hlt, readi_entry h htype hle]
    change (if (entry (table sb d i).data k).length ≠ DIRENT then _ else _) = _
    rw [if_neg (not_not_intro (length_entry hle)), List.range'_succ, List.find?_cons]
    cases hstop : stop (entry (table sb d i).data k) with
    | true => rfl
    | false => exact ih (k + 1) (by omega)

/-- In terms of the entries. -/
theorem scan_first (dev : Devsw) (message : String) (stop : List UInt8 → Bool)
    (h : Consistent sb d) (hdir : IsDir (table sb d i)) :
    scan dev sb message stop (dinode sb d i).size.toNat 0 (inode sb d i) d =
      .ok (match first stop (table sb d i).data with
        | some j => (some (entry (table sb d i).data j), DIRENT * j, inode sb d i, d)
        | none => (none, (table sb d i).data.length, inode sb d i, d)) := by
  obtain ⟨m, hm⟩ := hdir.whole
  have hscan := scan_eq dev message stop h hdir.type hm m 0 (Nat.zero_add m)
  rw [← length_data, first, hm, Nat.mul_div_cancel_left m (by decide), List.range_eq_range']
  exact hscan

/-- **`dirlookup`** finds the first entry with the name. -/
theorem dirlookup_eq (h : Consistent sb d) (hdir : IsDir (table sb d i)) (name : Mem) :
    dirlookup dev sb d (inode sb d i) name =
      .ok ((first (isEntry name) (table sb d i).data).map fun k =>
        (Dirent.inum (entry (table sb d i).data k), DIRENT * k), inode sb d i, d) := by
  have htype : ¬(inode sb d i).type ≠ T_DIR := not_not_intro hdir.type
  have hscan := scan_first dev "dirlookup read" (isEntry name) h hdir
  rw [dirlookup, if_neg htype]
  change (scan dev sb _ _ (dinode sb d i).size.toNat 0 _ _ >>= _) = _
  rw [hscan]
  cases first (isEntry name) (table sb d i).data with
  | none => rfl
  | some k => rfl

/-- The file after `dirlink`. -/
def File.link (f : File) (name : Mem) (inum : Nat) : File := f.withData (linked f.data name inum)

/-- The directory, or the disk, is full. -/
def Spec.Full {N : Nat} (sb : Superblock) (f : Fin N → File) (i : Fin N) (name : Mem) (inum : Nat) :
    Prop :=
  MAXFILE * BSIZE < DIRENT * (slot (f i).data + 1) ∨
    sb.size < sb.nmeta + Spec.blocks (Function.update f i ((f i).link name inum))

instance {N : Nat} (sb : Superblock) (f : Fin N → File) (i : Fin N) (name : Mem) (inum : Nat) :
    Decidable (Spec.Full sb f i name inum) := inferInstanceAs (Decidable (_ ∨ _))

theorem dirlink_of_present (h : Consistent sb d) (hdir : IsDir (table sb d i)) (inum : Nat)
    (hname : lookup (table sb d i).data name ≠ none) :
    dirlink dev sb d (inode sb d i) name inum = .ok (false, inode sb d i, d) := by
  rw [dirlink, dirlookup_eq h hdir]
  cases hfirst : first (isEntry name) (table sb d i).data with
  | none => exact absurd (by rw [lookup, hfirst]; rfl) hname
  | some k => rfl

/-- `off` where the second loop of `dirlink` ends. -/
theorem scan_slot (dev : Devsw) (h : Consistent sb d) (hdir : IsDir (table sb d i)) :
    ∃ de, scan dev sb "dirlink read" isFree (dinode sb d i).size.toNat 0 (inode sb d i) d =
      .ok (de, DIRENT * slot (table sb d i).data, inode sb d i, d) := by
  rw [scan_first dev "dirlink read" isFree h hdir, slot]
  cases first isFree (table sb d i).data with
  | none =>
    refine ⟨none, ?_⟩
    rw [Option.getD_none, Nat.mul_div_cancel' hdir.whole]
  | some k => exact ⟨_, rfl⟩

/-- What the write of `dirlink` does to the table. -/
theorem write_link (dev : Devsw) (h : Consistent sb d) (hdir : IsDir (table sb d i)) (name : Mem)
    (inum : Nat) :
    Spec.write dev (table sb d i) (Dirent.fill name inum)
      (UInt32.ofNat (DIRENT * slot (table sb d i).data)) (UInt32.ofNat DIRENT) =
      if MAXFILE * BSIZE < DIRENT * (slot (table sb d i).data + 1) then (none, table sb d i)
      else (some (UInt32.ofNat DIRENT), (table sb d i).link name inum) := by
  have hmax := h.length_le i
  have hslot := slot_le (table sb d i).data
  have hn : (UInt32.ofNat DIRENT).toNat = DIRENT := rfl
  have hoff : (UInt32.ofNat (DIRENT * slot (table sb d i).data)).toNat =
      DIRENT * slot (table sb d i).data := by
    rw [UInt32.toNat_ofNat']
    simp only [MAXFILE, NDIRECT, NINDIRECT, BSIZE, DIRENT] at hmax hslot ⊢
    omega
  have hdev : (table sb d i).type ≠ T_DEV := by
    rw [hdir.type]
    decide
  have hrefused : Spec.refused (table sb d i)
      (UInt32.ofNat (DIRENT * slot (table sb d i).data)) (UInt32.ofNat DIRENT) = false := by
    rw [Spec.refused, Bool.or_eq_false_iff, decide_eq_false_iff_not, decide_eq_false_iff_not, hoff,
      hn]
    simp only [MAXFILE, NDIRECT, NINDIRECT, BSIZE, DIRENT] at hmax hslot ⊢
    omega
  rw [Spec.write, if_neg hdev, hrefused, Bool.false_or, Spec.tooLarge, hoff, hn]
  simp only [decide_eq_true_eq]
  rfl

/-- **`dirlink`** of a new name puts it into the first free entry or behind the last one, and
    panics exactly when there is no place for it. -/
theorem dirlink_cases (dev : Devsw) (h : Consistent sb d) (hdir : IsDir (table sb d i)) (inum : Nat)
    (hname : lookup (table sb d i).data name = none) :
    (∃ d', dirlink dev sb d (inode sb d i) name inum = .ok (true, inode sb d' i, d') ∧
      Consistent sb d' ∧ ¬ Spec.Full sb (table sb d) i name inum ∧
      table sb d' = Function.update (table sb d) i ((table sb d i).link name inum)) ∨
    (∃ e, dirlink dev sb d (inode sb d i) name inum = .error e) ∧
      Spec.Full sb (table sb d) i name inum := by
  obtain ⟨de, hscan⟩ := scan_slot dev h hdir
  have hwrite := write_link dev h hdir name inum
  have hexec : dirlink dev sb d (inode sb d i) name inum =
      writei dev sb d (inode sb d i) (Dirent.fill name inum)
        (UInt32.ofNat (DIRENT * slot (table sb d i).data)) (UInt32.ofNat DIRENT) >>= fun w =>
      if w.1 ≠ some (UInt32.ofNat DIRENT) then .error "dirlink" else pure (true, w.2) := by
    rw [dirlink, dirlookup_eq h hdir, Option.map_eq_none_iff.mp hname]
    change (scan dev sb _ _ (dinode sb d i).size.toNat 0 _ _ >>= _) = _
    rw [hscan]
    rfl
  rcases @writei_table dev sb d h i (Dirent.fill name inum)
    (UInt32.ofNat (DIRENT * slot (table sb d i).data)) (UInt32.ofNat DIRENT) with
    ⟨d', hok, hcons, htable⟩ | ⟨herr, hfull⟩
  · rw [hwrite] at hok htable
    by_cases hlarge : MAXFILE * BSIZE < DIRENT * (slot (table sb d i).data + 1)
    · -- `writei` gives -1 for it, and `dirlink` panics
      refine .inr ⟨⟨"dirlink", ?_⟩, .inl hlarge⟩
      rw [hexec, hok, if_pos hlarge]
      rfl
    · rw [if_neg hlarge] at hok htable
      refine .inl ⟨d', ?_, hcons, ?_, htable⟩
      · rw [hexec, hok]
        rfl
      · rintro (hlarge' | hfull)
        · exact hlarge hlarge'
        · rw [← htable] at hfull
          exact hcons.fits hfull
  · refine .inr ⟨⟨_, by rw [hexec, herr]; rfl⟩, ?_⟩
    rw [hwrite] at hfull
    by_cases hlarge : MAXFILE * BSIZE < DIRENT * (slot (table sb d i).data + 1)
    · exact .inl hlarge
    · rw [if_neg hlarge] at hfull
      exact .inr hfull

end Scan

end OsCodes.Inodes
