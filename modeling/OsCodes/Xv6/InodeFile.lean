/-
  The files on the disk.

  `files` is what the disk means: the metadata and the bytes of every inode.  When the disk is
  `Consistent`, every function of fs.c that changes an inode changes one file of it as its purpose
  says and keeps the disk consistent, and a write panics exactly when the blocks of all files would
  not fit on the disk any more.

  Each function comes with one lemma: `readi_eq`, `writei_cases`, `iupdate_files`, `ialloc_cases`
  and `itrunc_files`.  They speak of `files` before and after and of the panic; where the blocks
  are is no longer mentioned.  The two tests of `readi` and `writei` for a request that wraps
  around, or starts behind the end, are kept as they are (`refused`, `tooLarge`).
-/
import Mathlib.Algebra.BigOperators.Group.Finset.Basic
import OsCodes.Xv6.InodeTrunc

namespace OsCodes.Inodes

open Bytes Log

/-- A file: what an inode says of it, and its bytes. -/
structure File where
  type : Int16
  major : Int16
  minor : Int16
  nlink : Int16
  data : List UInt8

/-- The file that a record on disk stands for: its fields, and the bytes of its block map. -/
def fileOf (d : Disk) (x : Dinode) : File :=
  ⟨x.type, x.major, x.minor, x.nlink, content d x x.size.toNat⟩

/-- The files on the disk. -/
def files (sb : Superblock) (d : Disk) (i : Nat) : File := fileOf d (dinode sb d i)

/-- The invariant of the disk between two operations. -/
def Consistent (sb : Superblock) (d : Disk) : Prop :=
  Good sb d (dinode sb d) fun i => (dinode sb d i).size.toNat

/-- `bytes` in the place of what `data` has from `off` on. -/
def overwrite (data : List UInt8) (off : Nat) (bytes : List UInt8) : List UInt8 :=
  data.take off ++ bytes ++ data.drop (off + bytes.length)

section Content

variable {sb : Superblock} {d d' : Disk} {ino ino' : Nat → Dinode} {len len' : Nat → Nat}
  {x x' : Dinode} {ip : Inode} {src : Mem} {off n i j : Nat}

@[simp] theorem length_content (d : Disk) (x : Dinode) (n : Nat) : (content d x n).length = n := by
  rw [content, List.length_map, List.length_range]

theorem content_congr (h : ∀ p, p < n → byteAt d' x' p = byteAt d x p) :
    content d' x' n = content d x n :=
  List.map_congr_left fun p hp => h p (List.mem_range.mp hp)

theorem take_content (h : n ≤ i) : (content d x i).take n = content d x n := by
  rw [content, content, ← List.map_take, List.take_range, min_eq_left h]

theorem drop_content (d : Disk) (x : Dinode) (n i : Nat) : (content d x i).drop n =
    (List.range (i - n)).map fun k => byteAt d x (n + k) := by
  by_cases h : n ≤ i
  · obtain ⟨k, rfl⟩ := Nat.exists_eq_add_of_le h
    rw [content, List.range_add, List.map_append, List.drop_left' (by simp), List.map_map,
      Nat.add_sub_cancel_left]
    rfl
  · rw [Nat.sub_eq_zero_of_le (by omega), List.range_zero, List.map_nil,
      List.drop_eq_nil_of_le (by rw [length_content]; omega)]

/-- The content after a write. -/
theorem content_overwrite {z : Nat} (hoff : off ≤ z)
    (h : ∀ p, p < max z (off + n) → byteAt d' x' p =
      if off ≤ p ∧ p < off + n then src (p - off) else byteAt d x p) :
    content d' x' (max z (off + n)) = overwrite (content d x z) off ((List.range n).map src) := by
  have hsplit : max z (off + n) = off + (n + (z - (off + n))) := by omega
  rw [overwrite, take_content hoff, List.length_map, List.length_range, drop_content]
  rw [content, hsplit, List.range_add, List.map_append, List.map_map, List.range_add,
    List.map_append, List.map_map, List.append_assoc]
  congr 1
  · refine List.map_congr_left fun p hp => ?_
    have hp' := List.mem_range.mp hp
    rw [h p (by omega), if_neg (by omega)]
  congr 1
  · refine List.map_congr_left fun k hk => ?_
    have hk' := List.mem_range.mp hk
    rw [Function.comp_apply, h (off + k) (by omega), if_pos (by omega), Nat.add_sub_cancel_left]
  · refine List.map_congr_left fun k hk => ?_
    have hk' := List.mem_range.mp hk
    rw [Function.comp_apply, Function.comp_apply, ← Nat.add_assoc, h (off + n + k) (by omega),
      if_neg (by omega)]

end Content

/-! ## The invariant between two operations -/

section Consistent

variable {sb : Superblock} {d d' : Disk} {ino ino' : Nat → Dinode} {len len' : Nat → Nat}
  {ip ip' : Inode} {src : Mem} {i : Nat} {dev : Devsw} {off n : UInt32}

/-- Only the block numbers and the lengths of the inodes matter. -/
theorem Good.congr_inode (hg : Good sb d ino len)
    (haddrs : ∀ j, j < sb.ninodes → (ino' j).addrs = (ino j).addrs)
    (hlen : ∀ j, j < sb.ninodes → len' j = len j) : Good sb d ino' len' := by
  have haddr : ∀ j, j < sb.ninodes → ∀ k, addrOf d (ino' j) k = addrOf d (ino j) k :=
    fun j hj k => addrOf_congr (haddrs j hj) (fun _ _ => rfl) k
  have hpointer : ∀ j, j < sb.ninodes → (ino' j).pointer = (ino j).pointer := by
    intro j hj
    rw [Dinode.pointer, Dinode.pointer, haddrs j hj]
  have hrefs : refs sb d ino' = refs sb d ino := by
    funext o
    cases o with
    | disk b => rfl
    | block j k =>
      rw [refs, refs]
      split
      · rename_i hj
        exact haddr j hj k
      · rfl
    | pointer j =>
      rw [refs, refs]
      split
      · rename_i hj
        exact hpointer j hj
      · rfl
  refine ⟨⟨?_, ?_⟩, fun {j k} hj hk => ?_, fun {j} hj => ?_, fun {j} hj => ?_⟩
  · rw [hrefs]
    exact hg.owns
  · rw [hrefs]
    exact hg.noLeak
  · rw [haddr j hj, hlen j hj]
    exact hg.mapped hj hk
  · rw [hpointer j hj, hlen j hj]
    exact hg.pointer hj
  · rw [hlen j hj]
    exact hg.len_le hj

/-- The dinodes on the disk have become the inodes of the invariant. -/
theorem Good.consistent (hg : Good sb d ino len)
    (hused : ∀ c, c < sb.size → used sb d' c = used sb d c)
    (hsame : ∀ c, sb.nmeta ≤ c → d' c = d c)
    (hino : ∀ j, j < sb.ninodes →
      (dinode sb d' j).addrs = (ino j).addrs ∧ (dinode sb d' j).size.toNat = len j) :
    Consistent sb d' := by
  refine Good.congr_inode (Good.congr hg hused fun j p hj hp => hsame p ?_)
    (fun j hj => (hino j hj).1) fun j hj => (hino j hj).2
  exact hg.toOwned.nmeta_le (o := .pointer j) (by simp) (by rw [refs_pointer hj, hp])

/-- A file is the same where the dinode and the bytes are the same. -/
theorem files_congr (hx : dinode sb d' i = dinode sb d i)
    (h : ∀ p, p < (dinode sb d i).size.toNat →
      byteAt d' (dinode sb d i) p = byteAt d (dinode sb d i) p) :
    files sb d' i = files sb d i := by
  rw [files, files, fileOf, fileOf, hx, content_congr h]

/-- `iupdate` changes an inode block only. -/
theorem iupdate_same (sb : Superblock) (d : Disk) (ip : Inode) (hi : ip.inum < sb.ninodes) :
    (∀ c, used sb (iupdate sb d ip) c = used sb d c) ∧
      ∀ c, sb.nmeta ≤ c → iupdate sb d ip c = d c :=
  ⟨fun _ => used_update_iblock hi _, fun _ hc => update_iblock_apply hi hc _⟩

/-- The bytes are in the data blocks. -/
theorem Good.byteAt_same (hg : Good sb d ino len) (hsame : ∀ c, sb.nmeta ≤ c → d' c = d c)
    (hi : i < sb.ninodes) {x : Dinode} (hx : x.addrs = (ino i).addrs) (p : Nat) :
    byteAt d' x p = byteAt d (ino i) p := by
  have haddr : addrOf d' x (p / BSIZE) = addrOf d (ino i) (p / BSIZE) := by
    refine (addrOf_congr hx.symm (fun q hq => ?_) _).symm
    exact (hsame q (hg.toOwned.nmeta_le (o := .pointer i) (by simp)
      (by rw [refs_pointer hi, hq]))).symm
  refine byteAt_congr haddr fun c hc => ?_
  exact hsame c (hg.toOwned.nmeta_le (o := .block i (p / BSIZE)) (by simp)
    (by rw [refs_block hi, hc]))

theorem free_congr (h : ∀ c, c < sb.size → used sb d' c = used sb d c) : free sb d' = free sb d := by
  rw [free, free]
  congr 1
  exact Finset.filter_congr fun c hc => by rw [h c (Finset.mem_range.mp hc)]

/-! ## Reading and writing files -/

/-- The test of `readi` for a request that it refuses. -/
def refused (size off n : UInt32) : Bool := decide (size < off) || decide (off + n < off)

theorem refused_eq_false {size off n : UInt32} (h : refused size off n = false) :
    off.toNat ≤ size.toNat ∧ (off + n).toNat = off.toNat + n.toNat := by
  rw [refused, Bool.or_eq_false_iff, decide_eq_false_iff_not, decide_eq_false_iff_not,
    UInt32.lt_iff_toNat_lt, UInt32.lt_iff_toNat_lt, UInt32.toNat_add] at h
  rw [UInt32.toNat_add]
  have := off.toNat_lt
  have := n.toNat_lt
  omega

/-- The blocks of the file are mapped. -/
theorem Consistent.isSome_addrOf (hc : Consistent sb d) (hi : ip.inum < sb.ninodes)
    (hx : dinode sb d ip.inum = ip.toDinode) (bn : Nat) (hbn : bn * BSIZE < ip.size.toNat) :
    (addrOf d ip.toDinode bn).isSome := by
  have hmax := hc.len_le hi
  have hmapped := @Good.mapped _ _ _ _ hc _ bn hi
  rw [hx] at hmax hmapped
  exact (hmapped (by simp only [BSIZE] at hbn hmax; omega)).mpr hbn

/-- **`readi`** gives the part of the file that is asked for, as far as the file goes, and changes
    nothing. -/
theorem readi_eq (hc : Consistent sb d) (hi : ip.inum < sb.ninodes)
    (hx : dinode sb d ip.inum = ip.toDinode) (htype : ip.type ≠ T_DEV) :
    readi dev sb d ip off n = .ok (if refused ip.size off n then none else
      some (((files sb d ip.inum).data.drop off.toNat).take n.toNat), ip, d) := by
  rw [readi, if_neg htype]
  by_cases hrefused : ip.size < off ∨ off + n < off
  · have hbool : refused ip.size off n = true := by simpa [refused] using hrefused
    rw [if_pos hrefused, hbool]
    rfl
  · have hbool : refused ip.size off n = false := by simpa [refused] using hrefused
    obtain ⟨hle, hadd⟩ := refused_eq_false hbool
    have hn : (if ip.size < off + n then ip.size - off else n).toNat =
        min n.toNat (ip.size.toNat - off.toNat) := by
      have hlt : ip.size < off + n ↔ ip.size.toNat < off.toNat + n.toNat := by
        rw [UInt32.lt_iff_toNat_lt, hadd]
      by_cases h : ip.size.toNat < off.toNat + n.toNat
      · rw [if_pos (hlt.mpr h), UInt32.toNat_sub_of_le _ _ (UInt32.le_iff_toNat_le.mpr hle)]
        omega
      · rw [if_neg fun h' => h (hlt.mp h')]
        omega
    rw [if_neg hrefused, hbool]
    change (do
      let s ← readLoop sb (if ip.size < off + n then ip.size - off else n).toNat 0 off.toNat [] ip d
      return (some s.1, s.2.1, s.2.2)) = _
    rw [hn, readLoop_eq (hc.isSome_addrOf hi hx) (Nat.zero_le _) (by omega), files, fileOf, hx,
      drop_content, ← List.map_take, List.take_range]
    rfl

/-- What `writei` refuses: in addition, what is beyond the largest file. -/
def tooLarge (off n : UInt32) : Bool := decide (UInt32.ofNat (MAXFILE * BSIZE) < off + n)

/-- The metadata of an inode, with new data. -/
def File.withData (f : File) (data : List UInt8) : File := { f with data := data }

/-- The files after a write, once the inode is on the disk as it is in memory. -/
theorem files_of_wrote (ip' : Inode) {m off : Nat} {ip₁ : Inode} {d₁ : Disk}
    (hi : ip.inum < sb.ninodes) (hx : dinode sb d ip.inum = ip.toDinode) (hoff : off ≤ ip.size.toNat)
    (hwrote : Wrote sb d (dinode sb d) (fun i => (dinode sb d i).size.toNat) ip src off m ip₁ d₁)
    (hused : ∀ c, c < sb.size → used sb d' c = used sb d₁ c)
    (hsame : ∀ c, sb.nmeta ≤ c → d' c = d₁ c)
    (hino : ∀ j, j < sb.ninodes →
      dinode sb d' j = if j = ip.inum then ip'.toDinode else dinode sb d j)
    (hip : ip' = { ip₁ with size := ip'.size })
    (hsize : ip'.size.toNat = max ip.size.toNat (off + m)) :
    Consistent sb d' ∧ ∀ j, j < sb.ninodes → files sb d' j = if j = ip.inum then
      (files sb d j).withData
        (overwrite (files sb d j).data off ((List.range m).map src))
      else files sb d j := by
  have haddrs : ip'.addrs = ip₁.addrs := by rw [hip]
  constructor
  · refine hwrote.good.consistent hused hsame fun j hj => ?_
    rw [hino j hj]
    by_cases hji : j = ip.inum
    · rw [if_pos hji, hji, Function.update_self, Function.update_self, hx, hsize]
      exact ⟨haddrs, rfl⟩
    · rw [if_neg hji, Function.update_of_ne hji, Function.update_of_ne hji]
      exact ⟨rfl, rfl⟩
  · intro j hj
    by_cases hji : j = ip.inum
    · subst hji
      have hmeta : ip' = { ip with size := ip'.size, addrs := ip'.addrs } := by
        rw [hip, hwrote.inode]
      have hbytes : ∀ p, byteAt d' ip'.toDinode p = byteAt d₁ ip₁.toDinode p := by
        intro p
        have hbyte := hwrote.good.byteAt_same hsame hi (x := ip'.toDinode)
          (by rw [Function.update_self]; exact haddrs) p
        rwa [Function.update_self] at hbyte
      have hdata : content d' ip'.toDinode ip'.size.toNat =
          overwrite (content d ip.toDinode ip.size.toNat) off ((List.range m).map src) := by
        rw [hsize]
        refine content_overwrite hoff fun p hp => ?_
        rw [hbytes, hwrote.bytes p (by rw [hx]; exact hp)]
      rw [if_pos rfl, files, files, hino _ hj, if_pos rfl, hx, fileOf, hdata, hmeta]
      rfl
    · rw [if_neg hji]
      refine files_congr (by rw [hino j hj, if_neg hji]) fun p _ => ?_
      have hbyte := hwrote.good.byteAt_same hsame hj (x := dinode sb d j)
        (by rw [Function.update_of_ne hji]) p
      rw [Function.update_of_ne hji] at hbyte
      rw [hbyte, hwrote.other j p hj hji]

/-- **`writei`** writes the bytes to the file, or panics, which it does exactly when there are not
    enough free blocks. -/
theorem writei_cases (hc : Consistent sb d) (hi : ip.inum < sb.ninodes)
    (hx : dinode sb d ip.inum = ip.toDinode) (htype : ip.type ≠ T_DEV)
    (hrefused : refused ip.size off n = false) (hlarge : tooLarge off n = false) :
    (∃ ip' d', writei dev sb d ip src off n = .ok (some n, ip', d') ∧ Consistent sb d' ∧
      ip'.inum = ip.inum ∧ dinode sb d' ip.inum = ip'.toDinode ∧
      (∀ j, j < sb.ninodes → files sb d' j = if j = ip.inum then
        (files sb d j).withData
          (overwrite (files sb d j).data off.toNat ((List.range n.toNat).map src))
        else files sb d j) ∧
      ip'.size.toNat = max ip.size.toNat (off.toNat + n.toNat) ∧
      free sb d + need ip.size.toNat = free sb d' + need ip'.size.toNat) ∨
    (writei dev sb d ip src off n = .error "balloc: out of blocks" ∧
      free sb d + need ip.size.toNat < need (max ip.size.toNat (off.toNat + n.toNat))) := by
  obtain ⟨hle, hadd⟩ := refused_eq_false hrefused
  have hsize : off.toNat + n.toNat ≤ MAXFILE * BSIZE := by
    rw [tooLarge, decide_eq_false_iff_not, UInt32.lt_iff_toNat_lt, hadd] at hlarge
    exact Nat.le_of_not_lt hlarge
  have hloop := Good.writeLoop hc src hi hx (Nat.zero_le n.toNat)
    (show off.toNat ≤ (dinode sb d ip.inum).size.toNat by rw [hx]; exact hle) hsize
  have hview : view src 0 = src := funext fun k => by rw [view_apply, Nat.zero_add]
  rw [hx, Nat.sub_zero, hview] at hloop
  rw [writei, if_neg htype, if_neg (by simpa [refused] using hrefused),
    if_neg (by simpa [tooLarge] using hlarge)]
  rcases hloop with ⟨ip₁, d₁, hok, hwrote, hfree⟩ | ⟨herr, hfree⟩
  · left
    have hsizes : ip₁.size = ip.size := by rw [hwrote.inode]
    have hinum : ip₁.inum = ip.inum := by rw [hwrote.inode]
    rw [hok]
    by_cases hgrow : 0 < n ∧ ip₁.size.toNat < off.toNat + n.toNat
    · -- the file has become longer
      have hnat : (UInt32.ofNat (off.toNat + n.toNat)).toNat = off.toNat + n.toNat := by
        rw [UInt32.toNat_ofNat']
        simp only [MAXFILE, NDIRECT, NINDIRECT, BSIZE] at hsize
        omega
      have hmax : max ip.size.toNat (off.toNat + n.toNat) = off.toNat + n.toNat := by
        rw [hsizes] at hgrow
        omega
      have hi₁ : ip₁.inum < sb.ninodes := by rw [hinum]; exact hi
      let ip' : Inode := { ip₁ with size := UInt32.ofNat (off.toNat + n.toNat) }
      obtain ⟨hused, hsame⟩ := iupdate_same sb d₁ ip' hi₁
      have hino : ∀ j, j < sb.ninodes → dinode sb (iupdate sb d₁ ip') j =
          if j = ip.inum then ip'.toDinode else dinode sb d j := by
        intro j hj
        rw [dinode_iupdate, ← hwrote.dinode j hj]
        change (if j = ip₁.inum then _ else _) = _
        rw [hinum]
      obtain ⟨hcons, hfiles⟩ := files_of_wrote ip' hi hx hle hwrote (fun c _ => hused c) hsame hino
        rfl (hnat.trans hmax.symm)
      refine ⟨ip', iupdate sb d₁ ip', if_pos hgrow, hcons, hinum, ?_, hfiles,
        hnat.trans hmax.symm, ?_⟩
      · rw [hino _ hi, if_pos rfl]
      · rw [free_congr fun c _ => hused c, hfree, hmax]
        exact congrArg (free sb d₁ + need ·) hnat.symm
    · have hinside : off.toNat + n.toNat ≤ ip.size.toNat := by
        rw [hsizes, UInt32.lt_iff_toNat_lt] at hgrow
        have hzero : (0 : UInt32).toNat = 0 := rfl
        omega
      obtain rfl : ip₁ = ip := hwrote.inside (by rw [hx]; exact hinside)
      have hmax : max ip₁.size.toNat (off.toNat + n.toNat) = ip₁.size.toNat := by omega
      have hino : ∀ j, j < sb.ninodes → dinode sb d₁ j =
          if j = ip₁.inum then ip₁.toDinode else dinode sb d j := by
        intro j hj
        rw [hwrote.dinode j hj]
        split
        · rename_i hji
          rw [hji, hx]
        · rfl
      obtain ⟨hcons, hfiles⟩ := files_of_wrote ip₁ hi hx hle hwrote (fun _ _ => rfl)
        (fun _ _ => rfl) hino rfl hmax.symm
      refine ⟨ip₁, d₁, if_neg hgrow, hcons, rfl, ?_, hfiles, hmax.symm, ?_⟩
      · rw [hino _ hi, if_pos rfl]
      · rw [hfree, hmax]
  · right
    rw [herr]
    exact ⟨rfl, hfree⟩

/-! ## The other changes of an inode -/

/-- The file that an inode says it is, with the given data. -/
def Dinode.file (x : Dinode) (data : List UInt8) : File := ⟨x.type, x.major, x.minor, x.nlink, data⟩

/-- **A dinode is written** whose blocks and size are those of the dinode on the disk. -/
theorem files_of_dinode (hc : Consistent sb d) (d' : Disk) (hi : i < sb.ninodes) {x : Dinode}
    (hused : ∀ c, c < sb.size → used sb d' c = used sb d c)
    (hsame : ∀ c, sb.nmeta ≤ c → d' c = d c)
    (hino : ∀ j, j < sb.ninodes → dinode sb d' j = if j = i then x else dinode sb d j)
    (haddrs : x.addrs = (dinode sb d i).addrs) (hsize : x.size = (dinode sb d i).size) :
    Consistent sb d' ∧ ∀ j, j < sb.ninodes → files sb d' j =
      if j = i then x.file (files sb d j).data else files sb d j := by
  have hbytes : ∀ j, j < sb.ninodes → ∀ y : Dinode, y.addrs = (dinode sb d j).addrs →
      ∀ p, byteAt d' y p = byteAt d (dinode sb d j) p :=
    fun j hj y hy p => Good.byteAt_same hc hsame hj hy p
  constructor
  · refine Good.consistent hc hused hsame fun j hj => ?_
    rw [hino j hj]
    split
    · rename_i hji
      rw [hji]
      exact ⟨haddrs, by rw [hsize]⟩
    · exact ⟨rfl, rfl⟩
  · intro j hj
    by_cases hji : j = i
    · subst hji
      have hdata : content d' x x.size.toNat =
          content d (dinode sb d j) (dinode sb d j).size.toNat := by
        rw [hsize]
        exact content_congr fun p _ => hbytes j hj x haddrs p
      rw [if_pos rfl, files, files, fileOf, hino j hj, if_pos rfl, hdata]
      rfl
    · rw [if_neg hji]
      exact files_congr (by rw [hino j hj, if_neg hji]) fun p _ => hbytes j hj _ rfl p

/-- **`iupdate`** after a change of the fields that say what the file is. -/
theorem iupdate_files (hc : Consistent sb d) (hi : ip.inum < sb.ninodes)
    (haddrs : ip.addrs = (dinode sb d ip.inum).addrs)
    (hsize : ip.size = (dinode sb d ip.inum).size) :
    Consistent sb (iupdate sb d ip) ∧ ∀ j, j < sb.ninodes → files sb (iupdate sb d ip) j =
      if j = ip.inum then ip.toDinode.file (files sb d j).data else files sb d j := by
  obtain ⟨hused, hsame⟩ := iupdate_same sb d ip hi
  exact files_of_dinode hc (iupdate sb d ip) hi (fun c _ => hused c) hsame
    (fun j _ => dinode_iupdate sb d ip j) haddrs hsize

/-- An inode of size 0 has no blocks. -/
theorem Consistent.addrs_eq_zero (hc : Consistent sb d) (hi : i < sb.ninodes)
    (hsize : (dinode sb d i).size = 0) : (dinode sb d i).addrs = fun _ => 0 := by
  have hzero : (dinode sb d i).size.toNat = 0 := by rw [hsize]; rfl
  funext k
  induction k using Fin.lastCases with
  | last =>
    have hpointer := hc.pointer hi
    rw [hzero] at hpointer
    refine blockOf_eq_none.mp (Option.not_isSome_iff_eq_none.mp fun h => ?_)
    exact absurd (hpointer.mp h) (Nat.not_lt_zero _)
  | cast k =>
    have hmapped := @Good.mapped _ _ _ _ hc _ k hi (Nat.lt_of_lt_of_le k.isLt (Nat.le_add_right _ _))
    rw [hzero, addrOf_direct k.isLt] at hmapped
    refine blockOf_eq_none.mp (Option.not_isSome_iff_eq_none.mp fun h => ?_)
    exact absurd (hmapped.mp h) (Nat.not_lt_zero _)

/-- **`ialloc`** takes a free inode, and panics when there is none. -/
theorem ialloc_cases (hc : Consistent sb d)
    (hblank : ∀ i, i < sb.ninodes → (dinode sb d i).type = 0 → (dinode sb d i).size = 0)
    (type : Int16) :
    (∃ i d', ialloc sb d type = .ok (i, d') ∧ 1 ≤ i ∧ i < sb.ninodes ∧ (dinode sb d i).type = 0 ∧
      Consistent sb d' ∧
      (∀ j, j < sb.ninodes → dinode sb d' j = if j = i then newDinode type else dinode sb d j) ∧
      ∀ j, j < sb.ninodes → files sb d' j = if j = i then ⟨type, 0, 0, 0, []⟩ else files sb d j) ∨
    (ialloc sb d type = .error "ialloc: no inodes" ∧
      ∀ i, 1 ≤ i → i < sb.ninodes → (dinode sb d i).type ≠ 0) := by
  cases hfind : (List.range' 1 (sb.ninodes - 1)).find? fun i => decide ((dinode sb d i).type = 0) with
  | some i =>
    left
    have hmem := List.mem_of_find?_eq_some hfind
    have htype := List.find?_some hfind
    rw [List.mem_range'_1] at hmem
    rw [decide_eq_true_eq] at htype
    have hi : i < sb.ninodes := by omega
    have hsize := hblank i hi htype
    have hdata : (files sb d i).data = [] := by
      rw [files, fileOf, hsize]
      rfl
    have hino : ∀ j, j < sb.ninodes → dinode sb (takeInode sb d i type) j =
        if j = i then newDinode type else dinode sb d j :=
      fun j _ => dinode_takeInode sb d i type j
    obtain ⟨hcons, hfiles⟩ := files_of_dinode hc (takeInode sb d i type) hi
      (fun c _ => used_update_iblock hi _) (fun c hc => update_iblock_apply hi hc _) hino
      (hc.addrs_eq_zero hi hsize).symm hsize.symm
    refine ⟨i, takeInode sb d i type, by rw [ialloc, hfind], by omega, hi, htype, hcons, hino,
      fun j hj => ?_⟩
    rw [hfiles j hj]
    split
    · rename_i hji
      rw [hji, hdata]
      rfl
    · rfl
  | none =>
    refine .inr ⟨by rw [ialloc, hfind], fun i h1 hi => ?_⟩
    rw [List.find?_eq_none] at hfind
    have hno := hfind i (List.mem_range'_1.mpr (by omega))
    simpa using hno

/-- **`itrunc`** leaves an empty file, and the others as they were. -/
theorem itrunc_files (hc : Consistent sb d) (hi : ip.inum < sb.ninodes)
    (hx : dinode sb d ip.inum = ip.toDinode) :
    ∃ d', itrunc sb d ip = .ok (emptied ip, d') ∧ Consistent sb d' ∧
      (∀ j, j < sb.ninodes →
        dinode sb d' j = if j = ip.inum then (emptied ip).toDinode else dinode sb d j) ∧
      ∀ j, j < sb.ninodes → files sb d' j =
        if j = ip.inum then (files sb d j).withData [] else files sb d j := by
  obtain ⟨d₁, hfreed, hok⟩ := Owned.itrunc hc.toOwned hi hx
  have hgood := Good.of_freed hc ip hfreed
  have hi' : (emptied ip).inum < sb.ninodes := hi
  obtain ⟨hused, hsame⟩ := iupdate_same sb d₁ (emptied ip) hi'
  have hino : ∀ j, j < sb.ninodes → dinode sb (iupdate sb d₁ (emptied ip)) j =
      if j = ip.inum then (emptied ip).toDinode else dinode sb d j := by
    intro j hj
    rw [dinode_iupdate, ← hfreed.dinode j hj]
    rfl
  refine ⟨_, hok, ?_, hino, fun j hj => ?_⟩
  · refine hgood.consistent (fun c _ => hused c) hsame fun j hj => ?_
    rw [hino j hj]
    by_cases hji : j = ip.inum
    · rw [if_pos hji, hji, Function.update_self, Function.update_self]
      exact ⟨rfl, rfl⟩
    · rw [if_neg hji, Function.update_of_ne hji, Function.update_of_ne hji]
      exact ⟨rfl, rfl⟩
  · by_cases hji : j = ip.inum
    · subst hji
      rw [if_pos rfl, files, files, hino _ hj, if_pos rfl, hx]
      rfl
    · rw [if_neg hji]
      refine files_congr (by rw [hino j hj, if_neg hji]) fun p _ => ?_
      exact Good.byteAt_same hc (fun c hc => (hsame c hc).trans (hfreed.same c hc)) hj rfl p

end Consistent

end OsCodes.Inodes
