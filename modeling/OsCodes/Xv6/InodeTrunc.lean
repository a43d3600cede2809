/-
  Freeing the blocks of an inode.

  The loops of `itrunc` free the blocks that belong to the inode, each once; no `bfree` of them
  panics, and what belongs to other inodes is as it was.

  Both loops are a `foldlM` over the slots that are in use, so one lemma about freeing a list of
  blocks that are in use and different (`bfree_all`) does both.  What `itrunc` leaves is the inode
  with no block, and the owners are those of the other inodes.
-/
import Mathlib.Data.List.NodupEquivFin
import OsCodes.Xv6.InodeData

namespace OsCodes.Inodes

open Bytes Log

section Free

variable {sb : Superblock} {d d' : Disk} {ino : Nat → Dinode} {len : Nat → Nat} {ip : Inode}
  {b c i p : Nat} {bs : List Nat}

/-- The blocks `bs` have been freed and nothing else has changed. -/
structure Freed (sb : Superblock) (d : Disk) (bs : List Nat) (d' : Disk) : Prop where
  used : ∀ c, used sb d' c = (used sb d c && decide (c ∉ bs))
  same : ∀ c, sb.nmeta ≤ c → d' c = d c
  dinode : ∀ i, i < sb.ninodes → dinode sb d' i = dinode sb d i

/-- **Freeing blocks in use**, each once. -/
theorem bfree_all (hbs : bs.Nodup) (hused : ∀ b ∈ bs, taken sb d b) :
    ∃ d', bs.foldlM (bfree sb) d = .ok d' ∧ Freed sb d bs d' := by
  induction bs generalizing d with
  | nil => exact ⟨d, rfl, fun c => by simp, fun _ _ => rfl, fun _ _ => rfl⟩
  | cons b bs ih =>
    rw [List.nodup_cons] at hbs
    obtain ⟨hb, hbit⟩ := hused b List.mem_cons_self
    have hrest : ∀ c ∈ bs, taken sb (unmark sb d b) c := by
      intro c hc
      obtain ⟨hlt, hu⟩ := hused c (List.mem_cons_of_mem _ hc)
      have hne : c ≠ b := by
        rintro rfl
        exact hbs.1 hc
      exact ⟨hlt, by rw [used_unmark, hu, decide_eq_false hne]; rfl⟩
    obtain ⟨d', hok, hfreed⟩ := ih hbs.2 hrest
    refine ⟨d', ?_, fun c => ?_, fun c hc => ?_, fun i hi => ?_⟩
    · rw [List.foldlM_cons, bfree_of_used hbit]
      exact hok
    · rw [hfreed.used, used_unmark, Bool.eq_iff_iff]
      simp only [Bool.and_eq_true, Bool.not_eq_true', decide_eq_true_eq, decide_eq_false_iff_not,
        List.mem_cons, not_or]
      exact ⟨fun h => ⟨h.1.2, h.1.1, h.2⟩, fun h => ⟨⟨h.2.1, h.1⟩, h.2.2⟩⟩
    · rw [hfreed.same c hc, unmark_apply hb hc]
    · rw [hfreed.dinode i hi, dinode_unmark hi]

/-- The owners that inode `i` has. -/
def owners (i : Nat) : List Owner := (List.range MAXFILE).map (.block i) ++ [.pointer i]

/-- The blocks that belong to inode `i`. -/
def blocksOf (sb : Superblock) (d : Disk) (ino : Nat → Dinode) (i : Nat) : List Nat :=
  (owners i).filterMap (refs sb d ino)

theorem owners_nodup (i : Nat) : (owners i).Nodup := by
  rw [owners, List.nodup_append]
  refine ⟨List.nodup_range.map fun a b h => (Owner.block.inj h).2, List.nodup_singleton _, ?_⟩
  intro o ho o' ho' heq
  obtain ⟨bn, -, rfl⟩ := List.mem_map.mp ho
  rw [List.mem_singleton.mp ho'] at heq
  cases heq

theorem Owned.blocksOf_nodup (h : Owned sb d ino) (i : Nat) : (blocksOf sb d ino i).Nodup :=
  (owners_nodup i).filterMap fun _ _ _ hb hb' => h.owns.apart hb hb'

theorem mem_blocksOf : b ∈ blocksOf sb d ino i ↔ ∃ o ∈ owners i, refs sb d ino o = some b :=
  List.mem_filterMap

theorem Owned.taken_of_mem (h : Owned sb d ino) (hb : b ∈ blocksOf sb d ino i) : taken sb d b := by
  obtain ⟨o, -, href⟩ := mem_blocksOf.mp hb
  exact h.owns.marked href

/-- The inode without the direct blocks `ks`. -/
def clear (ip : Inode) (ks : List (Fin NDIRECT)) : Inode :=
  { ip with addrs := fun k => if ∃ j ∈ ks, k = Fin.castSucc j then 0 else ip.addrs k }

theorem clear_cons (ip : Inode) (k : Fin NDIRECT) (ks : List (Fin NDIRECT)) :
    clear (ip.setAddr k.castSucc 0) ks = clear ip (k :: ks) := by
  have haddrs : (clear (ip.setAddr k.castSucc 0) ks).addrs = (clear ip (k :: ks)).addrs := by
    funext j
    rw [clear, clear]
    simp only [setAddr_addrs, List.exists_mem_cons_iff]
    by_cases hj : j = k.castSucc
    · rw [hj, Function.update_self, if_pos (Or.inl rfl), ite_self]
    · rw [Function.update_of_ne hj]
      simp only [hj, false_or]
  exact congrArg (fun a => { ip with addrs := a }) haddrs

theorem clear_cons_of_zero {k : Fin NDIRECT} (h : ip.addrs k.castSucc = 0)
    (ks : List (Fin NDIRECT)) : clear ip ks = clear ip (k :: ks) := by
  rw [← clear_cons]
  congr 1
  rw [Inode.setAddr, ← h, Function.update_eq_self]

/-- The first loop of `itrunc` frees the direct blocks of the inode. -/
theorem truncDirect_foldlM (ks : List (Fin NDIRECT)) (hks : ks.Nodup) (ip : Inode) (d : Disk) :
    ks.foldlM (truncDirect sb) (ip, d) = (do
      let d ← (ks.filterMap fun k => blockOf (ip.addrs k.castSucc)).foldlM (bfree sb) d
      return (clear ip ks, d)) := by
  induction ks generalizing ip d with
  | nil =>
    have hclear : clear ip [] = ip := by simp [clear]
    rw [hclear]
    rfl
  | cons k ks ih =>
    rw [List.nodup_cons] at hks
    rw [List.foldlM_cons]
    by_cases hv : ip.addrs k.castSucc = 0
    · have hstep : truncDirect sb (ip, d) k = .ok (ip, d) := if_neg (by simpa using hv)
      rw [hstep, List.filterMap_cons_none (by rw [hv]; rfl), ← clear_cons_of_zero hv]
      exact ih hks.2 ip d
    · have hstep : truncDirect sb (ip, d) k = (do
          let d ← bfree sb d (ip.addrs k.castSucc).toNat
          return (ip.setAddr k.castSucc 0, d)) := if_pos hv
      have hkeep : (ks.filterMap fun j => blockOf ((ip.setAddr k.castSucc 0).addrs j.castSucc)) =
          ks.filterMap fun j => blockOf (ip.addrs j.castSucc) := by
        refine List.filterMap_congr fun j hj => ?_
        have hjk : j.castSucc ≠ k.castSucc := by
          intro heq
          rw [Fin.castSucc_inj.mp heq] at hj
          exact hks.1 hj
        rw [setAddr_addrs, Function.update_of_ne hjk]
      rw [hstep, List.filterMap_cons_some (f := fun j : Fin NDIRECT => blockOf (ip.addrs j.castSucc))
        (blockOf_of_ne_zero hv), List.foldlM_cons]
      cases hfree : bfree sb d (ip.addrs k.castSucc).toNat with
      | error e => rfl
      | ok d' =>
        have hnext := ih hks.2 (ip.setAddr k.castSucc 0) d'
        rw [hkeep, clear_cons] at hnext
        exact hnext

/-- The second loop of `itrunc` frees the blocks in the indirect block. -/
theorem truncIndirect_foldlM (a : Mem) (js : List Nat) (d : Disk) :
    js.foldlM (truncIndirect sb a) d =
      (js.filterMap fun j => blockOf (getU32 a (4 * j))).foldlM (bfree sb) d := by
  rw [List.foldlM_filterMap]
  congr 1
  funext d j
  rw [truncIndirect]
  by_cases hv : getU32 a (4 * j) = 0
  · rw [if_neg (by simpa using hv), hv]
    rfl
  · rw [if_pos hv, blockOf_of_ne_zero hv]

/-- The inode with no blocks. -/
def emptied (ip : Inode) : Inode := { ip with size := 0, addrs := fun _ => 0 }

theorem blocksOf_eq (hi : i < sb.ninodes) : blocksOf sb d ino i =
    ((List.finRange NDIRECT).filterMap fun k => blockOf ((ino i).addrs k.castSucc)) ++
      match (ino i).pointer with
      | none => []
      | some p => (List.range NINDIRECT).filterMap
          (fun j => blockOf (getU32 (d p).mem (4 * j))) ++ [p] := by
  have hdirect : (List.range NDIRECT).filterMap (addrOf d (ino i)) =
      (List.finRange NDIRECT).filterMap fun k => blockOf ((ino i).addrs k.castSucc) := by
    rw [← List.map_coe_finRange_eq_range, List.filterMap_map]
    refine List.filterMap_congr fun k _ => ?_
    rw [Function.comp_apply, addrOf_direct k.isLt]
    rfl
  have hentry : ∀ j, j < NINDIRECT → addrOf d (ino i) (NDIRECT + j) =
      (ino i).pointer.bind fun p => blockOf (getU32 (d p).mem (4 * j)) := by
    intro j hj
    rw [addrOf_indirect (Nat.le_add_right _ _) (Nat.add_lt_add_left hj _), Nat.add_sub_cancel_left]
  have hblocks : ((List.range MAXFILE).map (Owner.block i)).filterMap (refs sb d ino) =
      (List.range MAXFILE).filterMap (addrOf d (ino i)) := by
    rw [List.filterMap_map]
    exact List.filterMap_congr fun bn _ => refs_block hi
  have hpointer : [Owner.pointer i].filterMap (refs sb d ino) = (ino i).pointer.toList := by
    rw [List.filterMap_cons, refs_pointer hi]
    cases (ino i).pointer with
    | none => rfl
    | some p => rfl
  rw [blocksOf, owners, List.filterMap_append, hblocks, hpointer, List.range_add,
    List.filterMap_append, hdirect, List.append_assoc, List.filterMap_map]
  congr 1
  cases hp : (ino i).pointer with
  | none =>
    rw [Option.toList_none, List.append_nil, List.filterMap_eq_nil_iff]
    intro j hj
    rw [Function.comp_apply, hentry j (List.mem_range.mp hj), hp]
    rfl
  | some p =>
    rw [Option.toList_some]
    congr 1
    refine List.filterMap_congr fun j hj => ?_
    rw [Function.comp_apply, hentry j (List.mem_range.mp hj), hp, Option.bind_some]

theorem emptied_of_clear (ip : Inode) : emptied ip =
    { (clear ip (List.finRange NDIRECT)).setAddr (Fin.last NDIRECT) 0 with size := 0 } := by
  have haddrs : ∀ k : Fin (NDIRECT + 1),
      ((clear ip (List.finRange NDIRECT)).setAddr (Fin.last NDIRECT) 0).addrs k = 0 := by
    intro k
    rw [setAddr_addrs]
    induction k using Fin.lastCases with
    | last => rw [Function.update_self]
    | cast k =>
      rw [Function.update_of_ne (Fin.castSucc_lt_last k).ne]
      exact if_pos ⟨k, List.mem_finRange k, rfl⟩
  have hfun := funext haddrs
  exact (congrArg (fun a => { ip with size := 0, addrs := a }) hfun).symm

/-- **`itrunc`** frees the blocks of the inode, once each, and panics at none of them. -/
theorem Owned.itrunc (h : Owned sb d ino) (hi : ip.inum < sb.ninodes)
    (hx : ino ip.inum = ip.toDinode) : ∃ d', Freed sb d (blocksOf sb d ino ip.inum) d' ∧
      itrunc sb d ip = .ok (emptied ip, iupdate sb d' (emptied ip)) := by
  obtain ⟨d', hok, hfreed⟩ := bfree_all (h.blocksOf_nodup ip.inum) fun b hb => h.taken_of_mem hb
  refine ⟨d', hfreed, ?_⟩
  have hall := h.blocksOf_nodup ip.inum
  have htaken : ∀ b ∈ blocksOf sb d ino ip.inum, taken sb d b := fun b hb => h.taken_of_mem hb
  rw [blocksOf_eq hi, hx] at hok hall htaken
  -- the direct blocks first
  obtain ⟨d₁, hok₁, hfreed₁⟩ := bfree_all (List.nodup_append.mp hall).1
    fun b hb => htaken b (List.mem_append_left _ hb)
  rw [List.foldlM_append, hok₁] at hok
  change List.foldlM (bfree sb) d₁ _ = _ at hok
  have hlast : (clear ip (List.finRange NDIRECT)).addrs (Fin.last NDIRECT) =
      ip.addrs (Fin.last NDIRECT) := by
    have hno : ¬ ∃ k ∈ List.finRange NDIRECT, Fin.last NDIRECT = k.castSucc := by
      rintro ⟨k, -, hk⟩
      exact (Fin.castSucc_lt_last k).ne hk.symm
    exact if_neg (t := 0) hno
  rw [Inodes.itrunc, truncDirect_foldlM _ (List.nodup_finRange _), hok₁]
  change (do
    let pointer := (clear ip (List.finRange NDIRECT)).addrs (Fin.last NDIRECT)
    let s ← if pointer ≠ 0 then do
        let a := (d₁ pointer.toNat).mem
        let d ← (List.range NINDIRECT).foldlM (truncIndirect sb a) d₁
        let d ← bfree sb d pointer.toNat
        pure ((clear ip (List.finRange NDIRECT)).setAddr (Fin.last NDIRECT) 0, d)
      else pure (clear ip (List.finRange NDIRECT), d₁)
    return ({ s.1 with size := 0 }, iupdate sb s.2 { s.1 with size := 0 })) = _
  rw [hlast]
  by_cases hv : ip.addrs (Fin.last NDIRECT) = 0
  · have hpointer : ip.pointer = none := blockOf_eq_none.mpr hv
    rw [hpointer, List.foldlM_nil] at hok
    obtain rfl : d₁ = d' := Except.ok.inj hok
    have hsame : (clear ip (List.finRange NDIRECT)).setAddr (Fin.last NDIRECT) 0 =
        clear ip (List.finRange NDIRECT) := by
      rw [Inode.setAddr, ← hv, ← hlast, Function.update_eq_self]
    rw [if_neg (by simpa using hv), emptied_of_clear, hsame]
    rfl
  · have hpointer : ip.pointer = some (ip.addrs (Fin.last NDIRECT)).toNat := blockOf_of_ne_zero hv
    have href : refs sb d ino (.pointer ip.inum) = some (ip.addrs (Fin.last NDIRECT)).toNat := by
      rw [refs_pointer hi, hx, hpointer]
    -- the indirect block is as it was when the second loop reads it
    have hread := hfreed₁.same _ (h.nmeta_le (by simp) href)
    rw [hpointer, List.foldlM_append] at hok
    rw [if_pos hv, hread]
    change (do
      let d ← (List.range NINDIRECT).foldlM
        (truncIndirect sb (d (ip.addrs (Fin.last NDIRECT)).toNat).mem) d₁
      let d ← bfree sb d (ip.addrs (Fin.last NDIRECT)).toNat
      let ip := { (clear ip (List.finRange NDIRECT)).setAddr (Fin.last NDIRECT) 0 with size := 0 }
      return (ip, iupdate sb d ip)) = _
    rw [truncIndirect_foldlM]
    cases hok₂ : List.foldlM (bfree sb) d₁ ((List.range NINDIRECT).filterMap fun j =>
        blockOf (getU32 (d (ip.addrs (Fin.last NDIRECT)).toNat).mem (4 * j))) with
    | error e =>
      rw [hok₂] at hok
      cases hok
    | ok d₂ =>
      rw [hok₂] at hok
      have hok₃ : bfree sb d₂ (ip.addrs (Fin.last NDIRECT)).toNat = .ok d' := by
        rw [← hok]
        exact (List.foldlM_cons (b := d₂) ..).trans (bind_pure _) |>.symm
      change (do
        let d ← bfree sb d₂ (ip.addrs (Fin.last NDIRECT)).toNat
        let ip := { (clear ip (List.finRange NDIRECT)).setAddr (Fin.last NDIRECT) 0 with size := 0 }
        return (ip, iupdate sb d ip)) = _
      rw [hok₃, emptied_of_clear]
      rfl

/-! ## The invariant after `itrunc` -/

theorem mem_owners {o : Owner} (h : o ∈ owners i) : o = .pointer i ∨ ∃ bn, o = .block i bn := by
  rw [owners, List.mem_append, List.mem_map, List.mem_singleton] at h
  rcases h with ⟨bn, -, rfl⟩ | rfl
  · exact .inr ⟨bn, rfl⟩
  · exact .inl rfl

theorem mem_owners_of_refs {o : Owner} (h : o = .pointer i ∨ ∃ bn, o = .block i bn)
    (href : refs sb d ino o = some b) : o ∈ owners i := by
  rw [owners, List.mem_append, List.mem_map, List.mem_singleton]
  rcases h with rfl | ⟨bn, rfl⟩
  · exact .inr rfl
  · refine .inl ⟨bn, List.mem_range.mpr ?_, rfl⟩
    by_contra hbn
    rw [refs, addrOf_of_le (by omega), ite_self] at href
    cases href

theorem addrOf_emptied (k : Nat) : addrOf d (emptied ip).toDinode k = none := by
  have hpointer : (emptied ip).pointer = none := rfl
  rw [addrOf, hpointer]
  split
  · rfl
  · rw [Option.bind_none, ite_self]

/-- What is referred to by the other inodes is all there is after `itrunc`. -/
theorem refs_emptied (ip : Inode)
    (hsame : ∀ j p, j < sb.ninodes → (ino j).pointer = some p → d' p = d p)
    (o : Owner) (b : Nat) :
    refs sb d' (Function.update ino i (emptied ip).toDinode) o = some b ↔
      ¬ (o = .pointer i ∨ ∃ bn, o = .block i bn) ∧ refs sb d ino o = some b := by
  cases o with
  | disk c => simp [refs]
  | block j k =>
    rw [refs, refs]
    by_cases hji : j = i
    · rw [hji, Function.update_self, addrOf_emptied, ite_self]
      simp
    · rw [Function.update_of_ne hji]
      have hno : ¬ (Owner.block j k = .pointer i ∨ ∃ bn, Owner.block j k = .block i bn) := by
        simpa using hji
      rw [and_iff_right hno]
      split
      · rename_i hj
        rw [addrOf_congr rfl (fun p hp => (hsame j p hj hp).symm) k]
      · rfl
  | pointer j =>
    rw [refs, refs]
    by_cases hji : j = i
    · have hpointer : (emptied ip).pointer = none := rfl
      rw [hji, Function.update_self, hpointer, ite_self]
      simp
    · rw [Function.update_of_ne hji]
      have hno : ¬ (Owner.pointer j = .pointer i ∨ ∃ bn, Owner.pointer j = .block i bn) := by
        simpa using hji
      rw [and_iff_right hno]

theorem Good.of_freed (hg : Good sb d ino len) (ip : Inode)
    (hfreed : Freed sb d (blocksOf sb d ino i) d') :
    Good sb d' (Function.update ino i (emptied ip).toDinode) (Function.update len i 0) := by
  have hsame : ∀ j p, j < sb.ninodes → (ino j).pointer = some p → d' p = d p := by
    intro j p hj hp
    exact hfreed.same p (hg.toOwned.nmeta_le (o := .pointer j) (by simp) (by rw [refs_pointer hj, hp]))
  have hrefs := refs_emptied (i := i) ip hsame
  have htaken : ∀ c, taken sb d' c ↔ taken sb d c ∧
      ∀ o, (o = .pointer i ∨ ∃ bn, o = .block i bn) → refs sb d ino o ≠ some c := by
    intro c
    rw [taken, taken, hfreed.used, Bool.and_eq_true, decide_eq_true_eq, mem_blocksOf, and_assoc]
    refine and_congr_right fun _ => and_congr_right fun _ => ?_
    constructor
    · intro hno o ho href
      exact hno ⟨o, mem_owners_of_refs ho href, href⟩
    · rintro hall ⟨o, ho, href⟩
      exact hall o (mem_owners ho) href
  refine ⟨⟨hg.owns.release hrefs htaken, hg.noLeak.release hrefs htaken⟩, fun {j k} hj hk => ?_,
    fun {j} hj => ?_, fun {j} hj => ?_⟩
  · by_cases hji : j = i
    · rw [hji, Function.update_self, Function.update_self, addrOf_emptied]
      simp
    · rw [Function.update_of_ne hji, Function.update_of_ne hji, ← hg.mapped hj hk,
        addrOf_congr rfl (fun p hp => (hsame j p hj hp).symm) k]
  · by_cases hji : j = i
    · have hpointer : (emptied ip).pointer = none := rfl
      rw [hji, Function.update_self, Function.update_self, hpointer]
      simp
    · rw [Function.update_of_ne hji, Function.update_of_ne hji]
      exact hg.pointer hj
  · by_cases hji : j = i
    · rw [hji, Function.update_self]
      exact Nat.zero_le _
    · rw [Function.update_of_ne hji]
      exact hg.len_le hj

end Free

end OsCodes.Inodes
