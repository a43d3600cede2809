/-
  The pages a process has been given and the pages it has, in xv6-public.

  `numvp` rounds the size up, `num_phy_page` counts present entries below it.  `Filled d sz absent` is
  what the two differ by: below `sz` all pages are present but those in `absent`, which `mmap` has
  added; the functions that change a directory and its size keep this.

  The laws of this module are those of `LazyLaw` once more, with the pages counted: `Filled`
  survives growing, because all new pages are mapped, and shrinking, because the pages above the
  new size go from the record as well as from the directory.
-/
import Mathlib.Algebra.Order.Interval.Finset.SuccPred
import Mathlib.Data.Nat.SuccPred
import OsCodes.Xv6.LazyLaw

namespace OsCodes.Paging.Lazy

open Refcount
open Xv6 (Image Kmem PgDir kernbase pgsize uint userPages pages walkpgdir)

/-! ## Counting -/

/-- `sys_numvp`. -/
def numvp (sz : Nat) : Nat := pgroundup sz

/-- The loop of `num_phy_page` at `va`, with the count `k`.  Nothing is a `va` that wraps around: the
    loop starts anew. -/
def numPhyLoop (d : PgDir) (sz va k : Nat) : Option Nat :=
  if va < sz then
    let k := match walkpgdir d (va / pgsize) with
      | some pte => if pte.p then k + 1 else k
      | none => k
    if va + pgsize < 4294967296 then numPhyLoop d sz (va + pgsize) k else none
  else some k
termination_by sz - va
decreasing_by
  have hpos : 0 < pgsize := by decide
  omega

/-- `num_phy_page`: the present entries below the size, one by one. -/
def numPhyPage (d : PgDir) (sz : Nat) : Option Nat := numPhyLoop d sz 0 0

/-- The pages below `sz` but those in `absent` are present, and no others of the user. -/
structure Filled (d : PgDir) (sz : Nat) (absent : Finset Nat) : Prop where
  size : sz ≤ kernbase
  below : ∀ v ∈ absent, v < pages sz
  entry : ∀ v, v < userPages → (d.entry v ≠ none ↔ v < pages sz ∧ v ∉ absent)

section Counting

variable {d : PgDir} {sz : Nat} {absent : Finset Nat}

/-- One entry more. -/
theorem numPhyLoop_step {v k : Nat} (hlt : v < pages sz) (hsz : sz ≤ kernbase) :
    numPhyLoop d sz (v * pgsize) k =
      numPhyLoop d sz ((v + 1) * pgsize) (if d.entry v = none then k else k + 1) := by
  have hsz : sz ≤ 2147483648 := hsz
  have hlt : v < (sz + 4096 - 1) / 4096 := hlt
  have hva : v * pgsize < sz := by
    show v * 4096 < sz
    omega
  have hend : v * 4096 + 4096 < 4294967296 := by omega
  have hwrap : v * pgsize + pgsize < 4294967296 := hend
  have hpage : v * pgsize / pgsize = v := Nat.mul_div_cancel _ (by decide)
  have hcount : (match walkpgdir d v with
      | some pte => if pte.p then k + 1 else k
      | none => k) = if d.entry v = none then k else k + 1 := by
    rw [PgDir.entry]
    cases walkpgdir d v with
    | none => rfl
    | some pte =>
      cases hp : pte.p with
      | false => simp [hp]
      | true => simp [hp]
  rw [numPhyLoop, if_pos hva]
  simp only [hpage, hcount, if_pos hwrap]
  rw [Nat.add_mul, Nat.one_mul]

/-- **The loop of `num_phy_page`** counts the present entries that are left. -/
theorem numPhyLoop_eq (hsz : sz ≤ kernbase) {n : Nat} : ∀ {v k : Nat}, v + n = pages sz →
    numPhyLoop d sz (v * pgsize) k =
      some (k + ((Finset.Ico v (pages sz)).filter fun u => d.entry u ≠ none).card) := by
  induction n with
  | zero =>
    intro v k hv
    obtain rfl : v = pages sz := hv
    have hge : ¬ pages sz * pgsize < sz := by
      show ¬ (sz + 4096 - 1) / 4096 * 4096 < sz
      omega
    rw [numPhyLoop, if_neg hge, Finset.Ico_self, Finset.filter_empty, Finset.card_empty,
      Nat.add_zero]
  | succ n ih =>
    intro v k hv
    have hlt : v < pages sz := by omega
    rw [numPhyLoop_step hlt hsz, ih (by omega), ← Finset.insert_Ico_add_one_left_eq_Ico hlt,
      Finset.filter_insert]
    by_cases hnone : d.entry v = none
    · rw [if_pos hnone, if_neg (not_not.mpr hnone)]
    · have hnot : v ∉ (Finset.Ico (v + 1) (pages sz)).filter fun u => d.entry u ≠ none := by
        simp
      rw [if_neg hnone, if_pos hnone]
      refine congrArg some ?_
      rw [Nat.add_assoc, Nat.add_comm 1]
      exact congrArg (k + ·) (Finset.card_insert_of_notMem hnot).symm

/-- **`num_phy_page`** of a directory that is filled: all pages but those absent. -/
theorem Filled.numPhyPage_eq (h : Filled d sz absent) :
    ∃ numpp, numPhyPage d sz = some numpp ∧ numvp sz = numpp + absent.card := by
  have hsub : absent ⊆ Finset.Ico 0 (pages sz) := fun v hv =>
    Finset.mem_Ico.mpr ⟨Nat.zero_le v, h.below v hv⟩
  have hfilter : ((Finset.Ico 0 (pages sz)).filter fun u => d.entry u ≠ none) =
      Finset.Ico 0 (pages sz) \ absent := by
    ext v
    rw [Finset.mem_filter, Finset.mem_sdiff]
    refine and_congr_right fun hv => ?_
    have hlt := (Finset.mem_Ico.mp hv).2
    rw [h.entry v (Nat.lt_of_lt_of_le hlt (Xv6.pages_le h.size)), and_iff_right hlt]
  have heq := numPhyLoop_eq (d := d) h.size (v := 0) (k := 0) (Nat.zero_add (pages sz))
  rw [Nat.zero_mul, hfilter] at heq
  refine ⟨_, heq, ?_⟩
  rw [numvp, pgroundup_eq h.size, Nat.zero_add, Finset.card_sdiff_add_card_eq_card hsub,
    Nat.card_Ico, Nat.sub_zero]

/-- An empty directory. -/
theorem Filled.empty (h : ∀ v, v < userPages → d.entry v = none) : Filled d 0 ∅ := by
  refine ⟨Nat.zero_le _, fun v hv => absurd hv (Finset.notMem_empty v), fun v hv => ?_⟩
  have hzero : pages 0 = 0 := rfl
  exact iff_of_false (not_not.mpr (h v hv)) fun hlt => by omega

end Counting

/-! ## Changing the size -/

section Laws

variable {img : Image} {B : Books plain img} {E : String → Prop} {R : Refs Nat} {d : PgDir}
  {sz : Nat} {k : Kmem} {absent : Finset Nat}

/-- No page is present from the end on. -/
theorem Filled.above (h : Filled d sz absent) {v : Nat} (hv : v < userPages) (hge : pages sz ≤ v) :
    d.entry v = none := by
  by_contra hne
  exact absurd ((h.entry v hv).mp hne).1 (Nat.not_lt_of_le hge)

/-- **`allocuvm`** fills the new pages, or leaves what there was. -/
theorem allocuvm_filled {newsz : Nat} (hf : Filled d sz absent) (h : B.Acct k (R + d.uses)) :
    Allows E (allocuvm plain img d sz newsz k) fun r => B.Acct r.2.2 (R + r.2.1.uses) ∧
      Filled r.2.1 (sizeAfter sz r.1) absent := by
  by_cases hnew : kernbase ≤ newsz
  · rw [allocuvm, if_pos hnew]
    exact .ok ⟨h, hf⟩
  by_cases hwrap : newsz < sz
  · rw [allocuvm, if_neg hnew, if_pos hwrap]
    refine .ok ⟨h, ?_⟩
    rw [sizeAfter, ite_self]
    exact hf
  have hlast : pages newsz ≤ userPages := Xv6.pages_le (by omega)
  have hmono : pages sz ≤ pages newsz := Xv6.pages_mono (by omega)
  refine (allocuvm_spec (by omega) (by omega) (fun u hu hlt hne => absurd (hf.above (by omega) hu)
    hne) h).mono ?_
  rintro ⟨r, d₁, k₁⟩ hpost
  have hpost : Alloced B R d (pages sz) (pages newsz) newsz r d₁ k₁ := hpost
  refine ⟨hpost.acct, ?_⟩
  show Filled d₁ (sizeAfter sz r) absent
  have hnone : ∀ u, pages sz ≤ u → u < pages newsz → d.entry u = none := fun u hu hlt =>
    hf.above (by omega) hu
  rcases hpost.done with ⟨rfl, hfull⟩ | ⟨rfl, hfail⟩
  · have hsize : sizeAfter sz r = r := by
      rw [sizeAfter]
      split
      case isTrue hzero => omega
      case isFalse => rfl
    rw [hsize]
    refine ⟨by omega, fun v hv => Nat.lt_of_lt_of_le (hf.below v hv) hmono, fun v hv => ?_⟩
    by_cases hin : pages sz ≤ v ∧ v < pages r
    · refine iff_of_true (hfull v hin.1 hin.2) ⟨hin.2, fun habs => ?_⟩
      exact absurd (hf.below v habs) (Nat.not_lt_of_le hin.1)
    · rw [hpost.grown.outside v hin, hf.entry v hv]
      exact and_congr_left fun _ => ⟨fun hlt => by omega, fun hlt => by omega⟩
  · refine ⟨hf.size, hf.below, fun v hv => ?_⟩
    show d₁.entry v ≠ none ↔ v < pages sz ∧ v ∉ absent
    rw [← hf.entry v hv]
    by_cases hin : pages sz ≤ v ∧ v < pages newsz
    · rw [hfail v hin.1 hin.2, hnone v hin.1 hin.2]
    · rw [hpost.grown.outside v hin]

/-- **`deallocuvm`** takes the pages above the new size, present or not. -/
theorem deallocuvm_filled {newsz : Nat} (hf : Filled d sz absent) (hle : newsz < sz)
    (h : B.Acct k (R + d.uses)) : Allows E (deallocuvm plain img d sz newsz k) fun r =>
      r.1 = newsz ∧ B.Acct r.2.2 (R + r.2.1.uses) ∧
      Filled r.2.1 newsz (absent.filter fun v => v < pages newsz) := by
  refine (deallocuvm_spec hf.size h).mono ?_
  rintro ⟨r, d₁, k₁⟩ ⟨hgone, hr⟩
  have hgone : Unmapped B R d k (pages newsz) (pages sz) d₁ k₁ := hgone
  rw [if_neg (by omega)] at hr
  have hsize := hf.size
  refine ⟨hr, hgone.acct, by omega, fun v hv => (Finset.mem_filter.mp hv).2, fun v hv => ?_⟩
  show d₁.entry v ≠ none ↔ _
  rw [Finset.mem_filter]
  have hmono : pages newsz ≤ pages sz := Xv6.pages_mono (Nat.le_of_lt hle)
  by_cases hin : pages newsz ≤ v ∧ v < pages sz
  · refine iff_of_false (not_not.mpr (hgone.inside v hin.1 hin.2)) fun hlt => ?_
    omega
  · rw [hgone.outside v hin, hf.entry v hv]
    constructor
    · rintro ⟨hlt, hnot⟩
      exact ⟨by omega, fun habs => hnot habs.1⟩
    · rintro ⟨hlt, hnot⟩
      exact ⟨by omega, fun habs => hnot ⟨habs, hlt⟩⟩

/-! ## `exec` -/

/-- A size with as many pages. -/
theorem Filled.round {sz' : Nat} (h : Filled d sz absent) (hsize : sz' ≤ kernbase)
    (hpages : pages sz' = pages sz) : Filled d sz' absent := by
  refine ⟨hsize, ?_, ?_⟩
  · rw [hpages]
    exact h.below
  · rw [hpages]
    exact h.entry

/-- **Loading** leaves no page out: segment after segment, pages are mapped up to the end. -/
theorem loadLoop_filled : ∀ {phs : List ProgHdr} {d : PgDir} {sz : Nat} {k : Kmem},
    Filled d sz absent → B.Acct k (R + d.uses) →
    Allows E (loadLoop img d sz phs k) fun r => B.Acct r.2.2 (R + r.2.1.uses) ∧
      ∀ sz', r.1 = some sz' → Filled r.2.1 sz' absent := by
  intro phs
  induction phs with
  | nil =>
    intro d sz k hf h
    refine .ok ⟨h, fun sz' hsz => ?_⟩
    rw [← Option.some.inj hsz]
    exact hf
  | cons ph phs ih =>
    intro d sz k hf h
    have hbad : ∀ {d k}, B.Acct k (R + d.uses) → Allows E (.ok (none, d, k))
        fun (r : Option Nat × PgDir × Kmem) => B.Acct r.2.2 (R + r.2.1.uses) ∧
          ∀ sz', r.1 = some sz' → Filled r.2.1 sz' absent := fun h =>
      .ok ⟨h, fun _ hno => by cases hno⟩
    rw [loadLoop]
    split
    case isTrue => exact hbad h
    case isFalse =>
      split
      case isTrue => exact hbad h
      case isFalse =>
        apply (allocuvm_filled hf h).bind
        rintro ⟨r, d₁, k₁⟩ ⟨hacct, hf₁⟩
        show Allows E (if r = 0 then _ else _) _
        split
        case isTrue => exact hbad hacct
        case isFalse hne =>
          split
          case isTrue => exact hbad hacct
          case isFalse =>
            rw [sizeAfter, if_neg hne] at hf₁
            exact ih hf₁ hacct

/-- What `exec` has at the end of its work on the new memory: all of it. -/
def FilledImage (B : Books plain img) (R : Refs Nat) : Option (Nat × PgDir) × Kmem → Prop
  | (none, k') => B.Acct k' R
  | (some (sz, d), k') => B.Acct k' (R + d.uses) ∧ Filled d sz ∅

theorem freevm_filled (h : B.Acct k (R + d.uses)) :
    Allows E (freevm plain img d k >>= fun k => .ok (none, k)) (FilledImage B R) := by
  apply (freevm_spec h).bind
  rintro k₁ ⟨hacct, -⟩
  exact .ok hacct

/-- **The new memory of `exec`** has all its pages. -/
theorem execImage_filled {phs : List ProgHdr} {args : Bool} (hstop : E "clearpteu")
    (h : B.Acct k R) : Allows E (execImage img phs args k) (FilledImage B R) := by
  rw [execImage]
  apply (setupkvm_spec h).bind
  rintro ⟨r, k₁⟩ hnew
  cases r with
  | none => exact .ok hnew.1
  | some d =>
    obtain ⟨hacct, hempty, -⟩ := hnew
    apply (loadLoop_filled (.empty hempty) hacct).bind
    rintro ⟨loaded, d₁, k₂⟩ ⟨hacct₁, hloaded⟩
    cases loaded with
    | none => exact freevm_filled hacct₁
    | some sz =>
      have hf : Filled d₁ sz ∅ := hloaded sz rfl
      show Allows E (allocuvm plain img d₁ (pgroundup sz * pgsize) _ k₂ >>= _) _
      have hround : pages (pgroundup sz * pgsize) = pages sz := by
        rw [pgroundup_eq hf.size, pages_mul]
      have hle : pgroundup sz * pgsize ≤ kernbase := by
        rw [pgroundup_eq hf.size]
        exact Nat.mul_le_of_le_div _ _ _ (Xv6.pages_le hf.size)
      have htop := hf.round hle hround
      generalize pgroundup sz * pgsize = top at htop ⊢
      generalize uint _ = newsz
      apply (allocuvm_filled htop hacct₁).bind
      rintro ⟨r, d₂, k₃⟩ ⟨hacct₂, hf₂⟩
      show Allows E (if r = 0 then _ else _) _
      split
      case isTrue => exact freevm_filled hacct₂
      case isFalse hne =>
        rw [sizeAfter, if_neg hne] at hf₂
        apply (clearpteu_spec hstop).bind
        rintro d₃ ⟨huses, hsame⟩
        have hacct₃ : B.Acct k₃ (R + d₃.uses) := by
          rw [huses]
          exact hacct₂
        cases args with
        | false => exact freevm_filled hacct₃
        | true =>
          refine .ok ⟨hacct₃, hf₂.size, hf₂.below, fun v hv => ?_⟩
          rw [← hf₂.entry v hv]
          rcases hsame v with heq | heq
          · rw [heq]
          · rw [heq, ne_eq, Option.map_eq_none_iff]

end Laws

end OsCodes.Paging.Lazy
