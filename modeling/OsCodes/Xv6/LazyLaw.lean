/-
  The laws of the functions that change the size of a process in xv6-public.

  `growproc` and `exec` move references between the books and a directory like the functions of
  `PagingLaw` that they call.  They also keep all user pages below the size, and from this it follows
  that they find no page mapped already.

  `Below` is the property that all of this is about.  It is what a `growproc` to a larger size
  relies on: `mappages` panics where a page is present already, and a page above the size could
  only be there if an access had mapped it (`LazyBelow` says when).
-/
import OsCodes.Xv6.Lazy

namespace OsCodes.Paging.Lazy

open Xv6 (Image Kmem PgDir kernbase pgsize uint userPages pages)

/-- No user page is mapped at or above the end of the last page of size `sz`. -/
def Below (d : PgDir) (sz : Nat) : Prop :=
  ∀ v, v < userPages → d.entry v ≠ none → v < pages sz

section Laws

variable {img : Image} {B : Books plain img} {E : String → Prop} {R : Refs Nat} {d d' : PgDir}
  {sz : Nat} {k k' : Kmem}

theorem Below.empty (h : ∀ v, v < userPages → d.entry v = none) : Below d sz :=
  fun v hv hne => absurd (h v hv) hne

theorem pages_mul (n : Nat) : pages (n * pgsize) = n := by
  show (n * 4096 + 4096 - 1) / 4096 = n
  omega

/-- The same pages or fewer, and the same size or more. -/
theorem Below.mono {sz' : Nat} (h : Below d sz) (hle : sz ≤ sz')
    (hd : ∀ u, u < userPages → d'.entry u ≠ none → d.entry u ≠ none) : Below d' sz' :=
  fun u hu hne => Nat.lt_of_lt_of_le (h u hu (hd u hu hne)) (Xv6.pages_mono hle)

/-! ## `growproc` -/

/-- The size that a process has when `allocuvm` or `deallocuvm` returns `r`; 0 is an error. -/
def sizeAfter (sz r : Nat) : Nat := if r = 0 then sz else r

/-- The loop of `allocuvm` returns 0 or the new size. -/
theorem allocLoop_size {oldsz newsz : Nat} : ∀ {n a : Nat} {d : PgDir} {k : Kmem},
    Allows (fun _ => True) (allocLoop plain img oldsz newsz d a n k) fun r =>
      r.1 = 0 ∨ r.1 = newsz := by
  intro n
  induction n with
  | zero => exact .ok (.inr rfl)
  | succ n ih =>
    intro a d k
    rw [allocLoop]
    apply Allows.skip
    rintro ⟨mem, k₁⟩
    cases mem with
    | none => exact .skip fun _ => .ok (.inl rfl)
    | some mem =>
      apply Allows.skip
      rintro ⟨mapped, d₁, k₂⟩
      cases mapped with
      | true => exact ih
      | false => exact .skip fun _ => .skip fun _ => .ok (.inl rfl)

/-- The sizes that `allocuvm` returns. -/
theorem allocuvm_size {newsz : Nat} : Allows (fun _ => True) (allocuvm plain img d sz newsz k)
    fun r => r.1 = 0 ∨ (r.1 = sz ∧ newsz < sz) ∨ (r.1 = newsz ∧ sz ≤ newsz ∧ newsz < kernbase) := by
  rw [allocuvm]
  split
  case isTrue => exact .ok (.inl rfl)
  case isFalse hnew =>
    split
    case isTrue hwrap => exact .ok (.inr (.inl ⟨rfl, hwrap⟩))
    case isFalse hle =>
      exact allocLoop_size.mono fun r hr => hr.imp_right fun heq => .inr ⟨heq, by omega, by omega⟩

/-- **`allocuvm`** keeps the user pages below the size. -/
theorem allocuvm_below {newsz : Nat}
    (hremap : (∃ u, u < userPages ∧ pages sz ≤ u ∧ d.entry u ≠ none) → E "remap")
    (h : B.Acct k (R + d.uses)) : Allows E (allocuvm plain img d sz newsz k) fun r =>
      B.Acct r.2.2 (R + r.2.1.uses) ∧ (Below d sz → Below r.2.1 (sizeAfter sz r.1)) := by
  by_cases hnew : kernbase ≤ newsz
  · rw [allocuvm, if_pos hnew]
    exact .ok ⟨h, id⟩
  by_cases hwrap : newsz < sz
  · rw [allocuvm, if_neg hnew, if_pos hwrap]
    refine .ok ⟨h, fun hb => ?_⟩
    rw [sizeAfter, ite_self]
    exact hb
  have hlast : pages newsz ≤ userPages := Xv6.pages_le (by omega)
  have hmono : pages sz ≤ pages newsz := Xv6.pages_mono (by omega)
  refine (allocuvm_spec (by omega) (by omega) (fun u hu hlt hne => hremap ⟨u, by omega, hu, hne⟩)
    h).mono ?_
  rintro ⟨r, d₁, k₁⟩ hpost
  have hpost : Alloced B R d (pages sz) (pages newsz) newsz r d₁ k₁ := hpost
  refine ⟨hpost.acct, fun hb u hu hne => ?_⟩
  have hold : ¬ (pages sz ≤ u ∧ u < pages newsz) → u < pages sz := fun hout => by
    have hne : d₁.entry u ≠ none := hne
    rw [hpost.grown.outside u hout] at hne
    exact hb u hu hne
  show u < pages (sizeAfter sz r)
  cases hpost.done with
  | inl hdone =>
    obtain ⟨rfl, -⟩ := hdone
    rw [sizeAfter]
    split
    case isTrue hzero =>
      refine hold fun hin => ?_
      rw [hzero] at hin
      exact absurd hin.2 (Nat.not_lt_zero u)
    case isFalse =>
      by_contra hge
      exact hge (Nat.lt_of_lt_of_le (hold (by omega)) hmono)
  | inr hfail =>
    obtain ⟨rfl, hnone⟩ := hfail
    exact hold fun hin => hne (hnone u hin.1 hin.2)

/-- **`deallocuvm`** keeps the user pages below the size. -/
theorem deallocuvm_below {newsz : Nat} (hsz : sz ≤ kernbase) (h : B.Acct k (R + d.uses)) :
    Allows E (deallocuvm plain img d sz newsz k) fun r =>
      B.Acct r.2.2 (R + r.2.1.uses) ∧ (Below d sz → Below r.2.1 (sizeAfter sz r.1)) := by
  refine (deallocuvm_spec hsz h).mono ?_
  rintro ⟨r, d₁, k₁⟩ ⟨hgone, hr⟩
  have hgone : Unmapped B R d k (pages newsz) (pages sz) d₁ k₁ := hgone
  have hr : r = if sz ≤ newsz then sz else newsz := hr
  refine ⟨hgone.acct, fun hb u hu hne => ?_⟩
  have hne : d₁.entry u ≠ none := hne
  have hout : ¬ (pages newsz ≤ u ∧ u < pages sz) := fun hin => hne (hgone.inside u hin.1 hin.2)
  rw [hgone.outside u hout] at hne
  have hlt := hb u hu hne
  show u < pages (sizeAfter sz r)
  rw [sizeAfter]
  split
  case isTrue => exact hlt
  case isFalse =>
    rw [hr]
    split
    case isTrue => exact hlt
    case isFalse => omega

/-- What `growproc` does with a new size `r`. -/
theorem growproc_ends {r : Nat} {d₁ : PgDir} {k₁ : Kmem} (hacct : B.Acct k₁ (R + d₁.uses))
    (hbelow : Below d sz → Below d₁ (sizeAfter sz r)) :
    Allows E (if r = 0 then .ok (-1, sz, d₁, k₁) else .ok (0, r, d₁, k₁))
      fun (r : Int × Nat × PgDir × Kmem) =>
        B.Acct r.2.2.2 (R + r.2.2.1.uses) ∧ (Below d sz → Below r.2.2.1 r.2.1) := by
  rw [sizeAfter] at hbelow
  split
  case isTrue hzero =>
    rw [if_pos hzero] at hbelow
    exact .ok ⟨hacct, hbelow⟩
  case isFalse hne =>
    rw [if_neg hne] at hbelow
    exact .ok ⟨hacct, hbelow⟩

/-- **`growproc`** keeps the user pages below the size, and then cannot find a page mapped. -/
theorem growproc_spec {n : Int} (hshrink : n < 0 → sz ≤ kernbase)
    (hremap : (∃ u, u < userPages ∧ pages sz ≤ u ∧ d.entry u ≠ none) → E "remap")
    (h : B.Acct k (R + d.uses)) : Allows E (growproc img d sz n k) fun r =>
      B.Acct r.2.2.2 (R + r.2.2.1.uses) ∧ (Below d sz → Below r.2.2.1 r.2.1) := by
  rw [growproc]
  split
  case isTrue =>
    apply (allocuvm_below hremap h).bind
    rintro ⟨r, d₁, k₁⟩ ⟨hacct, hbelow⟩
    exact growproc_ends hacct hbelow
  case isFalse =>
    split
    case isTrue hneg =>
      apply (deallocuvm_below (hshrink hneg) h).bind
      rintro ⟨r, d₁, k₁⟩ ⟨hacct, hbelow⟩
      exact growproc_ends hacct hbelow
    case isFalse => exact .ok ⟨h, id⟩

/-- The sizes that `growproc` leaves. -/
theorem growproc_size {n : Int} : Allows (fun _ => True) (growproc img d sz n k) fun r =>
    r.2.1 < kernbase ∨ r.2.1 ≤ sz := by
  have hends : ∀ {r : Nat} {d₁ : PgDir} {k₁ : Kmem}, r < kernbase ∨ r ≤ sz →
      Allows (fun (_ : String) => True) (if r = 0 then .ok (-1, sz, d₁, k₁) else .ok (0, r, d₁, k₁))
        fun (r : Int × Nat × PgDir × Kmem) => r.2.1 < kernbase ∨ r.2.1 ≤ sz := by
    intro r d₁ k₁ hr
    split
    case isTrue => exact .ok (.inr le_rfl)
    case isFalse => exact .ok hr
  rw [growproc]
  split
  case isTrue =>
    apply allocuvm_size.bind
    rintro ⟨r, d₁, k₁⟩ hsize
    generalize uint (sz + n) = newsz at hsize
    have hsize : r = 0 ∨ (r = sz ∧ newsz < sz) ∨ (r = newsz ∧ sz ≤ newsz ∧ newsz < kernbase) :=
      hsize
    exact hends (by omega)
  case isFalse =>
    split
    case isTrue =>
      rw [deallocuvm]
      split
      case isTrue => exact hends (.inr le_rfl)
      case isFalse hlt =>
        show Allows _ ((_ >>= fun _ => _) >>= _) _
        rw [bind_assoc]
        exact .skip fun _ => hends (.inr (by omega))
    case isFalse => exact .ok (.inr le_rfl)

/-! ## `exec` -/

/-- **Loading** keeps the user pages below the size. -/
theorem loadLoop_spec : ∀ {phs : List ProgHdr} {d : PgDir} {sz : Nat} {k : Kmem},
    (Below d sz ∧ sz < kernbase) → B.Acct k (R + d.uses) →
    Allows E (loadLoop img d sz phs k) fun r => B.Acct r.2.2 (R + r.2.1.uses) ∧
      ∀ sz', r.1 = some sz' → Below r.2.1 sz' ∧ sz' < kernbase := by
  intro phs
  induction phs with
  | nil =>
    intro d sz k hb h
    refine .ok ⟨h, fun sz' hsz => ?_⟩
    rw [← Option.some.inj hsz]
    exact hb
  | cons ph phs ih =>
    intro d sz k hb h
    have hbad : ∀ {d k}, B.Acct k (R + d.uses) → Allows E (.ok (none, d, k))
        fun (r : Option Nat × PgDir × Kmem) => B.Acct r.2.2 (R + r.2.1.uses) ∧
          ∀ sz', r.1 = some sz' → Below r.2.1 sz' ∧ sz' < kernbase := fun h =>
      .ok ⟨h, fun _ hno => by cases hno⟩
    rw [loadLoop]
    split
    case isTrue => exact hbad h
    case isFalse =>
      split
      case isTrue => exact hbad h
      case isFalse =>
        have hremap : (∃ u, u < userPages ∧ pages sz ≤ u ∧ d.entry u ≠ none) → E "remap" :=
          fun ⟨u, hu, hge, hne⟩ => absurd (hb.1 u hu hne) (Nat.not_lt_of_le hge)
        apply ((allocuvm_below hremap h).and allocuvm_size).bind
        rintro ⟨r, d₁, k₁⟩ ⟨⟨hacct, hbelow⟩, hsize⟩
        have hsize : r = 0 ∨ (r = sz ∧ _) ∨ (r = uint (ph.vaddr + ph.memsz) ∧ _) := hsize
        show Allows E (if r = 0 then _ else _) _
        split
        case isTrue => exact hbad hacct
        case isFalse hne =>
          split
          case isTrue => exact hbad hacct
          case isFalse =>
            have hbelow := hbelow hb.1
            rw [sizeAfter, if_neg hne] at hbelow
            exact ih ⟨hbelow, by omega⟩ hacct

/-- What `exec` has at the end of its work on the new memory. -/
def NewImage (B : Books plain img) (R : Refs Nat) : Option (Nat × PgDir) × Kmem → Prop
  | (none, k') => B.Acct k' R
  | (some (sz, d), k') => B.Acct k' (R + d.uses) ∧ Below d sz ∧ sz < kernbase

/-- Giving the new memory back. -/
theorem freevm_bad (h : B.Acct k (R + d.uses)) :
    Allows E (freevm plain img d k >>= fun k => .ok (none, k)) (NewImage B R) := by
  apply (freevm_spec h).bind
  rintro k₁ ⟨hacct, -⟩
  exact .ok hacct

/-- **The new memory of `exec`** has its pages below its size, and ends below `KERNBASE`. -/
theorem execImage_spec {phs : List ProgHdr} {args : Bool} (hstop : E "clearpteu")
    (h : B.Acct k R) : Allows E (execImage img phs args k) (NewImage B R) := by
  rw [execImage]
  apply (setupkvm_spec h).bind
  rintro ⟨r, k₁⟩ hnew
  cases r with
  | none => exact .ok hnew.1
  | some d =>
    obtain ⟨hacct, hempty, -⟩ := hnew
    have hstart : Below d 0 ∧ 0 < kernbase := ⟨.empty hempty, by decide⟩
    apply (loadLoop_spec hstart hacct).bind
    rintro ⟨loaded, d₁, k₂⟩ ⟨hacct₁, hloaded⟩
    cases loaded with
    | none => exact freevm_bad hacct₁
    | some sz =>
      have hend : Below d₁ sz ∧ sz < kernbase := hloaded sz rfl
      have hb := hend.1
      have hsz := hend.2
      show Allows E (allocuvm plain img d₁ (pgroundup sz * pgsize) _ k₂ >>= _) _
      have hround : pages (pgroundup sz * pgsize) = pages sz := by
        rw [pgroundup_eq (Nat.le_of_lt hsz), pages_mul]
      have hle : pgroundup sz * pgsize ≤ kernbase := by
        rw [pgroundup_eq (Nat.le_of_lt hsz)]
        exact Nat.mul_le_of_le_div _ _ _ (Xv6.pages_le (Nat.le_of_lt hsz))
      generalize pgroundup sz * pgsize = top at *
      have hbelow : Below d₁ top := fun u hu hne => by
        rw [hround]
        exact hb u hu hne
      have hremap : (∃ u, u < userPages ∧ pages top ≤ u ∧ d₁.entry u ≠ none) → E "remap" :=
        fun ⟨u, hu, hge, hne⟩ => absurd (hbelow u hu hne) (Nat.not_lt_of_le hge)
      have hmax : top ≤ 2147483648 := hle
      have htwo : uint (top + 2 * pgsize) = top + 8192 := by
        show (((top : Int) + 2 * 4096) % 4294967296).toNat = top + 8192
        omega
      rw [htwo]
      generalize hnew : top + 8192 = newsz
      apply ((allocuvm_below hremap hacct₁).and allocuvm_size).bind
      rintro ⟨r, d₂, k₃⟩ ⟨⟨hacct₂, hbelow₂⟩, hsize⟩
      have hsize : r = 0 ∨ (r = top ∧ newsz < top) ∨ (r = newsz ∧ top ≤ newsz ∧ newsz < kernbase) :=
        hsize
      show Allows E (if r = 0 then _ else _) _
      split
      case isTrue => exact freevm_bad hacct₂
      case isFalse hne =>
        have hbelow₂ := hbelow₂ hbelow
        rw [sizeAfter, if_neg hne] at hbelow₂
        apply (clearpteu_spec hstop).bind
        rintro d₃ ⟨huses, hsame⟩
        have hacct₃ : B.Acct k₃ (R + d₃.uses) := by
          rw [huses]
          exact hacct₂
        cases args with
        | false => exact freevm_bad hacct₃
        | true =>
          refine .ok ⟨hacct₃, hbelow₂.mono le_rfl fun u _ hne hnone => hne ?_, ?_⟩
          · cases hsame u with
            | inl heq => rw [heq, hnone]
            | inr heq => rw [heq, hnone, Option.map_none]
          · show r < kernbase
            omega

end Laws

end OsCodes.Paging.Lazy
