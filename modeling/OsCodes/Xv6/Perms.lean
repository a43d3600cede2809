/-
  The permissions of the entries of a page directory.

  `Meets P d`: every present entry of `d` has permissions with `P`.  New entries come from `mappages`,
  with the permissions that its caller gives, so these are all there is to look at, whether or not
  memory lasts.  What `kalloc` and `kfree` keep is kept along with it.

  `Meets` goes through every function of `Paging` in the same way: a loop keeps it because each
  turn sets one entry, with permissions that its caller has vouched for.  The loops that give
  pages back keep it by the rules of `PageTable`.  `P` is chosen by the user: that an entry for
  user mode is below `KERNBASE` (`CowFault`), or that a user page may be written (`LazyPerms`).
-/
import OsCodes.Xv6.Paging
import OsCodes.Xv6.Resize

namespace OsCodes.Paging

open Xv6

/-- The present entries have permissions with `P`. -/
def Meets (P : Nat → Perm → Prop) (d : PgDir) : Prop := ∀ v e, d.entry v = some e → P v e.toPerm

section Meets

variable {A : Allocator} {img : Image} {P : Nat → Perm → Prop} {d : PgDir} {k : Kmem} {v : Nat}

/-- A directory without page tables. -/
theorem Meets.no_table (h : ∀ i, d.table i = none) : Meets P d := by
  intro v e he
  rw [entry_of_no_tables h] at he
  cases he

/-- Setting an entry of a page table that is there. -/
theorem Meets.setPte {x : Pte} (h : Meets P d) (ht : (d.table (pdx v)).isSome)
    (hx : x.p = true → P v x.toPerm) : Meets P (d.setPte v x) := by
  intro u e he
  rw [entry_setPte ht] at he
  by_cases hu : u = v
  · rw [hu, Function.update_self] at he
    split at he
    case isTrue hp =>
      rw [hu, ← Option.some.inj he]
      exact hx hp
    case isFalse => cases he
  · rw [Function.update_of_ne hu] at he
    exact h u e he

/-- A present entry is in a page table. -/
theorem table_of_entry {e : Pte} (he : d.entry v = some e) : (d.table (pdx v)).isSome :=
  (walkpgdir_eq_some.mp (entry_eq_some.mp he).1).1

/-! ## Mapping -/

/-- `J` is kept by `kalloc` and `kfree`, and does not depend on contents. -/
structure Stable (A : Allocator) (img : Image) (J : Kmem → Prop) : Prop where
  kalloc : ∀ {k}, J k → Allows (fun _ => True) (A.kalloc k) fun r => J r.2
  kfree : ∀ {k p}, J k → Allows (fun _ => True) (A.kfree img p k) J
  setMem : ∀ {k} (mem : Nat → Page), J k → J { k with mem := mem }

/-- Nothing is asked of the memory. -/
theorem Stable.trivial : Stable A img fun _ => True :=
  ⟨fun _ => .any, fun _ => .any, fun _ _ => .intro⟩

variable {J : Kmem → Prop}

theorem walkpgdirAlloc_meets (hJ : Stable A img J) (h : Meets P d) (hk : J k) :
    Allows (fun _ => True) (walkpgdirAlloc A d v k) fun r =>
      Meets P r.2.1 ∧ J r.2.2 ∧ (r.1 = true → (r.2.1.table (pdx v)).isSome) := by
  unfold walkpgdirAlloc
  split
  case h_1 t ht => exact .ok ⟨h, hk, fun _ => by rw [ht]; rfl⟩
  case h_2 hnone =>
    apply (hJ.kalloc hk).bind
    rintro ⟨r, k₁⟩ hk₁
    cases r with
    | none => exact .ok ⟨h, hk₁, fun hno => by cases hno⟩
    | some pgtab =>
      refine .ok ⟨fun u e he => ?_, hk₁, fun _ => ?_⟩
      · rw [entry_setPde hnone] at he
        exact h u e he
      · show (Function.update d.table (pdx v) (some pgtab) (pdx v)).isSome
        rw [Function.update_self]
        rfl

/-- **`mappages`** with permissions that have `P`. -/
theorem mappages_meets {perm : Perm} (hJ : Stable A img J) :
    ∀ {n a pa : Nat} {d : PgDir} {k : Kmem}, Meets P d → J k →
    (∀ u, a ≤ u → u < a + n → P u perm) →
    Allows (fun _ => True) (mappages A d a n pa perm k) fun r => Meets P r.2.1 ∧ J r.2.2 := by
  intro n
  induction n with
  | zero => exact fun h hk _ => .ok ⟨h, hk⟩
  | succ n ih =>
    intro a pa d k h hk hperm
    rw [mappages]
    apply (walkpgdirAlloc_meets hJ h hk).bind
    rintro ⟨found, d₁, k₁⟩ ⟨h₁, hk₁, ht⟩
    cases found with
    | false => exact .ok ⟨h₁, hk₁⟩
    | true =>
      show Allows _ (if (d₁.pte a).p then _ else _) _
      split
      case isTrue => exact .stop trivial
      case isFalse =>
        exact ih (h₁.setPte (ht rfl) fun _ => hperm a le_rfl (by omega)) hk₁
          fun u hu hlt => hperm u (by omega) (by omega)

theorem mappages_one_meets {pa : Nat} {perm : Perm} (hJ : Stable A img J) (h : Meets P d)
    (hk : J k) (hperm : P v perm) :
    Allows (fun _ => True) (mappages A d v 1 pa perm k) fun r => Meets P r.2.1 ∧ J r.2.2 := by
  refine mappages_meets hJ h hk fun u hu hlt => ?_
  obtain rfl : u = v := by omega
  exact hperm

theorem mapKernel_meets (hJ : Stable A img J) : ∀ {es : List Kmap} {d : PgDir} {k : Kmem},
    Meets P d → J k → (∀ e ∈ es, ∀ u, e.virt ≤ u → P u e.perm) →
    Allows (fun _ => True) (mapKernel A d es k) fun r => Meets P r.2.1 ∧ J r.2.2 := by
  intro es
  induction es with
  | nil => exact fun h hk _ => .ok ⟨h, hk⟩
  | cons e es ih =>
    intro d k h hk hes
    rw [mapKernel]
    apply (mappages_meets hJ h hk fun u hu _ => hes e List.mem_cons_self u hu).bind
    rintro ⟨mapped, d₁, k₁⟩ ⟨h₁, hk₁⟩
    cases mapped with
    | false => exact .ok ⟨h₁, hk₁⟩
    | true => exact ih h₁ hk₁ fun e' he' => hes e' (List.mem_cons_of_mem e he')

/-! ## Shrinking and freeing -/

theorem deallocLoop_meets {a last : Nat} {panic : String} (hJ : Stable A img J) (h : Meets P d)
    (hk : J k) : Allows (fun _ => True) (deallocLoop (A.kfree img) panic d a last k) fun r =>
      Meets P r.1 ∧ J r.2 := by
  refine deallocLoop_keeps (I := fun d k => Meets P d ∧ J k) trivial (fun hI _ he => ?_) ⟨h, hk⟩
  have ht := (walkpgdir_eq_some.mp (entry_eq_some.mp he).1).1
  exact (hJ.kfree hI.2).mono fun _ hk₁ => ⟨hI.1.setPte ht fun hno => (by cases hno), hk₁⟩

theorem deallocuvm_meets {oldsz newsz : Nat} (hJ : Stable A img J) (h : Meets P d) (hk : J k) :
    Allows (fun _ => True) (deallocuvm A img d oldsz newsz k) fun r =>
      Meets P r.2.1 ∧ J r.2.2 := by
  rw [deallocuvm]
  split
  case isTrue => exact .ok ⟨h, hk⟩
  case isFalse => exact (deallocLoop_meets hJ h hk).bind fun _ h' => .ok h'

theorem freeLoop_stable {i n : Nat} (hJ : Stable A img J) (hk : J k) :
    Allows (fun _ => True) (freeLoop (A.kfree img) d i n k) J :=
  freeLoop_rule _ (I := fun _ => J) (fun _ _ hk => hk) (fun _ _ hk => hJ.kfree hk) rfl hk

theorem freevm_stable (hJ : Stable A img J) (hk : J k) :
    Allows (fun _ => True) (freevm A img d k) J := by
  have hany : Meets (fun _ _ => True) d := fun _ _ _ => trivial
  rw [freevm]
  apply (deallocuvm_meets hJ hany hk).bind
  rintro ⟨_, d₁, k₁⟩ ⟨-, hk₁⟩
  exact (freeLoop_stable hJ hk₁).bind fun _ hk₂ => hJ.kfree hk₂

/-- **`setupkvm`**, where the permissions in `kmap` have `P`. -/
theorem setupkvm_meets (hJ : Stable A img J)
    (hkmap : ∀ e ∈ kmap img, ∀ u, e.virt ≤ u → P u e.perm) (hk : J k) :
    Allows (fun _ => True) (setupkvm A img k) fun r =>
      (∀ d, r.1 = some d → Meets P d) ∧ J r.2 := by
  rw [setupkvm]
  apply (hJ.kalloc hk).bind
  rintro ⟨r, k₁⟩ hk₁
  cases r with
  | none => exact .ok ⟨fun d hd => (by cases hd), hk₁⟩
  | some pgdir =>
    show Allows _ (if devspace < kernbase + phystop then _ else _) _
    split
    case isTrue => exact .stop trivial
    case isFalse =>
      apply (mapKernel_meets hJ (.no_table fun _ => rfl) hk₁ hkmap).bind
      rintro ⟨mapped, d, k₂⟩ ⟨h, hk₂⟩
      cases mapped with
      | false =>
        exact (freevm_stable hJ hk₂).bind fun _ hk₃ => .ok ⟨fun d hd => (by cases hd), hk₃⟩
      | true =>
        refine .ok ⟨fun d' hd => ?_, hk₂⟩
        rw [← Option.some.inj hd]
        exact h

/-! ## Growing -/

theorem allocLoop_meets {oldsz newsz : Nat} (hJ : Stable A img J) :
    ∀ {n a : Nat} {d : PgDir} {k : Kmem}, Meets P d → J k →
    (∀ u, a ≤ u → u < a + n → P u ⟨true, true, false⟩) →
    Allows (fun _ => True) (allocLoop A img oldsz newsz d a n k) fun r =>
      Meets P r.2.1 ∧ J r.2.2 := by
  intro n
  induction n with
  | zero => exact fun h hk _ => .ok ⟨h, hk⟩
  | succ n ih =>
    intro a d k h hk hperm
    rw [allocLoop]
    apply (hJ.kalloc hk).bind
    rintro ⟨r, k₁⟩ hk₁
    cases r with
    | none => exact (deallocuvm_meets hJ h hk₁).bind fun _ h' => .ok h'
    | some mem =>
      apply (mappages_one_meets hJ h (hJ.setMem _ hk₁) (hperm a le_rfl (by omega))).bind
      rintro ⟨mapped, d₁, k₂⟩ ⟨h₁, hk₂⟩
      cases mapped with
      | false =>
        exact (deallocuvm_meets hJ h₁ hk₂).bind fun _ h' => (hJ.kfree h'.2).bind fun _ hk₃ =>
          .ok ⟨h'.1, hk₃⟩
      | true => exact ih h₁ hk₂ fun u hu hlt => hperm u (by omega) (by omega)

/-- **`allocuvm`** maps user pages only. -/
theorem allocuvm_meets {oldsz newsz : Nat} (hJ : Stable A img J) (h : Meets P d) (hk : J k)
    (hperm : ∀ u, u < userPages → P u ⟨true, true, false⟩) :
    Allows (fun _ => True) (allocuvm A img d oldsz newsz k) fun r =>
      Meets P r.2.1 ∧ J r.2.2 := by
  rw [allocuvm]
  split
  case isTrue => exact .ok ⟨h, hk⟩
  case isFalse hnew =>
    split
    case isTrue => exact .ok ⟨h, hk⟩
    case isFalse =>
      have hlast : pages newsz ≤ userPages := pages_le (by omega)
      exact allocLoop_meets hJ h hk fun u hu hlt => hperm u (by omega)

theorem clearpteu_meets (h : Meets P d) (hperm : ∀ perm, P v perm → P v { perm with u := false }) :
    Allows (fun _ => True) (clearpteu d v) (Meets P) := by
  rw [clearpteu]
  split
  case h_1 => exact .stop trivial
  case h_2 pte hwalk =>
    refine .ok (h.setPte (walkpgdir_eq_some.mp hwalk).1 fun hp => ?_)
    exact hperm pte.toPerm (h v pte (entry_eq_some.mpr ⟨hwalk, hp⟩))

/-! ## Copying and page faults -/

/-- **The loop of `copyuvm`, sharing**, of permissions that have `P` still. -/
theorem Cow.copyLoop_meets (hshare : ∀ u perm, P u perm → P u { perm with w := false, cow := true }) :
    ∀ {n i : Nat} {pgdir d : PgDir} {k : Kmem}, Meets P pgdir → Meets P d →
    Allows (fun _ => True) (copyLoop img pgdir d i n k) fun r =>
      Meets P r.2.1 ∧ Meets P r.2.2.1 := by
  intro n
  induction n with
  | zero => exact fun hp hd => .ok ⟨hp, hd⟩
  | succ n ih =>
    intro i pgdir d k hparent hd
    rw [copyLoop]
    split
    case h_1 => exact .stop trivial
    case h_2 pte hwalk =>
      cases hp : pte.p with
      | false => exact .stop trivial
      | true =>
        have he : pgdir.entry i = some pte := entry_eq_some.mpr ⟨hwalk, hp⟩
        have hperm := hshare i pte.toPerm (hparent i pte he)
        have hparent' : Meets P (pgdir.setPte i pte.share) :=
          hparent.setPte (table_of_entry he) fun _ => hperm
        refine .skip fun k₁ => ?_
        apply (mappages_one_meets (Stable.trivial : Stable counted img _) hd trivial hperm).bind
        rintro ⟨mapped, d₁, k₂⟩ ⟨hd₁, -⟩
        cases mapped with
        | false => exact .skip fun _ => .ok ⟨hparent', hd₁⟩
        | true => exact ih hparent' hd₁

/-- **`copyuvm` of xv6-public(1).** -/
theorem Cow.copyuvm_meets {sz : Nat} (hkmap : ∀ e ∈ kmap img, ∀ u, e.virt ≤ u → P u e.perm)
    (hshare : ∀ u perm, P u perm → P u { perm with w := false, cow := true }) (h : Meets P d) :
    Allows (fun _ => True) (copyuvm img d sz k) fun r =>
      Meets P r.2.1 ∧ ∀ d', r.1 = some d' → Meets P d' := by
  rw [copyuvm]
  apply (setupkvm_meets .trivial hkmap trivial).bind
  rintro ⟨r, k₁⟩ ⟨hnew, -⟩
  cases r with
  | none => exact .ok ⟨h, fun d' hd' => by cases hd'⟩
  | some child =>
    apply (copyLoop_meets hshare h (hnew child rfl)).bind
    rintro ⟨copied, pgdir, d₁, k₂⟩ ⟨hparent, hchild⟩
    cases copied with
    | false => exact .skip fun _ => .ok ⟨hparent, fun d' hd' => by cases hd'⟩
    | true =>
      refine .ok ⟨hparent, fun d' hd' => ?_⟩
      rw [← Option.some.inj hd']
      exact hchild

theorem Cow.handlePgfltHelper_meets (h : Meets P d)
    (hperm : ∀ perm, P v perm → P v { perm with w := true, cow := false }) :
    Allows (fun _ => True) (handlePgfltHelper img d v k) fun r => Meets P r.1 := by
  rw [handlePgfltHelper]
  split
  case h_1 => exact .stop trivial
  case h_2 pte hwalk =>
    split
    case isTrue => exact .stop trivial
    case isFalse =>
      split
      case isTrue => exact .stop trivial
      case isFalse hp =>
        split
        case isTrue => exact .stop trivial
        case isFalse =>
          apply Allows.skip
          rintro ⟨r, k₁⟩
          cases r with
          | none => exact .stop trivial
          | some mem =>
            have he : d.entry v = some pte := entry_eq_some.mpr ⟨hwalk, by simpa using hp⟩
            refine .skip fun k₂ => .ok (h.setPte (table_of_entry he) fun _ => ?_)
            exact hperm pte.toPerm (h v pte he)

/-- **The loop of `copyuvm`, copying.** -/
theorem Eager.copyLoop_meets {pgdir : PgDir} (hJ : Stable plain img J) (hparent : Meets P pgdir) :
    ∀ {n i : Nat} {d : PgDir} {k : Kmem}, Meets P d → J k →
    Allows (fun _ => True) (copyLoop img pgdir d i n k) fun r => Meets P r.2.1 ∧ J r.2.2 := by
  intro n
  induction n with
  | zero => exact fun hd hk => .ok ⟨hd, hk⟩
  | succ n ih =>
    intro i d k hd hk
    rw [copyLoop]
    split
    case h_1 => exact .stop trivial
    case h_2 pte hwalk =>
      cases hp : pte.p with
      | false => exact .stop trivial
      | true =>
        apply (hJ.kalloc hk).bind
        rintro ⟨r, k₁⟩ hk₁
        cases r with
        | none => exact .ok ⟨hd, hk₁⟩
        | some mem =>
          have hperm := hparent i pte (entry_eq_some.mpr ⟨hwalk, hp⟩)
          apply (mappages_one_meets hJ hd (hJ.setMem _ hk₁) hperm).bind
          rintro ⟨mapped, d₁, k₂⟩ ⟨hd₁, hk₂⟩
          cases mapped with
          | false => exact (hJ.kfree hk₂).bind fun _ hk₃ => .ok ⟨hd₁, hk₃⟩
          | true => exact ih hd₁ hk₂

/-- **`copyuvm` of xv6-public.** -/
theorem Eager.copyuvm_meets {sz : Nat} (hJ : Stable plain img J)
    (hkmap : ∀ e ∈ kmap img, ∀ u, e.virt ≤ u → P u e.perm) (h : Meets P d) (hk : J k) :
    Allows (fun _ => True) (copyuvm img d sz k) fun r =>
      (∀ d', r.1 = some d' → Meets P d') ∧ J r.2 := by
  rw [copyuvm]
  apply (setupkvm_meets hJ hkmap hk).bind
  rintro ⟨r, k₁⟩ ⟨hnew, hk₁⟩
  cases r with
  | none => exact .ok ⟨fun d' hd' => (by cases hd'), hk₁⟩
  | some child =>
    apply (copyLoop_meets hJ h (hnew child rfl) hk₁).bind
    rintro ⟨copied, d₁, k₂⟩ ⟨hchild, hk₂⟩
    cases copied with
    | false =>
      exact (freevm_stable hJ hk₂).bind fun _ hk₃ => .ok ⟨fun d' hd' => (by cases hd'), hk₃⟩
    | true =>
      refine .ok ⟨fun d' hd' => ?_, hk₂⟩
      rw [← Option.some.inj hd']
      exact hchild

theorem Eager.allocateOnPgflt_meets (hJ : Stable plain img J) (h : Meets P d) (hk : J k)
    (hperm : P v ⟨true, true, false⟩) :
    Allows (fun _ => True) (allocateOnPgflt img d v k) fun r => Meets P r.1 ∧ J r.2 := by
  rw [allocateOnPgflt]
  apply (hJ.kalloc hk).bind
  rintro ⟨r, k₁⟩ hk₁
  cases r with
  | none => exact .ok ⟨h, hk₁⟩
  | some mem =>
    apply (mappages_one_meets hJ h (hJ.setMem _ hk₁) hperm).bind
    rintro ⟨mapped, d₁, k₂⟩ ⟨h₁, hk₂⟩
    cases mapped with
    | false => exact (hJ.kfree hk₂).bind fun _ hk₃ => .ok ⟨h₁, hk₃⟩
    | true => exact .ok ⟨h₁, hk₂⟩

end Meets

/-! ## The kernel part -/

/-- The entries of `kmap` are for the kernel alone. -/
theorem kmap_kernel (img : Image) : ∀ e ∈ kmap img, e.perm.u = false := by
  simp [kmap]

/-- The entries of `kmap` are above `KERNBASE`. -/
theorem kmap_above (img : Image) : ∀ e ∈ kmap img, userPages ≤ e.virt := by
  have hdev : kernbase / pgsize ≤ devspace / pgsize := by decide
  simp [kmap, userPages, hdev]

end OsCodes.Paging
