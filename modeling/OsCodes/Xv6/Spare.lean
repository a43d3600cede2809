/-
  How much free memory is enough.

  A walk takes a page only for a page table that is missing, and a directory has 1024 of them at
  most; `Spare d k m` says that `m` pages are left once the tables of `d` are all there.  From this
  follows how many free pages are enough for a call (`exec_succeeds`).

  This is the only module about memory that asks for more than is needed: one number for each call
  (`need`), large enough whatever page tables are there already.  It is used to show that the runs
  in question exist, while the exact prices are in `Cost`.
-/
import OsCodes.Xv6.ForkLaw

namespace OsCodes.Xv6

/-- The page tables that a directory does not have yet. -/
def PgDir.missing (d : PgDir) : Nat := ((Finset.Iio 1024).filter fun i => d.table i = none).card

theorem missing_le (d : PgDir) : d.missing ≤ 1024 := by
  have hcard : (Finset.Iio 1024).card = 1024 := Nat.card_Iio 1024
  rw [← hcard]
  exact Finset.card_filter_le _ _

/-- A new page table is one less to come. -/
theorem missing_setPde {d : PgDir} {v : Nat} (hv : v < vpages) (hnone : d.table (pdx v) = none)
    (pgtab : Nat) : (d.setPde v pgtab).missing + 1 = d.missing := by
  have hin : pdx v ∈ (Finset.Iio 1024).filter fun i => d.table i = none := by
    have hlt : v < 0x100000 := hv
    refine Finset.mem_filter.mpr ⟨Finset.mem_Iio.mpr ?_, hnone⟩
    show v / 1024 < 1024
    omega
  have herase : ((Finset.Iio 1024).filter fun i => (d.setPde v pgtab).table i = none) =
      ((Finset.Iio 1024).filter fun i => d.table i = none).erase (pdx v) := by
    ext i
    rw [Finset.mem_erase, Finset.mem_filter, Finset.mem_filter]
    show i ∈ Finset.Iio 1024 ∧ Function.update d.table (pdx v) (some pgtab) i = none ↔ _
    by_cases hi : i = pdx v
    · rw [hi, Function.update_self]
      exact ⟨fun h => (by cases h.2), fun h => absurd rfl h.1⟩
    · rw [Function.update_of_ne hi]
      exact ⟨fun h => ⟨hi, h⟩, fun h => h.2⟩
  rw [PgDir.missing, PgDir.missing, herase, Finset.card_erase_add_one hin]

/-- `m` pages are left once the page tables of `d` are all there. -/
def Spare (d : PgDir) (k : Kmem) (m : Nat) : Prop := d.missing + m ≤ k.freelist.length

section Avoids

variable {img : Image} {d : PgDir} {k : Kmem} {m : Nat}

theorem kalloc_avoids (h : m + 1 ≤ k.freelist.length) :
    Avoids .noMemory (kalloc k) fun r => m ≤ r.2.freelist.length := by
  unfold kalloc
  split
  case h_1 hnil =>
    rw [hnil, List.length_nil] at h
    omega
  case h_2 p next hfree =>
    rw [hfree, List.length_cons] at h
    split
    case isTrue => exact .stop fun heq => by cases heq
    case isFalse => exact .ok (Nat.le_of_succ_le_succ h)

theorem kfree_avoids {p : Nat} : Avoids .noMemory (kfree img p k) fun k' =>
    k.freelist.length ≤ k'.freelist.length := by
  unfold kfree
  split
  case isTrue => exact .stop fun heq => by cases heq
  case isFalse =>
    simp only
    split
    case isTrue => exact .stop fun heq => by cases heq
    case isFalse =>
      split
      case isTrue => exact .ok le_rfl
      case isFalse => exact .ok (Nat.le_succ _)

theorem incrementRefCount_avoids {p : Nat} : Avoids .noMemory (incrementRefCount img p k) fun k' =>
    k'.freelist = k.freelist := by
  unfold incrementRefCount
  split
  case isTrue => exact .stop fun heq => by cases heq
  case isFalse =>
    split
    case isTrue => exact .stop fun heq => by cases heq
    case isFalse => exact .ok rfl

theorem walkpgdirAlloc_avoids {v : Nat} (hv : v < vpages) (h : Spare d k m) :
    Avoids .noMemory (walkpgdirAlloc d v k) fun r => Spare r.1 r.2 m := by
  unfold walkpgdirAlloc
  split
  case h_1 => exact .ok h
  case h_2 hnone =>
    have h : d.missing + m ≤ k.freelist.length := h
    have hless := fun pgtab => missing_setPde hv hnone pgtab
    refine (kalloc_avoids (m := d.missing - 1 + m) ?_).bind ?_
    · have := hless 0
      omega
    rintro ⟨pgtab, k₁⟩ hk₁
    refine .ok ?_
    have hk₁ : d.missing - 1 + m ≤ k₁.freelist.length := hk₁
    have := hless pgtab
    show (d.setPde v pgtab).missing + m ≤ k₁.freelist.length
    omega

/-- **`mappages`** takes no spare page. -/
theorem mappages_avoids {perm : Perm} : ∀ {n a pa : Nat} {d : PgDir} {k : Kmem}, a + n ≤ vpages →
    Spare d k m → Avoids .noMemory (mappages d a n pa perm k) fun r => Spare r.1 r.2 m := by
  intro n
  induction n with
  | zero => exact fun _ h => .ok h
  | succ n ih =>
    intro a pa d k hend h
    rw [mappages]
    apply (walkpgdirAlloc_avoids (by omega) h).bind
    rintro ⟨d₁, k₁⟩ h₁
    show Avoids _ (if _ then _ else _) _
    split
    case isTrue => exact .stop fun heq => by cases heq
    case isFalse => exact ih (by omega) h₁

theorem mapKernel_avoids : ∀ {es : List Kmap} {lo : Nat} {d : PgDir} {k : Kmem}, Ascending lo es →
    Spare d k m → Avoids .noMemory
      (es.foldlM (fun r e => mappages r.1 e.virt e.size e.physStart e.perm r.2) (d, k)) fun r =>
        Spare r.1 r.2 m := by
  intro es
  induction es with
  | nil => exact fun _ h => .ok h
  | cons e es ih =>
    intro lo d k hasc h
    obtain ⟨-, hend, hrest⟩ := hasc
    rw [List.foldlM_cons]
    exact (mappages_avoids hend h).bind fun _ h₁ => ih hrest h₁

/-- **`setupkvm`** needs a page for the directory, and leaves what the page tables do not take. -/
theorem setupkvm_avoids (h : 1025 + m ≤ k.freelist.length) :
    Avoids .noMemory (setupkvm img k) fun r => Spare r.1 r.2 m := by
  rw [setupkvm]
  apply (kalloc_avoids (m := 1024 + m) (by omega)).bind
  rintro ⟨pgdir, k₁⟩ hk₁
  show Avoids Fault.noMemory (if devspace < kernbase + phystop then _ else _) _
  rw [if_neg (by decide)]
  refine mapKernel_avoids (kmap_ascending img) ?_
  exact (Nat.add_le_add_right (missing_le _) m).trans hk₁

theorem allocLoop_avoids : ∀ {n a : Nat} {d : PgDir} {k : Kmem}, a + n ≤ vpages →
    Spare d k (n + m) → Avoids .noMemory (allocLoop d a n k) fun r => Spare r.1 r.2 m := by
  intro n
  induction n with
  | zero =>
    intro a d k _ h
    rw [Nat.zero_add] at h
    exact .ok h
  | succ n ih =>
    intro a d k hend h
    have h : d.missing + (n + 1 + m) ≤ k.freelist.length := h
    rw [allocLoop]
    refine (kalloc_avoids (m := d.missing + (n + m)) (by omega)).bind ?_
    rintro ⟨mem, k₁⟩ hk₁
    have hspare : Spare d { k₁ with mem := Function.update k₁.mem mem fun _ => 0 } (n + m) := hk₁
    apply (mappages_avoids (a := a) (n := 1) (by omega) hspare).bind
    rintro ⟨d₂, k₂⟩ h₂
    exact ih (by omega) h₂

/-- **`copyuvm`, sharing**, takes no page for the user part but page tables. -/
theorem Cow.copyLoop_avoids : ∀ {n i : Nat} {pgdir d : PgDir} {k : Kmem}, i + n ≤ vpages →
    Spare d k m → Avoids .noMemory (Cow.copyLoop img pgdir d i n k) fun r =>
      Spare r.2.1 r.2.2 m := by
  intro n
  induction n with
  | zero => exact fun _ h => .ok h
  | succ n ih =>
    intro i pgdir d k hend h
    rw [Cow.copyLoop]
    split
    case h_1 => exact .stop fun heq => by cases heq
    case h_2 pte _ =>
      split
      case isTrue => exact .stop fun heq => by cases heq
      case isFalse =>
        apply incrementRefCount_avoids.bind
        intro k₁ hk₁
        have h₁ : Spare d k₁ m := by
          rw [Spare, hk₁]
          exact h
        apply (mappages_avoids (by omega) h₁).bind
        rintro ⟨d₂, k₂⟩ h₂
        exact ih (by omega) h₂

theorem handlePgfltHelper_avoids {v : Nat} (h : m + 1 ≤ k.freelist.length) :
    Avoids .noMemory (handlePgfltHelper img d v k) fun r => m ≤ r.2.freelist.length := by
  rw [handlePgfltHelper]
  split
  case h_1 => exact .stop fun heq => by cases heq
  case h_2 pte _ =>
    split
    case isTrue => exact .stop fun heq => by cases heq
    split
    case isTrue => exact .stop fun heq => by cases heq
    split
    case isTrue => exact .stop fun heq => by cases heq
    apply (kalloc_avoids h).bind
    rintro ⟨mem, k₁⟩ hk₁
    apply kfree_avoids.bind
    intro k₂ hk₂
    exact .ok (Nat.le_trans hk₁ hk₂)

/-! ## Whole functions -/

theorem allocuvm_avoids {oldsz newsz : Nat} (h : Spare d k (pages newsz - pages oldsz + m)) :
    Avoids .noMemory (allocuvm d oldsz newsz k) fun r => m ≤ r.2.2.freelist.length := by
  have hlen : m ≤ k.freelist.length := by
    have h : d.missing + (pages newsz - pages oldsz + m) ≤ k.freelist.length := h
    omega
  rw [allocuvm]
  split
  case isTrue => exact .ok hlen
  case isFalse hnew =>
    split
    case isTrue => exact .ok hlen
    case isFalse hle =>
      have hpages := pages_mono (Nat.le_of_not_lt hle)
      have hlast := pages_le (Nat.le_of_lt (Nat.lt_of_not_le hnew))
      have hall := userPages_lt
      apply (allocLoop_avoids (by omega) h).bind
      rintro ⟨d₁, k₁⟩ h₁
      have h₁ : d₁.missing + m ≤ k₁.freelist.length := h₁
      refine .ok ?_
      show m ≤ k₁.freelist.length
      omega

/-- Giving pages back takes none. -/
theorem deallocLoop_avoids {a last : Nat} :
    Avoids .noMemory (deallocLoop (kfree img) .panic d a last k) fun r =>
      k.freelist.length ≤ r.2.freelist.length := by
  refine deallocLoop_keeps (I := fun _ k' => k.freelist.length ≤ k'.freelist.length)
    (fun heq => by cases heq) (fun hle _ _ => ?_) le_rfl
  exact kfree_avoids.mono fun _ hk => Nat.le_trans hle hk

theorem deallocuvm_avoids {oldsz newsz : Nat} : Avoids .noMemory (deallocuvm img d oldsz newsz k)
    fun r => k.freelist.length ≤ r.2.2.freelist.length := by
  rw [deallocuvm]
  split
  case isTrue => exact .ok le_rfl
  case isFalse => exact deallocLoop_avoids.bind fun _ hk => .ok hk

theorem freeLoop_avoids {i n : Nat} : Avoids .noMemory (freeLoop (kfree img) d i n k)
    fun k' => k.freelist.length ≤ k'.freelist.length := by
  refine freeLoop_rule _ (I := fun _ k' => k.freelist.length ≤ k'.freelist.length)
    (fun _ _ hle => hle) (fun _ _ hle => ?_) rfl le_rfl
  exact kfree_avoids.mono fun _ hk => Nat.le_trans hle hk

theorem freevm_avoids : Avoids .noMemory (freevm img d k) fun k' =>
    k.freelist.length ≤ k'.freelist.length := by
  rw [freevm]
  apply deallocuvm_avoids.bind
  rintro ⟨sz, d₁, k₁⟩ hk₁
  apply freeLoop_avoids.bind
  intro k₂ hk₂
  exact kfree_avoids.mono fun _ hk₃ => Nat.le_trans hk₁ (Nat.le_trans hk₂ hk₃)

theorem Cow.copyuvm_avoids {sz : Nat} (hsz : sz ≤ kernbase) (h : 1025 + m ≤ k.freelist.length) :
    Avoids .noMemory (Cow.copyuvm img d sz k) fun r => m ≤ r.2.2.freelist.length := by
  have hlast := pages_le hsz
  have hall := userPages_lt
  rw [Cow.copyuvm]
  apply (setupkvm_avoids h).bind
  rintro ⟨child, k₁⟩ h₁
  refine (Cow.copyLoop_avoids (by omega) h₁).mono ?_
  rintro ⟨d', child', k'⟩ h'
  exact (Nat.le_add_left m _).trans h'

theorem userPte_avoids {v : Nat} {write : Bool} :
    Avoids .noMemory (userPte d v write) fun _ => True := by
  rw [userPte]
  split
  case h_1 => exact .stop fun heq => by cases heq
  case h_2 pte _ =>
    split
    case isTrue => exact .ok trivial
    case isFalse => exact .stop fun heq => by cases heq

theorem store_avoids {a : Nat} {b : UInt8} (h : m + 1 ≤ k.freelist.length) :
    Avoids .noMemory (store img d a b k) fun r => m ≤ r.2.freelist.length := by
  rw [store]
  split
  case h_1 => exact .ok (Nat.le_of_succ_le h)
  case h_2 =>
    apply (handlePgfltHelper_avoids h).bind
    rintro ⟨d₁, k₁⟩ hk₁
    exact userPte_avoids.bind fun _ _ => .ok hk₁

theorem growproc_avoids {x : Proc} {n : Int}
    (h : 1024 + (pages (uint (x.sz + n)) - pages x.sz) + m ≤ k.freelist.length) :
    Avoids .noMemory (growproc img x n k) fun r => m ≤ r.2.2.freelist.length := by
  have hlen : m ≤ k.freelist.length := by omega
  have hspare : Spare x.pgdir k (pages (uint (x.sz + n)) - pages x.sz + m) := by
    have hmissing := missing_le x.pgdir
    rw [Spare]
    omega
  rw [growproc]
  split
  case isTrue =>
    apply (allocuvm_avoids hspare).bind
    rintro ⟨sz, d, k₁⟩ hk₁
    show Avoids _ (if sz = 0 then _ else _) _
    split
    case isTrue => exact .ok hk₁
    case isFalse => exact .ok hk₁
  case isFalse =>
    split
    case isTrue =>
      apply deallocuvm_avoids.bind
      rintro ⟨sz, d, k₁⟩ hk₁
      show Avoids _ (if sz = 0 then _ else _) _
      split
      case isTrue => exact .ok (hlen.trans hk₁)
      case isFalse => exact .ok (hlen.trans hk₁)
    case isFalse => exact .ok hlen

end Avoids

/-! ## Calls -/

section Calls

variable {π : Type} [Fintype π] [DecidableEq π] {img : Image} {s : State π} {v : Spec.State π}
  {m : Nat}

/-- As many free pages are enough for a call of processes of the sizes `sz`. -/
def need (sz : π → Option Nat) : Call π → Nat
  | .fork _ _ => 1025
  | .load _ _ => 0
  | .store _ _ _ => 1
  | .growproc p n =>
    match sz p with
    | none => 0
    | some m => 1024 + (pages (uint (m + n)) - pages m)
  | .freevm _ => 0

theorem exec_avoids {call : Call π} (h : Rel img s v)
    (hneed : need s.sz call + m ≤ s.kmem.freelist.length) :
    Avoids .noMemory (exec Cow.copyuvm img s call) fun r => m ≤ r.2.kmem.freelist.length := by
  have hlen : m ≤ s.kmem.freelist.length := by omega
  cases call with
  | fork p c =>
    rw [exec]
    cases hp : s.procs p with
    | none => exact .stop fun heq => by cases heq
    | some x =>
      obtain ⟨_, -, -, hold⟩ := h.live hp
      exact (Cow.copyuvm_avoids (Nat.le_of_lt hold.sz_lt) hneed).bind fun _ hk => .ok hk
  | load p a =>
    rw [exec]
    cases hp : s.procs p with
    | none => exact .stop fun heq => by cases heq
    | some x =>
      refine Allows.bind (Q := fun _ => True) ?_ fun _ _ => .ok hlen
      exact userPte_avoids.bind fun _ _ => .ok trivial
  | store p a b =>
    rw [exec]
    cases hp : s.procs p with
    | none => exact .stop fun heq => by cases heq
    | some x => exact (store_avoids (by rw [Nat.add_comm]; exact hneed)).bind fun _ hk => .ok hk
  | growproc p n =>
    rw [exec]
    cases hp : s.procs p with
    | none => exact .stop fun heq => by cases heq
    | some x =>
      rw [need, State.sz, hp] at hneed
      exact (growproc_avoids hneed).bind fun _ hk => .ok hk
  | freevm p =>
    rw [exec]
    cases hp : s.procs p with
    | none => exact .stop fun heq => by cases heq
    | some x => exact freevm_avoids.bind fun _ hk => .ok (hlen.trans hk)

/-- **Enough memory**: an allowed call succeeds, and leaves what it did not need. -/
theorem exec_succeeds {call : Call π} (h : Rel img s v) (hallow : Allowed s.sz call)
    (hneed : need s.sz call + m ≤ s.kmem.freelist.length) :
    ∃ s', exec Cow.copyuvm img s call = .ok ((Spec.exec v call).1, s') ∧
      Rel img s' (Spec.exec v call).2 ∧ m ≤ s'.kmem.freelist.length := by
  obtain ⟨⟨ret, s'⟩, hexec, hlen, hret, hrel⟩ :=
    (exec_avoids h hneed).exists_ok (exec_spec Cow.copyuvm_copies h hallow)
  obtain rfl : ret = (Spec.exec v call).1 := hret
  exact ⟨s', hexec, hrel, hlen⟩

end Calls

end OsCodes.Xv6
