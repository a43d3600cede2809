/-
  What every call in xv6-public keeps of permissions and of the free list, whatever the calls
  before it were: the entries of all directories have permissions with `P`, and the memory has
  `J`.

  `Perms` has this for the functions on one directory.  Here it is carried over whole runs of the
  kernel in which `mmap` only moves the size, in four steps:

  1. `Given` lists the permissions that the kernel ever gives: those in `kmap`, those of a user
     page, and these without `PTE_U`, which `clearpteu` leaves at the page below the user stack of
     a new program;
  2. `Upheld` says that all live directories have entries with `P` and the memory has `J`, and
     `Upheld.beside` that a call which gives one process another directory has to show it of that
     directory only;
  3. `Upheld.run` goes through the calls.  It asks for no guard: accesses at or above the size, an
     `mmap` that wraps around and calls that run out of memory are all included, and of a call
     that panics there is nothing to show;
  4. `reach_upheld` is the run lemma.

  Two instances are used.  User pages may be written (`reach_writable`), so that in this kernel a
  fault at a present page is one of user mode at a page that is not for it; and what is on the
  free list may be freed, which `LazyFault` needs to run the kernel out of memory.  Neither
  follows from the books of `LazyRun`, which are kept by guarded runs only.
-/
import OsCodes.Xv6.LazyRun
import OsCodes.Xv6.Perms

namespace OsCodes.Paging.Lazy

open Xv6 (Image Kmem Perm PgDir kmap userPages)
open Ptable (Slot)

section Upheld

variable {img : Image} {k₀ : Kmem} {P : Nat → Perm → Prop} {J : Kmem → Prop} {x : Kernel}
  {p : Slot} {d : PgDir} {k : Kmem}

/-- The permissions that the kernel gives have `P`: those in `kmap`, those of a user page, and these
    without `PTE_U`. -/
structure Given (img : Image) (P : Nat → Perm → Prop) : Prop where
  kmap : ∀ e ∈ kmap img, ∀ u, e.virt ≤ u → P u e.perm
  user : ∀ u, P u ⟨true, true, false⟩
  noUser : ∀ u perm, P u perm → P u { perm with u := false }

/-- All live directories have permissions with `P`, and the memory has `J`. -/
structure Upheld (P : Nat → Perm → Prop) (J : Kmem → Prop) (x : Kernel) : Prop where
  dirs : ∀ p d, x.mem.dirs p = some d → Meets P d
  mem : J x.mem.kmem

/-! ## Functions -/

theorem growproc_meets {sz : Nat} {n : Int} (hJ : Stable plain img J) (hP : Given img P)
    (h : Meets P d) (hk : J k) : Allows (fun _ => True) (growproc img d sz n k) fun r =>
      Meets P r.2.2.1 ∧ J r.2.2.2 := by
  have hends : ∀ {r : Nat} {d : PgDir} {k : Kmem}, Meets P d ∧ J k →
      Allows (fun (_ : String) => True) (if r = 0 then .ok (-1, sz, d, k) else .ok (0, r, d, k))
        fun (r : Int × Nat × PgDir × Kmem) => Meets P r.2.2.1 ∧ J r.2.2.2 := by
    intro r d k h
    split
    case isTrue => exact .ok h
    case isFalse => exact .ok h
  rw [growproc]
  split
  case isTrue => exact (allocuvm_meets hJ h hk fun u _ => hP.user u).bind fun _ h' => hends h'
  case isFalse =>
    split
    case isTrue => exact (deallocuvm_meets hJ h hk).bind fun _ h' => hends h'
    case isFalse => exact .ok ⟨h, hk⟩

theorem loadLoop_meets (hJ : Stable plain img J) (hP : Given img P) :
    ∀ {phs : List ProgHdr} {d : PgDir} {sz : Nat} {k : Kmem}, Meets P d → J k →
    Allows (fun _ => True) (loadLoop img d sz phs k) fun r => Meets P r.2.1 ∧ J r.2.2 := by
  intro phs
  induction phs with
  | nil => exact fun h hk => .ok ⟨h, hk⟩
  | cons ph phs ih =>
    intro d sz k h hk
    rw [loadLoop]
    split
    case isTrue => exact .ok ⟨h, hk⟩
    case isFalse =>
      split
      case isTrue => exact .ok ⟨h, hk⟩
      case isFalse =>
        apply (allocuvm_meets hJ h hk fun u _ => hP.user u).bind
        rintro ⟨r, d₁, k₁⟩ ⟨h₁, hk₁⟩
        show Allows _ (if r = 0 then _ else _) _
        split
        case isTrue => exact .ok ⟨h₁, hk₁⟩
        case isFalse =>
          split
          case isTrue => exact .ok ⟨h₁, hk₁⟩
          case isFalse => exact ih h₁ hk₁

/-- What `exec` has at the end of its work on the new memory. -/
def NewMeets (P : Nat → Perm → Prop) (J : Kmem → Prop) (r : Option (Nat × PgDir) × Kmem) : Prop :=
  (∀ sz d, r.1 = some (sz, d) → Meets P d) ∧ J r.2

theorem freevm_bad_meets (hJ : Stable plain img J) (hk : J k) :
    Allows (fun _ => True) (freevm plain img d k >>= fun k => .ok (none, k)) (NewMeets P J) :=
  (freevm_stable hJ hk).bind fun _ hk₁ => .ok ⟨fun _ _ hno => (by cases hno), hk₁⟩

theorem execImage_meets {phs : List ProgHdr} {args : Bool} (hJ : Stable plain img J)
    (hP : Given img P) (hk : J k) :
    Allows (fun _ => True) (execImage img phs args k) (NewMeets P J) := by
  rw [execImage]
  apply (setupkvm_meets hJ hP.kmap hk).bind
  rintro ⟨r, k₁⟩ ⟨hnew, hk₁⟩
  cases r with
  | none => exact .ok ⟨fun _ _ hno => (by cases hno), hk₁⟩
  | some d =>
    apply (loadLoop_meets hJ hP (hnew d rfl) hk₁).bind
    rintro ⟨loaded, d₁, k₂⟩ ⟨h₁, hk₂⟩
    cases loaded with
    | none => exact freevm_bad_meets hJ hk₂
    | some sz =>
      show Allows _ (allocuvm plain img d₁ (pgroundup sz * Xv6.pgsize) _ k₂ >>= _) _
      generalize pgroundup sz * Xv6.pgsize = top
      generalize Xv6.uint _ = newsz
      apply (allocuvm_meets hJ h₁ hk₂ fun u _ => hP.user u).bind
      rintro ⟨r, d₂, k₃⟩ ⟨h₂, hk₃⟩
      show Allows _ (if r = 0 then _ else _) _
      split
      case isTrue => exact freevm_bad_meets hJ hk₃
      case isFalse =>
        apply (clearpteu_meets h₂ (hP.noUser _)).bind
        intro d₃ h₃
        cases args with
        | false => exact freevm_bad_meets hJ hk₃
        | true =>
          refine .ok ⟨fun sz' d' hd' => ?_, hk₃⟩
          obtain ⟨-, rfl⟩ := Prod.mk.inj (Option.some.inj hd')
          exact h₃

theorem inituvm_meets (hJ : Stable plain img J) (hP : Given img P) (h : Meets P d) (hk : J k) :
    Allows (fun _ => True) (inituvm d k) fun r => Meets P r.2.1 ∧ J r.2.2 := by
  rw [inituvm]
  apply (hJ.kalloc hk).bind
  rintro ⟨r, k₁⟩ hk₁
  cases r with
  | none => exact .stop trivial
  | some mem =>
    exact (mappages_one_meets hJ h (hJ.setMem _ hk₁) (hP.user 0)).bind fun _ h' => .ok h'

/-! ## Calls -/

/-- A process gets another directory. -/
theorem Upheld.beside {o : Option PgDir} {x' : Kernel} (h : Upheld P J x)
    (hx : x'.mem = x.mem.setDir p o k) (ho : ∀ d, o = some d → Meets P d) (hk : J k) :
    Upheld P J x' := by
  refine ⟨fun q d hd => ?_, by rw [hx]; exact hk⟩
  rw [hx] at hd
  have hd : Function.update x.mem.dirs p o q = some d := hd
  by_cases hqp : q = p
  · rw [hqp, Function.update_self] at hd
    exact ho d hd
  · rw [Function.update_of_ne hqp] at hd
    exact h.dirs q d hd

theorem Upheld.setSome {x' : Kernel} (h : Upheld P J x) (hx : x'.mem = x.mem.setDir p (some d) k)
    (hd : Meets P d) (hk : J k) : Upheld P J x' := by
  refine h.beside hx (fun d' hd' => ?_) hk
  rw [← Option.some.inj hd']
  exact hd

/-- A call that looks up a directory. -/
theorem Upheld.with_dir {α : Type} {f : PgDir → Except String α} {Q : α → Prop}
    (h : Upheld P J x) (hf : ∀ d, Meets P d → Allows (fun _ => True) (f d) Q) :
    Allows (fun _ => True) (x.mem.dir p >>= f) Q :=
  Lazy.with_dir fun d hd => hf d (h.dirs p d hd)

theorem Upheld.exit (h : Upheld P J x) (p : Slot) :
    Allows (fun _ => True) (exit p x) fun r => Upheld P J r.2 := by
  rw [Lazy.exit]
  split
  case isTrue => exact .stop trivial
  case isFalse => exact .ok ⟨h.dirs, h.mem⟩

theorem Upheld.access {addr : Nat} {write : Bool} (hJ : Stable plain img J) (hP : Given img P)
    (h : Upheld P J x) : Allows (fun _ => True) (access img p addr write x) fun r =>
      Upheld P J r.2 := by
  rw [Lazy.access]
  refine h.with_dir fun d hd => ?_
  split
  case h_1 => exact .ok h
  case h_2 =>
    split
    case h_1 => exact h.exit p
    case h_2 v hv =>
      exact (Eager.allocateOnPgflt_meets hJ hd h.mem (hP.user v)).bind fun _ h' =>
        .ok (h.setSome rfl h'.1 h'.2)

theorem allocproc_meets (hJ : Stable plain img J) (h : Upheld P J x) :
    Allows (fun _ => True) (allocproc plain x) fun r => Upheld P J r.2 := by
  rw [allocproc]
  split
  case h_1 => exact .ok h
  case h_2 =>
    apply (hJ.kalloc h.mem).bind
    rintro ⟨r, k₁⟩ hk₁
    cases r with
    | none => exact .ok ⟨h.dirs, hk₁⟩
    | some kstack => exact .ok ⟨h.dirs, hk₁⟩

theorem Upheld.fork (hJ : Stable plain img J) (hP : Given img P) (h : Upheld P J x) :
    Allows (fun _ => True) (Eager.fork img p x) fun r => Upheld P J r.2 := by
  rw [Eager.fork, forkWith]
  apply (allocproc_meets hJ h).bind
  rintro ⟨r, x₁⟩ h₁
  have h₁ : Upheld P J x₁ := h₁
  cases r with
  | none => exact .ok h₁
  | some slot =>
    obtain ⟨np, kstack⟩ := slot
    refine h₁.with_dir fun d hd => ?_
    show Allows _ ((Eager.copyuvm img d (x₁.tasks p).sz x₁.mem.kmem >>= _) >>= _) _
    rw [bind_assoc]
    apply (Eager.copyuvm_meets hJ hP.kmap hd h₁.mem).bind
    rintro ⟨child, k⟩ ⟨hchild, hk⟩
    have hparent : Upheld P J { x₁ with mem := x₁.mem.setDir p (some d) k } := h₁.setSome rfl hd hk
    cases child with
    | none => exact (hJ.kfree hk).bind fun _ hk₁ => .ok ⟨hparent.dirs, hk₁⟩
    | some d' => exact .ok (hparent.setSome rfl (hchild d' rfl) hk)

theorem Upheld.exec {phs : List ProgHdr} {args : Bool} (hJ : Stable plain img J)
    (hP : Given img P) (h : Upheld P J x) :
    Allows (fun _ => True) (exec img p phs args x) fun r => Upheld P J r.2 := by
  rw [Lazy.exec]
  refine h.with_dir fun d _ => ?_
  apply (execImage_meets hJ hP h.mem).bind
  rintro ⟨new, k⟩ ⟨hnew, hk⟩
  cases new with
  | none => exact .ok ⟨h.dirs, hk⟩
  | some r =>
    obtain ⟨sz, d'⟩ := r
    exact (freevm_stable hJ hk).bind fun _ hk₁ => .ok (h.setSome rfl (hnew sz d' rfl) hk₁)

/-- **Every call** keeps the permissions of the user entries, and what is said of the allocator. -/
theorem Upheld.run {call : Call} (hJ : Stable plain img J) (hP : Given img P)
    (h : Upheld P J x) : Allows (fun _ => True) (run img x call) fun r => Upheld P J r.2 := by
  cases call with
  | fork p => exact h.fork hJ hP
  | exec p phs args => exact h.exec hJ hP
  | sbrk p esp mem =>
    show Allows _ (sysSbrk img p esp mem x) _
    rw [sysSbrk]
    split
    case h_1 => exact .ok h
    case h_2 n hn =>
      exact h.with_dir fun d hd => (growproc_meets hJ hP hd h.mem).bind fun _ h' =>
        .ok (h.setSome rfl h'.1 h'.2)
  | mmap p esp mem => exact .ok ⟨h.dirs, h.mem⟩
  | access p addr write => exact h.access hJ hP
  | exit p => exact h.exit p
  | freevm p =>
    exact h.with_dir fun d _ => (freevm_stable hJ h.mem).bind fun _ hk =>
      .ok (h.beside rfl (fun _ hno => by cases hno) hk)
  | kalloc =>
    apply (hJ.kalloc h.mem).bind
    rintro ⟨r, k⟩ hk
    cases r with
    | none => exact .ok ⟨h.dirs, hk⟩
    | some page => exact .ok ⟨h.dirs, hk⟩
  | kfree page => exact (hJ.kfree h.mem).bind fun _ hk => .ok ⟨h.dirs, hk⟩
  | write mem => exact .ok ⟨h.dirs, hJ.setMem mem h.mem⟩

theorem userinit_meets (hJ : Stable plain img J) (hP : Given img P) (h : Upheld P J x) :
    Allows (fun _ => True) (userinit img x) (Upheld P J) := by
  rw [userinit]
  apply (allocproc_meets hJ h).bind
  rintro ⟨r, x₁⟩ h₁
  have h₁ : Upheld P J x₁ := h₁
  cases r with
  | none => exact .stop trivial
  | some slot =>
    obtain ⟨p, kstack⟩ := slot
    apply (setupkvm_meets hJ hP.kmap h₁.mem).bind
    rintro ⟨r, k⟩ ⟨hnew, hk⟩
    cases r with
    | none => exact .stop trivial
    | some d =>
      apply (inituvm_meets hJ hP (hnew d rfl) hk).bind
      rintro ⟨lost, d₁, k₁⟩ ⟨hd₁, hk₁⟩
      have hfirst : Upheld P J { x₁ with mem := x₁.mem.setDir p (some d₁) k₁ } :=
        h₁.setSome rfl hd₁ hk₁
      exact .ok ⟨hfirst.dirs, hk₁⟩

/-- **Every run** from the first process on keeps them, by induction on its calls. -/
theorem reach_upheld (hJ : Stable plain img J) (hP : Given img P) (hk : J k₀)
    (hr : (system img k₀).Reach x) : Upheld P J x := by
  refine hr.invariant ?_ ?_
  · intro x hstart
    have hboot : Upheld P J (boot k₀) := ⟨fun p d hd => (by cases hd), hk⟩
    exact (userinit_meets hJ hP hboot).of_ok hstart
  · rintro x ⟨call, r⟩ x' h ⟨-, hrun⟩
    exact (h.run hJ hP).of_ok hrun

end Upheld

/-! ## User pages may be written -/

/-- User pages may be written. -/
def Writable (v : Nat) (perm : Perm) : Prop := v < userPages → perm.w = true

theorem writable_given (img : Image) : Given img Writable := by
  refine ⟨fun e he u hu hlt => ?_, fun _ _ => rfl, fun _ _ h => h⟩
  exact absurd (Nat.le_trans (kmap_above img e he) hu) (Nat.not_le_of_lt hlt)

/-- In every state of a run, present user pages may be written. -/
theorem reach_writable {img : Image} {k₀ : Kmem} {x : Kernel} {p : Slot} {d : PgDir} {v : Nat}
    {e : Xv6.Pte} (hr : (system img k₀).Reach x) (hd : x.mem.dirs p = some d) (hv : v < userPages)
    (he : d.entry v = some e) : e.w = true :=
  (reach_upheld .trivial (writable_given img) trivial hr).dirs p d hd v e he hv

end OsCodes.Paging.Lazy
