/-
  The size of a process in xv6-public and the end of user space.

  `allocuvm` refuses a size from `KERNBASE` on, `sys_mmap` does not.  While every `mmap` stays below,
  so do all sizes, and with them every address that the kernel takes from a process or has mapped
  for it; the first `mmap` that does not stay below gives a size in kernel space.

  The addresses in question are those that the kernel accepts from a process (`fetchint`,
  `argptr`) and those at which it maps pages for it (`pgfltPage`); both are compared with the size
  only.  The equivalence of `user_space_iff` is about runs: while every `mmap` ends below
  `KERNBASE` all is well in every state, and a run with one that does not has a state in which it
  is not.
-/
import OsCodes.Xv6.LazyRun

namespace OsCodes.Paging.Lazy

open Xv6 (Image Kmem kernbase pgsize uint userPages)
open Ptable (Slot)

/-- Addresses that come from a process are in user space: those that `fetchint` and `argptr` accept,
    and those that `trap` has mapped. -/
structure UserSpace (x : Kernel) : Prop where
  size : ∀ p, (x.tasks p).sz < kernbase
  fetchint : ∀ p mem addr n, fetchint (x.tasks p).sz mem addr = some n → addr + 4 ≤ kernbase
  argptr : ∀ p mem esp i size addr, argptr (x.tasks p).sz mem esp i size = some addr →
    addr < kernbase ∧ (addr : Int) + size.toInt ≤ kernbase
  trap : ∀ p addr v, pgfltPage (x.tasks p).sz addr = some v → v * pgsize < kernbase

/-- A successful `mmap` ends below `KERNBASE`. -/
def Fits (x : Kernel) : Call → Prop
  | .mmap p esp mem => ∀ n, argint (x.tasks p).sz mem esp 0 = some n → 0 < n.toInt →
      n.toInt % pgsize = 0 → (x.tasks p).sz + n.toInt < kernbase
  | _ => True

/-- No `mmap` makes a process smaller. -/
def NoShrink (tr : Kernel × (Call × Int) × Kernel) : Prop :=
  ∀ p esp mem, tr.2.1.1 = .mmap p esp mem → (tr.1.tasks p).sz ≤ (tr.2.2.tasks p).sz

section Size

variable {img : Image} {k₀ : Kmem} {x x' : Kernel} {e : Call × Int}

/-- **Sizes below `KERNBASE`** are all there is to it. -/
theorem UserSpace.of_size (h : ∀ p, (x.tasks p).sz < kernbase) : UserSpace x := by
  have h : ∀ p, (x.tasks p).sz < 2147483648 := h
  refine ⟨h, fun p mem addr n hn => ?_, fun p mem esp i size addr hn => ?_, fun p addr v hv => ?_⟩
  · have hlt := h p
    rw [Lazy.fetchint] at hn
    split at hn
    case isTrue => cases hn
    case isFalse hok =>
      have hok : ¬ ((x.tasks p).sz ≤ addr ∨
        (x.tasks p).sz < (((addr + 4 : Nat) : Int) % 4294967296).toNat) := hok
      show addr + 4 ≤ 2147483648
      omega
  · have hlt := h p
    rw [Lazy.argptr] at hn
    split at hn
    case h_1 => cases hn
    case h_2 n hfetch =>
      split at hn
      case isTrue => cases hn
      case isFalse hok =>
        obtain rfl := Option.some.inj hn
        have hok : ¬ (size.toInt < 0 ∨ (x.tasks p).sz ≤ n.toNat ∨
          (x.tasks p).sz < (((n.toNat : Int) + size.toInt) % 4294967296).toNat) := hok
        have hsize := BitVec.toInt_lt (x := size)
        show n.toNat < 2147483648 ∧ (n.toNat : Int) + size.toInt ≤ 2147483648
        omega
  · obtain ⟨-, hle⟩ := pgfltPage_some hv
    exact Nat.lt_of_le_of_lt hle (h p)

/-- The size that `mmap` leaves. -/
theorem mmap_size {p : Slot} {esp : Nat} {mem : Words} (he : e.1 = .mmap p esp mem)
    (hrun : run img x e.1 = .ok (e.2, x')) :
    (x'.tasks p).sz = (sysMmap (x.tasks p).sz esp mem).2 := by
  rw [he] at hrun
  obtain ⟨-, rfl⟩ := Prod.mk.inj (Except.ok.inj hrun)
  rw [setTask_task]
  rfl

/-- **A step keeps sizes below `KERNBASE`**, if it is not an `mmap` past it. -/
theorem size_step {pool : Finset Nat} {hvalid : ∀ p ∈ pool, img.endPage ≤ p ∧ p < Xv6.frames}
    (h : Good img pool hvalid x) (hsz : ∀ p, (x.tasks p).sz < kernbase)
    (hstep : (system img k₀).step x e x') (hfits : Fits x e.1) :
    Good img pool hvalid x' ∧ (∀ p, (x'.tasks p).sz < kernbase) ∧ NoShrink (x, e, x') := by
  obtain ⟨hallowed, hrun⟩ := hstep
  have hguard : Guard x e.1 := by
    cases e.1 with
    | sbrk p esp mem => exact fun _ _ _ => Nat.le_of_lt (hsz p)
    | access p addr write => exact fun _ => hsz p
    | _ => trivial
  obtain ⟨hgood, hkeeps⟩ := (h.step hallowed hguard).of_ok hrun
  have hmmap : ∀ p esp mem, e.1 = .mmap p esp mem → (x.tasks p).sz ≤
      (sysMmap (x.tasks p).sz esp mem).2 ∧ (sysMmap (x.tasks p).sz esp mem).2 < kernbase := by
    intro p esp mem he
    have hlt : (x.tasks p).sz < 2147483648 := hsz p
    cases sysMmap_size (x.tasks p).sz esp mem with
    | inl hsame =>
      rw [hsame]
      exact ⟨le_rfl, hlt⟩
    | inr hgrow =>
      obtain ⟨n, hn, hpos, hmod, hsize⟩ := hgrow
      rw [he] at hfits
      have hfits : ((x.tasks p).sz : Int) + n.toInt < 2147483648 := hfits n hn hpos hmod
      rw [hsize]
      show (x.tasks p).sz ≤ (((x.tasks p).sz + n.toInt) % 4294967296).toNat ∧
        (((x.tasks p).sz + n.toInt) % 4294967296).toNat < 2147483648
      omega
  refine ⟨hgood, fun p => ?_, fun p esp mem he => ?_⟩
  · rcases hkeeps.size p with hlt | ⟨q, hle⟩ | ⟨esp, mem, he, hsize⟩
    · exact hlt
    · exact Nat.lt_of_le_of_lt hle (hsz q)
    · rw [hsize]
      exact (hmmap p esp mem he).2
  · show (x.tasks p).sz ≤ (x'.tasks p).sz
    rw [mmap_size he hrun]
    exact (hmmap p esp mem he).1

/-- **An `mmap` past `KERNBASE`** raises the size past it. -/
theorem fits_of_size (hsz : ∀ p, (x.tasks p).sz < kernbase) (hstep : (system img k₀).step x e x')
    (hsz' : ∀ p, (x'.tasks p).sz < kernbase) : Fits x e.1 := by
  have hmmap : ∀ p esp mem, e.1 = .mmap p esp mem → Fits x (.mmap p esp mem) := by
    intro p esp mem he n hn hpos hmod
    have hlt : (x.tasks p).sz < 2147483648 := hsz p
    have hlt' : (x'.tasks p).sz < 2147483648 := hsz' p
    have hint := BitVec.toInt_lt (x := n)
    have hmod' : n.toInt % 4096 = 0 := hmod
    have hset : (sysMmap (x.tasks p).sz esp mem).2 =
        (((x.tasks p).sz + n.toInt) % 4294967296).toNat := by
      unfold sysMmap
      rw [hn]
      show (if n.toInt ≤ 0 ∨ n.toInt % 4096 ≠ 0 then _ else _ : Int × Nat).2 = _
      rw [if_neg (by omega)]
      rfl
    rw [mmap_size he hstep.2, hset] at hlt'
    show ((x.tasks p).sz : Int) + n.toInt < 2147483648
    omega
  cases he : e.1 with
  | mmap p esp mem => exact hmmap p esp mem he
  | _ => trivial

/-- **User space is safe exactly while every `mmap` ends below `KERNBASE`.**  In a run from the first
    process on, all sizes are below `KERNBASE`, with what follows for the addresses that processes
    pass, and no `mmap` shrinks a process, if and only if each `mmap` of the run that succeeds has
    the size and its argument add up to less than `KERNBASE`. -/
theorem user_space_iff (hboot : Booted img k₀) {x₀ : Kernel}
    {trs : List (Kernel × (Call × Int) × Kernel)} (h0 : (system img k₀).start x₀)
    (hrun : (system img k₀).Run x₀ trs x) :
    (∀ tr ∈ trs, Fits tr.1 tr.2.1.1) ↔
      UserSpace x₀ ∧ ∀ tr ∈ trs, UserSpace tr.2.2 ∧ NoShrink tr := by
  have hfirst := (userinit_spec hboot).of_ok h0
  have hsmall : ∀ p, (x₀.tasks p).sz < kernbase := by
    intro p
    by_cases hp : p = Ptable.initproc
    · rw [hp, hfirst.initproc.2]
      decide
    · rw [(hfirst.others p hp).1]
      show 0 < kernbase
      decide
  have hgood := hfirst.good
  clear hfirst h0
  constructor
  · intro hfits
    refine ⟨.of_size hsmall, ?_⟩
    induction hrun with
    | nil => exact fun tr htr => by cases htr
    | cons hst hrest ih =>
      obtain ⟨hgood₁, hsmall₁, hno⟩ := size_step hgood hsmall hst (hfits _ List.mem_cons_self)
      intro tr htr
      cases List.mem_cons.mp htr with
      | inl heq =>
        rw [heq]
        exact ⟨.of_size hsmall₁, hno⟩
      | inr hin =>
        exact ih hsmall₁ hgood₁ (fun tr htr => hfits tr (List.mem_cons_of_mem _ htr)) tr hin
  · rintro ⟨-, hall⟩
    clear hgood
    induction hrun with
    | nil => exact fun tr htr => by cases htr
    | cons hst hrest ih =>
      have hnext := (hall _ List.mem_cons_self).1.size
      intro tr htr
      cases List.mem_cons.mp htr with
      | inl heq =>
        rw [heq]
        exact fits_of_size hsmall hst hnext
      | inr hin => exact ih hnext (fun tr htr => hall tr (List.mem_cons_of_mem _ htr)) tr hin

end Size

/-- The first process asks for one page. -/
theorem user_space_first : ∃ (k₀ : Kmem) (x₀ x : Kernel), (system bootImage k₀).start x₀ ∧
    (system bootImage k₀).step x₀ (.mmap Ptable.initproc 0 fun _ => 4096, 4096) x ∧
    (x.tasks Ptable.initproc).sz = 8192 ∧ UserSpace x := by
  obtain ⟨k₀, hboot, x₀, h0, hfirst, -⟩ := first_exists
  refine ⟨k₀, x₀, _, h0, hfirst.mmap, by rw [setTask_task], ?_⟩
  refine (((user_space_iff hboot h0 (.cons hfirst.mmap (.nil _))).mp fun tr htr => ?_).2 _
    List.mem_cons_self).1
  obtain rfl := List.mem_singleton.mp htr
  intro n hn _ _
  have hint : argint (x₀.tasks Ptable.initproc).sz (fun _ => 4096) 0 0 = some 4096 := by
    rw [hfirst.initproc.2]
    decide
  have hn : argint (x₀.tasks Ptable.initproc).sz (fun _ => 4096) 0 0 = some n := hn
  rw [hint] at hn
  rw [← Option.some.inj hn, hfirst.initproc.2]
  decide

/-- The first process, of size 4096, asks for 0x7ffff000 bytes and has the size `KERNBASE`; `trap`
    would have the first page of the kernel mapped for it.  It asks for another page, and `fetchint`
    reads kernel memory; then for 0x7ffff000 bytes again, and its size is 0. -/
theorem kernbase_reached : ∃ (k₀ : Kmem) (x₀ x₁ x₂ : Kernel), Booted bootImage k₀ ∧
    (system bootImage k₀).start x₀ ∧
    (system bootImage k₀).step x₀ (.mmap Ptable.initproc 0 fun _ => 0x7ffff000, 4096) x₁ ∧
    (system bootImage k₀).step x₁ (.mmap Ptable.initproc 0 fun _ => 4096, -0x80000000) x₂ ∧
    (x₁.tasks Ptable.initproc).sz = kernbase ∧
    pgfltPage (x₁.tasks Ptable.initproc).sz kernbase = some userPages ∧
    (fetchint (x₂.tasks Ptable.initproc).sz (fun _ => 0) kernbase).isSome ∧
    (sysMmap (x₂.tasks Ptable.initproc).sz 0 fun _ => 0x7ffff000).2 = 0 := by
  obtain ⟨k₀, hboot, x₀, h0, hfirst, -⟩ := first_exists
  have hres : sysMmap (x₀.tasks Ptable.initproc).sz 0 (fun _ => 0x7ffff000) = (4096, kernbase) := by
    rw [hfirst.initproc.2]
    decide
  have hstep := mmap_step bootImage k₀ hfirst.initproc.1 hres
  generalize hx₁ : x₀.setTask Ptable.initproc _ = x₁ at hstep
  have hsz₁ : (x₁.tasks Ptable.initproc).sz = kernbase := by rw [← hx₁, setTask_task]
  have hrun₁ : (x₁.tasks Ptable.initproc).state = .runnable := by
    rw [← hx₁, setTask_task]
    exact hfirst.initproc.1
  have hres' : sysMmap (x₁.tasks Ptable.initproc).sz 0 (fun _ => 4096) =
      (-0x80000000, 0x80001000) := by
    rw [hsz₁]
    decide
  have hstep' := mmap_step bootImage k₀ hrun₁ hres'
  refine ⟨k₀, x₀, x₁, _, hboot, h0, hstep, hstep', hsz₁, ?_, ?_, ?_⟩
  · rw [hsz₁]
    decide
  · rw [setTask_task]
    show (fetchint 0x80001000 (fun _ => 0) kernbase).isSome
    decide
  · rw [setTask_task]
    show (sysMmap 0x80001000 0 fun _ => 0x7ffff000).2 = 0
    decide

end OsCodes.Paging.Lazy
