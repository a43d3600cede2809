/-
  The reference counts of copy-on-write are exact, over every run of the functions on memory.

  A state is the memory, the live page directories and the pages that the kernel has for itself.
  `Balanced` says that the books are right for the references of all of these together; every call
  is a step of one directory beside the others (`Balanced.setDir`), so each needs only the law of its
  function.  Since the books determine the counts, the free list and its length, all that is claimed
  of them follows at once.

  1. `mapped` and `State.mappings` count, from the directories alone, how many user entries map a
     page; `State.Holds` says which pages are the kernel's own;
  2. `Balanced.exec` goes through the calls, with the law of `PagingLaw` or `CopyLaw` for each;
  3. `refcounts_exact` reads the books: the count of a page that is mapped is the number of its
     mappings, a page with count 0 is free and on the free list once, and `NumFreePages` and the
     allocated pages together are as many as there were at boot;
  4. the lemmas on memory (`setupkvm_run`, `allocuvm_run`, `copyuvm_run`, `fault_run`) say how
     many free pages are enough for one call, so that runs can be built, as `shared_page` is: a
     page that parent and child share has count 2, and count 1 when one of them has written to it.
-/
import Mathlib.Algebra.BigOperators.Group.Finset.Basic
import Mathlib.Algebra.Order.BigOperators.Group.Finset
import OsCodes.Lib.Lts
import OsCodes.Xv6.CopyLaw

namespace OsCodes.Paging.Counts

open Refcount Xv6

/-! ## Memory and calls -/

/-- The memory, the live page directories, and the pages that the kernel has for itself: kernel
    stacks and pipes. -/
structure State (ι : Type) where
  kmem : Kmem
  dirs : ι → Option PgDir
  priv : Finset Nat

/-- What the kernel does next with its memory: a function on one or two of its directories, a page
    of its own taken or given back, or a write. -/
inductive Call (ι : Type)
  | setupkvm (i : ι)
  | allocuvm (i : ι) (oldsz newsz : Nat)
  | deallocuvm (i : ι) (oldsz newsz : Nat)
  | freevm (i : ι)
  | copyuvm (i c : ι) (sz : Nat)
  | handlePgfltHelper (i : ι) (v : Nat)
  | clearpteu (i : ι) (v : Nat)
  | kalloc
  | kfree (p : Nat)
  /-- something is written, by a process or the kernel -/
  | write (mem : Nat → Page)

section Exec

variable {ι : Type} [DecidableEq ι]

/-- The state with directory `i` replaced. -/
def State.setDir (s : State ι) (i : ι) (x : Option PgDir) (k : Kmem) : State ι :=
  { s with kmem := k, dirs := Function.update s.dirs i x }

/-- The page directory of a process that has one. -/
def State.dir (s : State ι) (i : ι) : Except String PgDir :=
  match s.dirs i with
  | none => .error "freevm: no pgdir"
  | some d => .ok d

/-- One call in xv6-public(1). -/
def exec (img : Image) (s : State ι) : Call ι → Except String (State ι)
  | .setupkvm i => do
    let (d, k) ← setupkvm counted img s.kmem
    .ok (s.setDir i d k)
  | .allocuvm i oldsz newsz => do
    let d ← s.dir i
    let (_, d, k) ← allocuvm counted img d oldsz newsz s.kmem
    .ok (s.setDir i (some d) k)
  | .deallocuvm i oldsz newsz => do
    let d ← s.dir i
    let (_, d, k) ← deallocuvm counted img d oldsz newsz s.kmem
    .ok (s.setDir i (some d) k)
  | .freevm i => do
    let d ← s.dir i
    let k ← freevm counted img d s.kmem
    .ok (s.setDir i none k)
  | .copyuvm i c sz => do
    let d ← s.dir i
    let (child, d, k) ← Cow.copyuvm img d sz s.kmem
    .ok ((s.setDir i (some d) k).setDir c child k)
  | .handlePgfltHelper i v => do
    let d ← s.dir i
    let (d, k) ← Cow.handlePgfltHelper img d v s.kmem
    .ok (s.setDir i (some d) k)
  | .clearpteu i v => do
    let d ← s.dir i
    let d ← clearpteu d v
    .ok (s.setDir i (some d) s.kmem)
  | .kalloc => do
    match ← Counted.kalloc s.kmem with
    | (none, k) => .ok { s with kmem := k }
    | (some p, k) => .ok { s with kmem := k, priv := insert p s.priv }
  | .kfree p => do
    let k ← Counted.kfree img p s.kmem
    .ok { s with kmem := k, priv := s.priv.erase p }
  | .write mem => .ok { s with kmem := { s.kmem with mem := mem } }

end Exec

section Allowed

variable {ι : Type}

/-- How the kernel calls: a new directory goes to a free place, `deallocuvm` is given the size of a
    process or `KERNBASE`, the faulting page is a present user page, and what is freed was
    allocated. -/
def Allowed (s : State ι) : Call ι → Prop
  | .setupkvm i => s.dirs i = none
  | .allocuvm i _ _ => (s.dirs i).isSome
  | .deallocuvm i oldsz _ => (s.dirs i).isSome ∧ oldsz ≤ kernbase
  | .freevm i => (s.dirs i).isSome
  | .copyuvm i c _ => (s.dirs i).isSome ∧ s.dirs c = none
  | .handlePgfltHelper i v =>
    ∃ d e, s.dirs i = some d ∧ v < userPages ∧ d.entry v = some e ∧ e.u = true
  | .clearpteu i v => (s.dirs i).isSome ∧ v < userPages
  | .kalloc => True
  | .kfree p => p ∈ s.priv
  | .write _ => True

/-- The kernel from the return of `kinit2` on. -/
def system [DecidableEq ι] (img : Image) (k₀ : Kmem) : Lts (State ι) (Call ι) where
  start s := s = ⟨k₀, fun _ => none, ∅⟩
  step s call s' := Allowed s call ∧ exec img s call = .ok s'

/-- The page is the kernel's own: private, a page directory or a page table. -/
def State.Holds (s : State ι) (p : Nat) : Prop :=
  p ∈ s.priv ∨ ∃ i d, s.dirs i = some d ∧
    (d.page = p ∨ ∃ t, t < 1024 ∧ d.table t = some p)

/-- How many present entries of a directory, at addresses below `KERNBASE`, map page `p`. -/
def mapped (x : Option PgDir) (p : Nat) : Nat :=
  match x with
  | none => 0
  | some d => ((Finset.Iio userPages).filter fun v => (d.entry v).map Pte.page = some p).card

/-- How many user entries map page `p`, over all live directories. -/
def State.mappings [Fintype ι] (s : State ι) (p : Nat) : Nat := ∑ i, mapped (s.dirs i) p

/-- How many of the pages `pool` are allocated. -/
def State.allocated (s : State ι) (pool : List Nat) : Nat :=
  (pool.toFinset.filter fun p => 0 < s.kmem.count p).card

/-! ## References -/

/-- The references of one place. -/
def share (x : Option PgDir) : Refs Nat :=
  match x with
  | none => 0
  | some d => d.uses

/-- The references to private pages. -/
def held (priv : Finset Nat) : Refs Nat := ⟨fun q => if q ∈ priv then 1 else 0, fun _ => 0⟩

theorem held_insert {priv : Finset Nat} {p : Nat} (hp : p ∉ priv) :
    held (insert p priv) = held priv + .owner p := by
  refine Refs.eq_of (fun q => ?_) (fun _ => rfl)
  show (if q ∈ insert p priv then 1 else 0) = (if q ∈ priv then 1 else 0) + hit (some p) q
  by_cases hqp : q = p
  · rw [hqp, if_pos (Finset.mem_insert_self p priv), if_neg hp, hit_self]
  · rw [hit_ne hqp, Nat.add_zero]
    exact if_congr (by rw [Finset.mem_insert, or_iff_right hqp]) rfl rfl

theorem held_erase {priv : Finset Nat} {p : Nat} (hp : p ∈ priv) :
    held priv = held (priv.erase p) + .owner p := by
  rw [← held_insert (Finset.notMem_erase p priv), Finset.insert_erase hp]

section Refs

variable [Fintype ι]

/-- All references. -/
def State.refs (s : State ι) : Refs Nat := (∑ i, share (s.dirs i)) + held s.priv

theorem refs_shared (s : State ι) (p : Nat) : s.refs.shared p = s.mappings p := by
  rw [State.refs, Refs.add_shared, Refs.sum_shared, State.mappings]
  show _ + 0 = _
  rw [Nat.add_zero]
  refine Finset.sum_congr rfl fun i _ => ?_
  cases s.dirs i with
  | none => rfl
  | some d => rfl

/-- **The kernel's own pages** are those that are owned. -/
theorem refs_own_pos (s : State ι) (p : Nat) : 0 < s.refs.own p ↔ s.Holds p := by
  rw [State.refs, Refs.add_own, Refs.sum_own, State.Holds, Nat.add_pos_iff_pos_or_pos,
    or_comm, Finset.sum_pos_iff]
  refine or_congr ?_ ⟨?_, ?_⟩
  · show 0 < (if p ∈ s.priv then 1 else 0) ↔ p ∈ s.priv
    split
    case isTrue h => exact ⟨fun _ => h, fun _ => Nat.one_pos⟩
    case isFalse h => exact ⟨fun hno => absurd hno (Nat.lt_irrefl 0), fun h' => absurd h' h⟩
  · rintro ⟨i, -, hpos⟩
    cases hd : s.dirs i with
    | none =>
      rw [hd] at hpos
      exact absurd hpos (Nat.lt_irrefl 0)
    | some d =>
      rw [hd] at hpos
      have hpos : 0 < hit (some d.page) p + hits (Finset.Iio 1024) d.table p := hpos
      refine ⟨i, d, hd, ?_⟩
      by_cases hpage : d.page = p
      · exact .inl hpage
      · rw [hit_ne (Ne.symm hpage), Nat.zero_add] at hpos
        obtain ⟨t, ht⟩ := Finset.card_pos.mp hpos
        rw [Finset.mem_filter, Finset.mem_Iio] at ht
        exact .inr ⟨t, ht⟩
  · rintro ⟨i, d, hd, hor⟩
    refine ⟨i, Finset.mem_univ i, ?_⟩
    rw [hd]
    show 0 < hit (some d.page) p + hits (Finset.Iio 1024) d.table p
    cases hor with
    | inl hpage =>
      rw [hpage, hit_self]
      omega
    | inr htable =>
      obtain ⟨t, ht, htab⟩ := htable
      exact Nat.add_pos_right _ (hits_pos (Finset.mem_Iio.mpr ht) htab)

/-- A page without references is not private. -/
theorem notMem_priv {s : State ι} {p : Nat} (h : s.refs.total p = 0) : p ∉ s.priv := by
  intro hin
  have hpos := (refs_own_pos s p).mpr (.inl hin)
  rw [Refs.total] at h
  omega

/-- A private page more. -/
theorem refs_insert {s : State ι} {p : Nat} (h : s.refs.total p = 0) (k : Kmem) :
    State.refs { s with kmem := k, priv := insert p s.priv } = s.refs + .owner p := by
  show (∑ i, share (s.dirs i)) + held (insert p s.priv) = (∑ i, share (s.dirs i)) + held s.priv + _
  rw [held_insert (notMem_priv h), ← add_assoc]

/-- A private page less. -/
theorem refs_erase {s : State ι} {p : Nat} (hp : p ∈ s.priv) (k : Kmem) :
    s.refs = State.refs { s with kmem := k, priv := s.priv.erase p } + .owner p := by
  show (∑ i, share (s.dirs i)) + held s.priv = (∑ i, share (s.dirs i)) + held (s.priv.erase p) + _
  rw [held_erase hp, ← add_assoc]

variable [DecidableEq ι]

/-- All references but those of place `i`. -/
def State.others (s : State ι) (i : ι) : Refs Nat :=
  (∑ j ∈ Finset.univ.erase i, share (s.dirs j)) + held s.priv

theorem refs_eq (s : State ι) (i : ι) : s.refs = s.others i + share (s.dirs i) := by
  rw [State.refs, State.others, ← Finset.sum_erase_add _ _ (Finset.mem_univ i), add_right_comm]

theorem refs_setDir (s : State ι) (i : ι) (x : Option PgDir) (k : Kmem) :
    (s.setDir i x k).refs = s.others i + share x := by
  have hothers : (s.setDir i x k).others i = s.others i := by
    rw [State.others, State.others]
    congr 1
    refine Finset.sum_congr rfl fun j hj => ?_
    show share (Function.update s.dirs i x j) = _
    rw [Function.update_of_ne (Finset.ne_of_mem_erase hj)]
  rw [refs_eq _ i, hothers]
  show _ + share (Function.update s.dirs i x i) = _
  rw [Function.update_self]

end Refs

end Allowed

/-! ## Directories -/

/-- A directory maps no page twice, and its user pages may be written, now or after a copy. -/
structure Proper (d : PgDir) : Prop where
  single : d.Single
  usable : ∀ v e, v < userPages → d.entry v = some e → e.w = true ∨ e.cow = true

section Proper

variable {d d' : PgDir} {v : Nat}

theorem Proper.empty (h : ∀ v, v < userPages → d.entry v = none) : Proper d := by
  refine ⟨fun q => ?_, fun v e hv he => ?_⟩
  · have hzero : hits (Finset.Iio userPages) d.target q = 0 := hits_eq_zero fun v hv hq => by
      rw [PgDir.target, h v (Finset.mem_Iio.mp hv)] at hq
      cases hq
    show hits (Finset.Iio userPages) d.target q ≤ 1
    omega
  · rw [h v hv] at he
    cases he

/-- The same pages or fewer, with permissions that are as good. -/
theorem Proper.less (h : Proper d) (he : ∀ u e', u < userPages → d'.entry u = some e' →
    ∃ e, d.entry u = some e ∧ e.page = e'.page ∧
      (e.w = true ∨ e.cow = true → e'.w = true ∨ e'.cow = true)) : Proper d' := by
  constructor
  · refine h.single.less fun u e' hu hd' => ?_
    obtain ⟨e, hd, hpage, -⟩ := he u e' hu hd'
    exact ⟨e, hd, hpage⟩
  · intro u e' hu hd'
    obtain ⟨e, hd, -, hperm⟩ := he u e' hu hd'
    exact hperm (h.usable u e hu hd)

/-- A page that may be written. -/
theorem Proper.update {e : Pte} (h : Proper d) (hv : v < userPages)
    (hentry : d'.entry = Function.update d.entry v (some e)) (hfresh : d.uses.shared e.page = 0)
    (hw : e.w = true) : Proper d' := by
  refine ⟨h.single.update hv hentry hfresh, fun u e' hu he' => ?_⟩
  by_cases huv : u = v
  · rw [hentry, huv, Function.update_self] at he'
    rw [← Option.some.inj he']
    exact .inl hw
  · rw [hentry, Function.update_of_ne huv] at he'
    exact h.usable u e' hu he'

theorem Proper.shared {j : Nat} (h : Proper d) (hs : SharedTo d j d') : Proper d' := by
  refine h.less fun u e' _ he' => ?_
  rw [hs.entry_eq] at he'
  split at he'
  case isTrue =>
    obtain ⟨e, he, rfl⟩ := Option.map_eq_some_iff.mp he'
    exact ⟨e, he, rfl, fun _ => .inr rfl⟩
  case isFalse => exact ⟨e', he', rfl, id⟩

theorem Proper.child {j : Nat} (h : Proper d) (hc : Cow.ChildTo d j d') : Proper d' := by
  refine h.less fun u e' hu he' => ?_
  rw [hc u hu] at he'
  split at he'
  case isTrue =>
    obtain ⟨e, he, rfl⟩ := Option.map_eq_some_iff.mp he'
    exact ⟨e, he, rfl, fun _ => .inr rfl⟩
  case isFalse => cases he'

end Proper

/-! ## The invariant -/

/-- The panics that the calls may end with. -/
def stops : List String :=
  ["remap", "copyuvm: pte should exist", "copyuvm: page not present", "pagefault handler",
    "clearpteu"]

section Balanced

variable {ι : Type} [Fintype ι] {img : Image} {pool : Finset Nat}
  {hvalid : ∀ p ∈ pool, img.endPage ≤ p ∧ p < frames}

/-- The books are right for all references. -/
structure Balanced (img : Image) (pool : Finset Nat)
    (hvalid : ∀ p ∈ pool, img.endPage ≤ p ∧ p < frames) (s : State ι) : Prop where
  acct : (Counted.books img pool hvalid).Acct s.kmem s.refs
  proper : ∀ i d, s.dirs i = some d → Proper d

variable [DecidableEq ι] {s : State ι} {i : ι} {d : PgDir}

/-- A directory beside all other references. -/
theorem Balanced.live (h : Balanced img pool hvalid s) (hi : s.dirs i = some d) :
    (Counted.books img pool hvalid).Acct s.kmem (s.others i + d.uses) := by
  have hacct := h.acct
  rw [refs_eq s i, hi] at hacct
  exact hacct

/-- **A step of one directory** beside the others. -/
theorem Balanced.setDir {x : Option PgDir} {k : Kmem} (h : Balanced img pool hvalid s)
    (hacct : (Counted.books img pool hvalid).Acct k (s.others i + share x))
    (hx : ∀ d, x = some d → Proper d) : Balanced img pool hvalid (s.setDir i x k) := by
  refine ⟨by rw [refs_setDir]; exact hacct, fun j d hj => ?_⟩
  have hj : Function.update s.dirs i x j = some d := hj
  by_cases hji : j = i
  · rw [hji, Function.update_self] at hj
    exact hx d hj
  · rw [Function.update_of_ne hji] at hj
    exact h.proper j d hj

/-- The one directory that stays is proper. -/
theorem proper_some {d' : PgDir} (h : Proper d') : ∀ d, some d' = some d → Proper d := by
  intro d hd
  rw [← Option.some.inj hd]
  exact h

omit [Fintype ι] [DecidableEq ι] in
theorem dir_eq (hi : s.dirs i = some d) : s.dir i = .ok d := by rw [State.dir, hi]

theorem Balanced.setupkvm (h : Balanced img pool hvalid s) (hi : s.dirs i = none) :
    Allows (· ∈ stops) (exec img s (.setupkvm i)) (Balanced img pool hvalid) := by
  have hacct := h.acct
  rw [refs_eq s i, hi] at hacct
  have hacct : (Counted.books img pool hvalid).Acct s.kmem (s.others i) := by
    rw [← add_zero (s.others i)]
    exact hacct
  apply (setupkvm_spec hacct).bind
  rintro ⟨x, k⟩ hnew
  cases x with
  | none =>
    refine .ok (h.setDir ?_ fun d hd => by cases hd)
    show (Counted.books img pool hvalid).Acct k (s.others i + 0)
    rw [add_zero]
    exact hnew.1
  | some d =>
    obtain ⟨hacct', hempty, -⟩ := hnew
    exact .ok (h.setDir hacct' (proper_some (.empty hempty)))

theorem Balanced.allocuvm {oldsz newsz : Nat} (h : Balanced img pool hvalid s)
    (hi : s.dirs i = some d) : Allows (· ∈ stops) (exec img s (.allocuvm i oldsz newsz))
      (Balanced img pool hvalid) := by
  have hlive := h.live hi
  have hd := h.proper i d hi
  simp only [exec, dir_eq hi]
  show Allows _ (Paging.allocuvm counted img d oldsz newsz s.kmem >>= _) _
  by_cases hnew : kernbase ≤ newsz
  · rw [Paging.allocuvm, if_pos hnew]
    exact .ok (h.setDir hlive (proper_some hd))
  · by_cases hwrap : newsz < oldsz
    · rw [Paging.allocuvm, if_neg hnew, if_pos hwrap]
      exact .ok (h.setDir hlive (proper_some hd))
    · apply (allocuvm_spec (by omega) (by omega) (fun _ _ _ _ => by decide) hlive).bind
      rintro ⟨r, d₁, k⟩ hpost
      have hpost : Alloced (Counted.books img pool hvalid) (s.others i) d _ _ newsz r d₁ k := hpost
      refine .ok (h.setDir hpost.acct (proper_some ⟨hpost.single hd.single, fun u e hu he => ?_⟩))
      by_cases hin : pages oldsz ≤ u ∧ u < pages newsz
      · have hperm := hpost.grown.inside u hin.1 hin.2 e he
        rw [hperm]
        exact .inl rfl
      · rw [hpost.grown.outside u hin] at he
        exact hd.usable u e hu he

theorem Balanced.deallocuvm {oldsz newsz : Nat} (h : Balanced img pool hvalid s)
    (hi : s.dirs i = some d) (hold : oldsz ≤ kernbase) :
    Allows (· ∈ stops) (exec img s (.deallocuvm i oldsz newsz)) (Balanced img pool hvalid) := by
  simp only [exec, dir_eq hi]
  apply (deallocuvm_spec hold (h.live hi)).bind
  rintro ⟨r, d₁, k⟩ ⟨hgone, -⟩
  have hgone : Unmapped (Counted.books img pool hvalid) (s.others i) d s.kmem _ _ d₁ k := hgone
  refine .ok (h.setDir hgone.acct (proper_some ((h.proper i d hi).less fun u e hu he => ?_)))
  by_cases hin : pages newsz ≤ u ∧ u < pages oldsz
  · rw [hgone.inside u hin.1 hin.2] at he
    cases he
  · exact ⟨e, by rw [← hgone.outside u hin, he], rfl, id⟩

theorem Balanced.freevm (h : Balanced img pool hvalid s) (hi : s.dirs i = some d) :
    Allows (· ∈ stops) (exec img s (.freevm i)) (Balanced img pool hvalid) := by
  simp only [exec, dir_eq hi]
  apply (freevm_spec (h.live hi)).bind
  rintro k ⟨hacct, -⟩
  refine .ok (h.setDir ?_ fun d hd => by cases hd)
  show (Counted.books img pool hvalid).Acct k (s.others i + 0)
  rw [add_zero]
  exact hacct

theorem Balanced.copyuvm {c : ι} {sz : Nat} (h : Balanced img pool hvalid s)
    (hi : s.dirs i = some d) (hc : s.dirs c = none) :
    Allows (· ∈ stops) (exec img s (.copyuvm i c sz)) (Balanced img pool hvalid) := by
  have hlive := h.live hi
  have hd := h.proper i d hi
  have hci : c ≠ i := by
    intro hci
    rw [hci, hi] at hc
    cases hc
  simp only [exec, dir_eq hi]
  apply (Cow.copyuvm_spec (exists_absent hd.single hlive) (fun _ _ _ => by decide) hlive).bind
  rintro ⟨child, d₁, k⟩ hfork
  have hfork : Cow.Forked (Counted.books img pool hvalid) (s.others i) d sz s.kmem child d₁ k :=
    hfork
  -- the parent's step first, then the child's
  have hshared : ∃ j, SharedTo d j d₁ := by
    cases child with
    | none =>
      obtain ⟨-, j, -, hs⟩ := hfork.failed rfl
      exact ⟨j, hs⟩
    | some d₂ => exact ⟨_, (hfork.done d₂ rfl).2.1⟩
  obtain ⟨j, hs⟩ := hshared
  have hrefs : (s.setDir i (some d₁) k).refs = s.others i + d.uses := by
    rw [refs_setDir, ← hs.uses_eq]
    rfl
  have hnone : (s.setDir i (some d₁) k).dirs c = none := by
    show Function.update s.dirs i (some d₁) c = none
    rw [Function.update_of_ne hci, hc]
  have hothers : (s.setDir i (some d₁) k).others c = s.others i + d.uses := by
    rw [← hrefs, refs_eq _ c, hnone]
    exact (add_zero _).symm
  have hproper : ∀ j d', (s.setDir i (some d₁) k).dirs j = some d' → Proper d' := by
    intro j d' hj
    have hj : Function.update s.dirs i (some d₁) j = some d' := hj
    by_cases hji : j = i
    · rw [hji, Function.update_self] at hj
      exact proper_some (hd.shared hs) d' hj
    · rw [Function.update_of_ne hji] at hj
      exact h.proper j d' hj
  refine .ok ⟨?_, fun j d' hj => ?_⟩
  · rw [refs_setDir, hothers]
    cases child with
    | none =>
      show (Counted.books img pool hvalid).Acct k (s.others i + d.uses + 0)
      rw [add_zero]
      exact (hfork.failed rfl).1
    | some d₂ => exact (hfork.done d₂ rfl).1
  · have hj : Function.update (s.setDir i (some d₁) k).dirs c child j = some d' := hj
    by_cases hjc : j = c
    · rw [hjc, Function.update_self] at hj
      exact hd.child (hfork.done d' hj).2.2.1
    · rw [Function.update_of_ne hjc] at hj
      exact hproper j d' hj

theorem Balanced.handlePgfltHelper {v : Nat} {e : Pte} (h : Balanced img pool hvalid s)
    (hi : s.dirs i = some d) (hv : v < userPages) (he : d.entry v = some e) (hu : e.u = true) :
    Allows (· ∈ stops) (exec img s (.handlePgfltHelper i v)) (Balanced img pool hvalid) := by
  simp only [exec, dir_eq hi]
  apply (Cow.handlePgfltHelper_spec hv he hu (fun _ => by decide) (h.live hi)).bind
  rintro ⟨d₁, k⟩ ⟨hacct, mem, hfresh, hentry⟩
  exact .ok (h.setDir hacct
    (proper_some ((h.proper i d hi).update hv hentry (shared_fresh hfresh) rfl)))

theorem Balanced.clearpteu {v : Nat} (h : Balanced img pool hvalid s) (hi : s.dirs i = some d) :
    Allows (· ∈ stops) (exec img s (.clearpteu i v)) (Balanced img pool hvalid) := by
  simp only [exec, dir_eq hi]
  apply (clearpteu_spec (by decide)).bind
  rintro d₁ ⟨huses, hsame⟩
  refine .ok (h.setDir ?_ (proper_some ((h.proper i d hi).less fun u e' _ he' => ?_)))
  · show (Counted.books img pool hvalid).Acct s.kmem (s.others i + d₁.uses)
    rw [huses]
    exact h.live hi
  · cases hsame u with
    | inl heq =>
      rw [heq] at he'
      exact ⟨e', he', rfl, id⟩
    | inr heq =>
      rw [heq] at he'
      obtain ⟨e, he, rfl⟩ := Option.map_eq_some_iff.mp he'
      exact ⟨e, he, rfl, id⟩

theorem Balanced.kalloc (h : Balanced img pool hvalid s) :
    Allows (· ∈ stops) (exec img s .kalloc) (Balanced img pool hvalid) := by
  apply ((Counted.books img pool hvalid).kalloc_spec h.acct).bind
  rintro ⟨r, k⟩ htaken
  cases r with
  | none =>
    obtain rfl : k = s.kmem := htaken
    exact .ok h
  | some p =>
    obtain ⟨hzero, howned, -, -⟩ := htaken
    exact .ok ⟨by rw [refs_insert hzero]; exact howned, h.proper⟩

theorem Balanced.kfree {p : Nat} (h : Balanced img pool hvalid s) (hp : p ∈ s.priv) :
    Allows (· ∈ stops) (exec img s (.kfree p)) (Balanced img pool hvalid) := by
  have hacct := h.acct
  rw [refs_erase hp s.kmem] at hacct
  apply (kfree_owner hacct).bind
  rintro k ⟨hacct', -⟩
  exact .ok ⟨hacct', h.proper⟩

/-- **Every call keeps the books**, or ends with another panic. -/
theorem Balanced.exec {call : Call ι} (h : Balanced img pool hvalid s) (hok : Allowed s call) :
    Allows (· ∈ stops) (exec img s call) (Balanced img pool hvalid) := by
  cases call with
  | setupkvm i => exact h.setupkvm hok
  | allocuvm i oldsz newsz =>
    obtain ⟨d, hi⟩ := Option.isSome_iff_exists.mp hok
    exact h.allocuvm hi
  | deallocuvm i oldsz newsz =>
    obtain ⟨d, hi⟩ := Option.isSome_iff_exists.mp hok.1
    exact h.deallocuvm hi hok.2
  | freevm i =>
    obtain ⟨d, hi⟩ := Option.isSome_iff_exists.mp hok
    exact h.freevm hi
  | copyuvm i c sz =>
    obtain ⟨d, hi⟩ := Option.isSome_iff_exists.mp hok.1
    exact h.copyuvm hi hok.2
  | handlePgfltHelper i v =>
    obtain ⟨d, e, hi, hv, he, hu⟩ := hok
    exact h.handlePgfltHelper hi hv he hu
  | clearpteu i v =>
    obtain ⟨d, hi⟩ := Option.isSome_iff_exists.mp hok.1
    exact h.clearpteu hi
  | kalloc => exact h.kalloc
  | kfree p => exact h.kfree hok
  | write mem => exact .ok ⟨(Counted.books img pool hvalid).setMem mem h.acct, h.proper⟩

end Balanced

/-! ## Every run -/

section Runs

variable {ι : Type} [Fintype ι] [DecidableEq ι] {img : Image} {k₀ : Kmem}

/-- The pages that `kalloc` gives out are valid. -/
theorem boot_valid (hboot : Booted img k₀) :
    ∀ p ∈ k₀.freelist.toFinset, img.endPage ≤ p ∧ p < frames := by
  intro p hp
  obtain ⟨hge, hlt, -⟩ := hboot.filling.range p (List.mem_toFinset.mp hp)
  exact ⟨hge, hlt⟩

omit [DecidableEq ι] in
/-- Nothing refers to a page at the start. -/
theorem refs_empty (k : Kmem) : State.refs ⟨k, fun _ : ι => none, ∅⟩ = 0 := by
  rw [State.refs]
  refine (congrArg₂ (· + ·) (Finset.sum_eq_zero fun _ _ => rfl) ?_).trans (add_zero 0)
  exact Refs.eq_of (fun _ => rfl) (fun _ => rfl)

/-- **Reachable states** are balanced: the books are right for the directories and the private pages
    together. -/
theorem reach_balanced (hboot : Booted img k₀) {s : State ι} (hr : (system img k₀).Reach s) :
    Balanced img k₀.freelist.toFinset (boot_valid hboot) s := by
  refine hr.invariant ?_ ?_
  · rintro s rfl
    refine ⟨?_, fun i d hi => by cases hi⟩
    rw [refs_empty]
    exact ⟨.start hboot.filling.nodup, fun p hp => absurd hp (Nat.lt_irrefl 0), hboot.filling.count⟩
  · rintro s call s' h ⟨hok, hexec⟩
    exact (h.exec hok).of_ok hexec

/-- **Copy-on-write reference counts are exact.**  In every state of a run after `kinit2`, a page
    that the kernel has for itself has count 1 and no user entry maps it; the count of any other page
    is the number of user entries that map it.  A page is free if and only if its count is 0, and is
    on the free list once; free and allocated pages together stay the same; and no further call
    panics because of a count. -/
theorem refcounts_exact (hboot : Booted img k₀) {s : State ι} (hr : (system img k₀).Reach s) :
    (∀ p ∈ k₀.freelist, (s.Holds p ∧ s.kmem.count p = 1 ∧ s.mappings p = 0) ∨
      (¬ s.Holds p ∧ s.kmem.count p = s.mappings p)) ∧
    (∀ p ∈ k₀.freelist, p ∈ s.kmem.freelist ↔ s.kmem.count p = 0) ∧
    s.kmem.freelist.Nodup ∧ (∀ p ∈ s.kmem.freelist, p ∈ k₀.freelist) ∧
    NumFreePages s.kmem + s.allocated k₀.freelist = k₀.freelist.length ∧
    ∀ call, Allowed s call → exec img s call ≠ .error "kfree: refcount < 0" ∧
      exec img s call ≠ .error "incrementRefCount: refcount == 0" := by
  have h := reach_balanced hboot hr
  obtain ⟨hledger, hapart, hcount⟩ := h.acct
  have hfree : ∀ p, p ∈ s.kmem.freelist ↔ p ∈ k₀.freelist ∧ s.refs.total p = 0 := fun p => by
    rw [hledger.mem_free, List.mem_toFinset]
  have hlt : ∀ p ∈ s.kmem.freelist, p < frames := fun p hp =>
    (boot_valid hboot p (List.mem_toFinset.mpr ((hfree p).mp hp).1)).2
  refine ⟨fun p _ => ?_, fun p hp => ?_, hledger.nodup, fun p hp => ((hfree p).mp hp).1, ?_,
    fun call hok => ?_⟩
  · have htotal : s.refs.total p = s.refs.own p + s.mappings p := by
      rw [Refs.total, refs_shared]
    by_cases hholds : s.Holds p
    · have hown := (refs_own_pos s p).mpr hholds
      have hone := hapart p hown
      refine .inl ⟨hholds, ?_, by omega⟩
      rw [hcount p, hone]
      rfl
    · have hown : ¬ 0 < s.refs.own p := fun hpos => hholds ((refs_own_pos s p).mp hpos)
      refine .inr ⟨hholds, ?_⟩
      rw [hcount p, htotal]
      omega
  · rw [hfree p, hcount p]
    exact ⟨fun hin => by rw [hin.2]; rfl, fun hzero => ⟨hp, Int.natCast_eq_zero.mp hzero⟩⟩
  · have hsum := hledger.length_add_card
    rw [List.toFinset_card_of_nodup hboot.filling.nodup] at hsum
    have hsame : (k₀.freelist.toFinset.filter fun p => 0 < s.kmem.count p) =
        k₀.freelist.toFinset.filter fun p => 0 < s.refs.total p :=
      Finset.filter_congr fun p _ => by
        rw [hcount p]
        omega
    rw [NumFreePages, numFreeLoop_eq hlt, Nat.zero_add, State.allocated, hsame, hsum]
  · have hstop := h.exec hok
    constructor
    · intro herr
      rw [herr] at hstop
      have hin : "kfree: refcount < 0" ∈ stops := hstop
      exact absurd hin (by decide)
    · intro herr
      rw [herr] at hstop
      have hin : "incrementRefCount: refcount == 0" ∈ stops := hstop
      exact absurd hin (by decide)

/-- **Memory for a directory**: `setupkvm` succeeds with 65 free pages. -/
theorem setupkvm_run (hboot : Booted img k₀) {s : State ι} (hr : (system img k₀).Reach s) {i : ι}
    (hi : s.dirs i = none) (hfree : 65 ≤ s.kmem.freelist.length) :
    ∃ d k, (system img k₀).Reach (s.setDir i (some d) k) ∧ d.tabs = kernelTabs ∧
      room d k + 1 = s.kmem.freelist.length := by
  have h := reach_balanced hboot hr
  obtain ⟨⟨x, k⟩, hrun, -, hcost⟩ := ((setupkvm_spec h.acct).and setupkvm_cost).exists_ok
  cases x with
  | none =>
    have hcost : s.kmem.freelist.length < 65 := hcost
    omega
  | some d =>
    refine ⟨d, k, .step hr (e := .setupkvm i) ⟨hi, ?_⟩, hcost⟩
    show (setupkvm counted img s.kmem >>= _) = _
    rw [hrun]
    rfl

/-- **Memory for a first page** of a directory with the kernel part only: the page and its page
    table. -/
theorem allocuvm_run (hboot : Booted img k₀) {s : State ι} (hr : (system img k₀).Reach s) {i : ι}
    {d : PgDir} (hi : s.dirs i = some d) (htabs : d.tabs = kernelTabs)
    (hroom : 66 ≤ room d s.kmem) :
    ∃ d' k e, (system img k₀).Reach (s.setDir i (some d') k) ∧ d'.entry 0 = some e ∧ e.u = true ∧
      room d' k + 1 = room d s.kmem := by
  have hnone : ∀ u, pages 0 ≤ u → u < pages 4096 → d.entry u ≠ none → False := by
    intro u _ hu hne
    have hu : u < 1 := hu
    obtain ⟨e, he⟩ := Option.ne_none_iff_exists'.mp hne
    obtain ⟨ht, -⟩ := walkpgdir_eq_some.mp (entry_eq_some.mp he).1
    have hv : u < vpages := by
      show u < 1048576
      omega
    rw [← mem_tabs hv, htabs, kernelTabs, Finset.mem_union, Finset.mem_Ico, Finset.mem_Ico] at ht
    have hpdx : pdx u = u / 1024 := rfl
    omega
  obtain ⟨⟨r, d', k⟩, hrun, halloced, hcost⟩ :=
    ((allocuvm_spec (by decide) (Nat.zero_le 4096) hnone ((reach_balanced hboot hr).live hi)).and
      (allocuvm_cost (by decide) (Nat.zero_le 4096))).exists_ok
  have hcost : (r = 4096 ∧ room d' k + 1 = room d s.kmem) ∨
      room d s.kmem < 1 + (d.tabs ∪ span 0 1).card := hcost
  have hcard : (d.tabs ∪ span 0 1).card ≤ 65 := by
    refine (Finset.card_union_le _ _).trans_eq ?_
    rw [htabs, card_kernelTabs, span_one, Finset.card_singleton]
  obtain ⟨hsize, hroom'⟩ := hcost.resolve_right (by omega)
  have hok : Allowed s (.allocuvm i 0 4096) := Option.isSome_iff_exists.mpr ⟨d, hi⟩
  have hmapped : d'.entry 0 ≠ none := by
    cases halloced.done with
    | inl hdone => exact hdone.2 0 le_rfl (by decide)
    | inr hno => exact absurd (hsize.symm.trans hno.1) (by decide)
  obtain ⟨e, he⟩ := Option.ne_none_iff_exists'.mp hmapped
  have hperm : e.toPerm = ⟨true, true, false⟩ := halloced.grown.inside 0 le_rfl (by decide) e he
  refine ⟨d', k, e, .step hr (e := .allocuvm i 0 4096) ⟨hok, ?_⟩, he, by rw [hperm], hroom'⟩
  show (s.dir i >>= _) = _
  rw [dir_eq hi]
  show (allocuvm counted img d 0 4096 s.kmem >>= _) = _
  rw [hrun]
  rfl

/-- **Memory for a copy**: `copyuvm` succeeds with free pages for the child's page directory and page
    tables. -/
theorem copyuvm_run (hboot : Booted img k₀) {s : State ι} (hr : (system img k₀).Reach s) {i c : ι}
    {d : PgDir} {sz : Nat} (hi : s.dirs i = some d) (hc : s.dirs c = none)
    (hmapped : ∀ v, v < pages sz → d.entry v ≠ none) (hsize : pages sz ≤ userPages)
    (hfree : 65 + (pages sz + 1023) / 1024 ≤ s.kmem.freelist.length) :
    ∃ d' child k, (system img k₀).Reach ((s.setDir i (some d') k).setDir c (some child) k) ∧
      SharedTo d (pages sz) d' ∧ Cow.ChildTo d (pages sz) child ∧
      room child k + 1 = s.kmem.freelist.length := by
  have h := reach_balanced hboot hr
  have hgap := exists_absent (h.proper i d hi).single (h.live hi)
  obtain ⟨⟨child, d', k⟩, hrun, hfork⟩ := (Cow.copyuvm_spec hgap
    (fun v hv hnone => absurd hnone (hmapped v hv)) (h.live hi)).exists_ok
  have hfork : Cow.Forked (Counted.books img _ (boot_valid hboot)) (s.others i) d sz s.kmem child d'
    k := hfork
  obtain ⟨child, rfl⟩ := Option.isSome_iff_exists.mp ((hfork.fits hsize).mpr hfree)
  obtain ⟨-, hshared, hchild, -⟩ := hfork.done child rfl
  have hok : Allowed s (.copyuvm i c sz) := ⟨Option.isSome_iff_exists.mpr ⟨d, hi⟩, hc⟩
  refine ⟨d', child, k, .step hr (e := .copyuvm i c sz) ⟨hok, ?_⟩, hshared, hchild,
    hfork.room_eq child rfl⟩
  show (s.dir i >>= _) = _
  rw [dir_eq hi]
  show (Cow.copyuvm img d sz s.kmem >>= _) = _
  rw [hrun]
  rfl

/-- **Memory for a fault**: with a free page, `handle_pgflt_helper` maps a page that nobody referred
    to. -/
theorem fault_run (hboot : Booted img k₀) {s : State ι} (hr : (system img k₀).Reach s) {i : ι}
    {d : PgDir} {v : Nat} {e : Pte} (hi : s.dirs i = some d) (hv : v < userPages)
    (he : d.entry v = some e) (hu : e.u = true) (hfree : s.kmem.freelist ≠ []) :
    ∃ d' k mem, exec img s (.handlePgfltHelper i v) = .ok (s.setDir i (some d') k) ∧
      (system img k₀).Reach (s.setDir i (some d') k) ∧ (s.others i + d.uses).total mem = 0 ∧
      d'.entry = Function.update d.entry v
        (some { page := mem, p := true, w := true, u := true, cow := false }) := by
  have h := reach_balanced hboot hr
  have husable := (h.proper i d hi).usable v e hv he
  obtain ⟨⟨d', k⟩, hrun, -, mem, hfresh, hentry⟩ :=
    (Cow.handlePgfltHelper_spec hv he hu (fun hno => by
      rcases hno with ⟨hw, hcow⟩ | hempty
      · rw [hw, hcow] at husable
        cases husable <;> contradiction
      · exact hfree hempty) (h.live hi)).exists_ok
  have hexec : exec img s (.handlePgfltHelper i v) = .ok (s.setDir i (some d') k) := by
    rw [exec, dir_eq hi]
    show (Cow.handlePgfltHelper img d v s.kmem >>= _) = _
    rw [hrun]
    rfl
  have hok : Allowed s (.handlePgfltHelper i v) := ⟨d, e, hi, hv, he, hu⟩
  exact ⟨d', k, mem, hexec, .step hr (e := .handlePgfltHelper i v) ⟨hok, hexec⟩, hfresh, hentry⟩

/-- **`deallocuvm`** needs no memory. -/
theorem deallocuvm_run (hboot : Booted img k₀) {s : State ι} (hr : (system img k₀).Reach s) {i : ι}
    {d : PgDir} {oldsz : Nat} (newsz : Nat) (hi : s.dirs i = some d) (hold : oldsz ≤ kernbase) :
    ∃ d' k, (system img k₀).Reach (s.setDir i (some d') k) ∧
      (∀ u, pages newsz ≤ u → u < pages oldsz → d'.entry u = none) ∧
      ∀ u, ¬ (pages newsz ≤ u ∧ u < pages oldsz) → d'.entry u = d.entry u := by
  obtain ⟨⟨r, d', k⟩, hrun, hgone, -⟩ :=
    (deallocuvm_spec hold ((reach_balanced hboot hr).live hi)).exists_ok
  have hrun : deallocuvm counted img d oldsz newsz s.kmem = .ok (r, d', k) := hrun
  have hok : Allowed s (.deallocuvm i oldsz newsz) := ⟨Option.isSome_iff_exists.mpr ⟨d, hi⟩, hold⟩
  refine ⟨d', k, .step hr (e := .deallocuvm i oldsz newsz) ⟨hok, ?_⟩, hgone.inside, hgone.outside⟩
  show (s.dir i >>= _) = _
  rw [dir_eq hi]
  show (deallocuvm counted img d oldsz newsz s.kmem >>= _) = _
  rw [hrun]
  rfl

/-- **Any shortage** can come about: the kernel takes pages for itself. -/
theorem kalloc_run (hboot : Booted img k₀) {m : Nat} : ∀ {n : Nat} {s : State ι},
    (system img k₀).Reach s → s.kmem.freelist.length = m + n →
    ∃ k priv, (system img k₀).Reach { s with kmem := k, priv := priv } ∧
      k.freelist.length = m := by
  intro n
  induction n with
  | zero => exact fun {s} hr hlen => ⟨s.kmem, s.priv, hr, hlen⟩
  | succ n ih =>
    intro s hr hlen
    obtain ⟨⟨r, k⟩, hrun, -, hcost, hzero⟩ :=
      (((Counted.books img _ (boot_valid hboot)).kalloc_spec (reach_balanced hboot hr).acct).and
        kalloc_cost).exists_ok
    have hrun : Counted.kalloc s.kmem = .ok (r, k) := hrun
    cases r with
    | none =>
      have hzero : s.kmem.freelist.length = 0 := hzero rfl
      omega
    | some p =>
      have hcost : k.freelist.length + 1 = s.kmem.freelist.length := hcost
      refine ih (s := { s with kmem := k, priv := insert p s.priv })
        (.step hr (e := .kalloc) ⟨trivial, ?_⟩) (by show k.freelist.length = _; omega)
      show (Counted.kalloc s.kmem >>= _) = _
      rw [hrun]
      rfl

/-- **One page**, of a single process, with as few free pages as one likes. -/
theorem one_page (i : ι) {m : Nat} (hm : m ≤ 55000) : ∃ (k₀ : Kmem) (s : State ι) (d : PgDir),
    Booted bootImage k₀ ∧ (system bootImage k₀).Reach s ∧ s.dirs i = some d ∧
    (∃ e, d.entry 0 = some e ∧ e.u = true) ∧ (∀ j, j ≠ i → s.dirs j = none) ∧
    k₀.freelist.length = 56832 ∧ s.kmem.freelist.length = m := by
  obtain ⟨k₀, hboot, hlen⟩ := boot_exists bootImage (by decide)
  have hlen : k₀.freelist.length = 56832 := hlen
  let s₀ : State ι := ⟨k₀, fun _ => none, ∅⟩
  have hself : ∀ (s : State ι) x k, (s.setDir i x k).dirs i = x := fun s x k =>
    Function.update_self _ _ _
  obtain ⟨d, k, hr, htabs, hroom⟩ := setupkvm_run (s := s₀) hboot (.start rfl) (i := i) rfl (by
    show 65 ≤ k₀.freelist.length
    omega)
  have hroom : room d k + 1 = k₀.freelist.length := hroom
  obtain ⟨d', k', e, hr', he, hu, hroom'⟩ := allocuvm_run hboot hr (hself s₀ _ k) htabs (by
    show 66 ≤ room d k
    omega)
  have hroom' : k'.freelist.length + d'.tabs.card + 1 = room d k := hroom'
  have htabs' := tabs_card_le d'
  obtain ⟨k₁, priv, hr₁, hlen₁⟩ := kalloc_run hboot (m := m) (n := k'.freelist.length - m) hr' (by
    show k'.freelist.length = _
    omega)
  refine ⟨k₀, _, d', hboot, hr₁, hself _ _ k', ⟨e, he, hu⟩, fun j hj => ?_, hlen, hlen₁⟩
  show Function.update (Function.update (fun _ => none) i (some d)) i (some d') j = none
  rw [Function.update_of_ne hj, Function.update_of_ne hj]

end Runs

/-! ## A shared page -/

/-- A page that a directory maps is mapped there once. -/
theorem mapped_eq_one {d : PgDir} {v : Nat} {e : Pte} (hd : Proper d) (hv : v < userPages)
    (he : d.entry v = some e) : mapped (some d) e.page = 1 :=
  Nat.le_antisymm (hd.single e.page) (uses_shared_pos hv he)

theorem mapped_eq_zero {d : PgDir} {p : Nat}
    (h : ∀ u e, u < userPages → d.entry u = some e → e.page ≠ p) : mapped (some d) p = 0 :=
  hits_eq_zero fun u hu hq => by
    obtain ⟨e, he, hpage⟩ := Option.map_eq_some_iff.mp hq
    exact h u e (Finset.mem_Iio.mp hu) he hpage

/-- The page of one address is mapped nowhere else. -/
theorem Proper.apart {d : PgDir} {u v : Nat} {e x : Pte} (hd : Proper d) (hu : u < userPages)
    (hv : v < userPages) (huv : u ≠ v) (he : d.entry v = some e) (hx : d.entry u = some x) :
    x.page ≠ e.page := by
  intro hpage
  have hxt : d.target u = some x.page := congrArg (Option.map Pte.page) hx
  have het : d.target v = some x.page := by
    rw [hpage]
    exact congrArg (Option.map Pte.page) he
  have htwo := hits_two huv (Finset.mem_Iio.mpr hu) (Finset.mem_Iio.mpr hv) hxt het
  exact absurd (hd.single x.page) (Nat.not_le_of_lt htwo)

/-- The mappings of two places. -/
theorem mappings_two (s : State Bool) (p : Nat) :
    s.mappings p = mapped (s.dirs true) p + mapped (s.dirs false) p := by
  rw [State.mappings, Fintype.univ_bool, Finset.sum_pair (by decide)]

/-- A process of one page and the copy that `copyuvm` has made of it, with free pages left. -/
theorem shared_page : ∃ (k₀ : Kmem) (s : State Bool) (d c : PgDir) (e : Pte),
    Booted bootImage k₀ ∧ k₀.freelist.length = 56832 ∧ (system bootImage k₀).Reach s ∧
    s.dirs false = some d ∧ s.dirs true = some c ∧ d.entry 0 = some e ∧ c.entry 0 = some e ∧
    e.u = true ∧ (∀ u, u < userPages → u ≠ 0 → c.entry u = none) ∧ s.kmem.freelist ≠ [] := by
  obtain ⟨k₀, s₀, d₀, hboot, hr₀, hd₀, ⟨e, he₀, hu⟩, hnone, hlen₀, hlen⟩ :=
    one_page false (show 2000 ≤ 55000 by decide)
  have hone : pages 4096 = 1 := by decide
  have hmapped : ∀ v, v < pages 4096 → d₀.entry v ≠ none := by
    intro v hv hno
    rw [hone, Nat.lt_one_iff] at hv
    rw [hv, he₀] at hno
    cases hno
  obtain ⟨d, c, k, hr, hshared, hchild, hroom⟩ := copyuvm_run hboot hr₀ hd₀
    (hnone true (by decide)) hmapped (by decide) (by rw [hone, hlen]; decide)
  rw [hone] at hshared hchild
  refine ⟨k₀, _, d, c, e.share, hboot, hlen₀, hr, rfl, rfl, ?_, ?_, hu, fun u hlt hne => ?_,
    fun hempty => ?_⟩
  · rw [hshared.entry_eq, if_pos Nat.one_pos, he₀]
    rfl
  · rw [hchild 0 (by decide), if_pos Nat.one_pos, he₀]
    rfl
  · rw [hchild u hlt, if_neg (by omega)]
  · have hle := tabs_card_le c
    have hempty : k.freelist = [] := hempty
    rw [room, hempty, hlen, List.length_nil] at hroom
    omega

/-- A page that `copyuvm` shares has count 2, and count 1 when the child has written to its copy, or
    the parent has shrunk. -/
theorem refcounts_exact_shared : ∃ (k₀ : Kmem) (s s₁ s₂ : State Bool) (p : Nat),
    (system bootImage k₀).Reach s ∧ s.mappings p = 2 ∧ s.kmem.count p = 2 ∧
    (system bootImage k₀).Reach s₁ ∧ s₁.mappings p = 1 ∧ s₁.kmem.count p = 1 ∧
    (system bootImage k₀).Reach s₂ ∧ s₂.mappings p = 1 ∧ s₂.kmem.count p = 1 ∧
    NumFreePages s₂.kmem + s₂.allocated k₀.freelist = 56832 := by
  obtain ⟨k₀, s, d, c, e, hboot, hlen, hr, hsd, hsc, hd, hc, hu, hrest, hfree⟩ := shared_page
  have hbal := reach_balanced hboot hr
  have hproper := hbal.proper false d hsd
  have hzero : 0 < userPages := by decide
  have hmd : mapped (some d) e.page = 1 := mapped_eq_one hproper hzero hd
  have hmc : mapped (some c) e.page = 1 := mapped_eq_one (hbal.proper true c hsc) hzero hc
  have hmap : s.mappings e.page = 2 := by rw [mappings_two, hsc, hsd, hmc, hmd]
  have hpool : e.page ∈ k₀.freelist := by
    have hpos : 0 < s.refs.total e.page := by
      rw [Refs.total, refs_shared, hmap]
      omega
    exact List.mem_toFinset.mp (hbal.acct.ledger.used _ hpos)
  -- the child writes
  obtain ⟨c', k', mem, -, hr₁, hfresh, hc'⟩ := fault_run hboot hr hsc hzero hc hu hfree
  have hmc' : mapped (some c') e.page = 0 := by
    refine mapped_eq_zero fun u x hux hx => ?_
    rw [hc'] at hx
    by_cases hu0 : u = 0
    · rw [hu0, Function.update_self] at hx
      rw [← Option.some.inj hx]
      rintro rfl
      have hpos := uses_pos hzero hc
      rw [Refs.total_add] at hfresh
      omega
    · rw [Function.update_of_ne hu0, hrest u hux hu0] at hx
      cases hx
  have hmap₁ : (s.setDir true (some c') k').mappings e.page = 1 := by
    rw [mappings_two]
    show mapped (some c') e.page + mapped (s.dirs false) e.page = 1
    rw [hsd, hmc', hmd]
  -- the parent shrinks
  obtain ⟨d', k'', hr₂, hin, hout⟩ :=
    deallocuvm_run hboot hr 0 hsd (show 4096 ≤ kernbase by decide)
  have hmd' : mapped (some d') e.page = 0 := by
    refine mapped_eq_zero fun u x hux hx => ?_
    by_cases hu0 : u = 0
    · rw [hu0, hin 0 (by decide) (by decide)] at hx
      cases hx
    · have hone : pages 4096 = 1 := by decide
      rw [hout u (by omega)] at hx
      exact hproper.apart hux hzero hu0 hd hx
  have hmap₂ : (s.setDir false (some d') k'').mappings e.page = 1 := by
    rw [mappings_two]
    show mapped (s.dirs true) e.page + mapped (some d') e.page = 1
    rw [hsc, hmc, hmd']
  -- a page that is mapped is not the kernel's own
  have hshared : ∀ {s : State Bool} {n : Nat}, 0 < n → s.mappings e.page = n →
      ((s.Holds e.page ∧ s.kmem.count e.page = 1 ∧ s.mappings e.page = 0) ∨
        (¬ s.Holds e.page ∧ s.kmem.count e.page = s.mappings e.page)) →
      s.kmem.count e.page = n := by
    intro s n hn hmap hor
    rcases hor with ⟨-, -, hno⟩ | ⟨-, hcount⟩
    · omega
    · rw [hcount, hmap]
  obtain ⟨hcount, -⟩ := refcounts_exact hboot hr
  obtain ⟨hcount₁, -⟩ := refcounts_exact hboot hr₁
  obtain ⟨hcount₂, -, -, -, hsum, -⟩ := refcounts_exact hboot hr₂
  exact ⟨k₀, s, _, _, e.page, hr, hmap, hshared Nat.two_pos hmap (hcount _ hpool), hr₁, hmap₁,
    hshared Nat.one_pos hmap₁ (hcount₁ _ hpool), hr₂, hmap₂,
    hshared Nat.one_pos hmap₂ (hcount₂ _ hpool), by rw [hsum, hlen]⟩

end OsCodes.Paging.Counts
