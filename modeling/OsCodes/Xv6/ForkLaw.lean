/-
  Copy-on-write fork refines eager copying.

  `Rel` relates a kernel to what its processes see: the accounts are right for the references of
  all processes together, and every process holds its memory.  A call on one process is a step of
  that process beside the references of the others (`Rel.setProc`), so each call needs one lemma
  about one process.  The argument knows of `copyuvm` only that it meets its contract, so it covers
  both versions at once: each returns what the processes see, and so both return the same.

  The lemmas for the calls are `load_spec`, `store_spec`, `growproc_spec` and `Rel.fork`; `total`
  and `others` split the references of all slots into those of one and those of the rest, which is
  what the frame of `UserMem` is applied to.  `exec_spec` puts the calls together: a call returns
  what the processes see and keeps `Rel`, unless `kalloc` has no page.
-/
import Mathlib.Algebra.BigOperators.Group.Finset.Basic
import Mathlib.Algebra.Order.BigOperators.Group.Finset
import OsCodes.Xv6.Proc

namespace OsCodes.Xv6

/-! ## Loads and stores -/

section Access

variable {img : Image} {R T : Nat → Nat} {d : PgDir} {sz a : Nat} {c : Nat → Page} {k : Kmem}

theorem userPte_eq_ok {v : Nat} {write : Bool} {pte : Pte} : userPte d v write = .ok pte ↔
    d.entry v = some pte ∧ pte.u = true ∧ (pte.w = true ∨ write = false) := by
  rw [entry_eq_some, userPte]
  cases walkpgdir d v with
  | none => exact ⟨fun h => (by cases h), fun h => (by cases h.1.1)⟩
  | some e =>
    have hok : (e.p && e.u && (e.w || !write)) = true ↔
        e.p = true ∧ e.u = true ∧ (e.w = true ∨ write = false) := by
      rw [Bool.and_eq_true, Bool.and_eq_true, Bool.or_eq_true, Bool.not_eq_true', and_assoc]
    by_cases h : (e.p && e.u && (e.w || !write)) = true
    · simp only [h, if_true, Except.ok.injEq, Option.some.injEq]
      refine ⟨fun heq => ?_, fun heq => heq.1.1⟩
      subst heq
      obtain ⟨hp, hrest⟩ := hok.mp h
      exact ⟨⟨rfl, hp⟩, hrest⟩
    · simp only [if_neg h, Option.some.injEq]
      refine ⟨fun heq => (by cases heq), fun ⟨⟨heq, hp⟩, hrest⟩ => ?_⟩
      subst heq
      exact absurd (hok.mpr ⟨hp, hrest⟩) h

/-- **A load** below the size returns what the process sees. -/
theorem load_spec (hold : Holds T k.mem d sz c) (ha : a < sz) :
    load d a k = .ok (c (a / pgsize) (a % pgsize)) := by
  obtain ⟨e, he, hpage⟩ := hold.mapped _ (page_lt_pages ha)
  have hpte : userPte d (a / pgsize) false = .ok e := userPte_eq_ok.mpr ⟨he, hpage.u, .inr rfl⟩
  rw [load, hpte]
  show Except.ok (k.mem e.page (a % pgsize)) = _
  rw [hpage.content]

theorem Frame.trans {T₁ T₂ : Nat → Nat} {mem mem₁ mem₂ : Nat → Page} (h : Frame R T mem T₁ mem₁)
    (h' : Frame R T₁ mem₁ T₂ mem₂) : Frame R T mem T₂ mem₂ := by
  intro q hq
  obtain ⟨hmem, hsole⟩ := h q hq
  obtain ⟨hmem', hsole'⟩ := h' q hq
  exact ⟨hmem'.trans hmem, fun hone => hsole' (hsole hone)⟩

/-- The store itself. -/
theorem write_spec {e : Pte} {b : UInt8} (ha : a < sz)
    (hpte : userPte d (a / pgsize) true = .ok e)
    (hold : Holds (fun q => R q + d.refs q) k.mem d sz c) :
    Holds (fun q => R q + d.refs q) (k.store e.page a b).mem d sz (Spec.storeMem c a b) ∧
      Frame R (fun q => R q + d.refs q) k.mem (fun q => R q + d.refs q)
        (k.store e.page a b).mem := by
  obtain ⟨he, -, hw⟩ := userPte_eq_ok.mp hpte
  have hw : e.w = true := hw.resolve_right (by decide)
  obtain ⟨e', he', hpage⟩ := hold.mapped _ (page_lt_pages ha)
  obtain rfl := Option.some.inj (he'.symm.trans he)
  have hstore := hold.store (page_lt_pages ha) he hw ((c (a / pgsize)).set a b)
  rw [← hpage.content] at hstore
  rw [Spec.storeMem, ← hpage.content]
  exact hstore

/-- **A store** below the size changes what this process sees, and nothing else. -/
theorem store_spec {b : UInt8} (ha : a < sz) (h : Acct img k fun q => R q + d.refs q)
    (hold : Holds (fun q => R q + d.refs q) k.mem d sz c) :
    Returns .noMemory (store img d a b k) fun r =>
      Acct img r.2 (fun q => R q + r.1.refs q) ∧
      Holds (fun q => R q + r.1.refs q) r.2.mem r.1 sz (Spec.storeMem c a b) ∧
      Frame R (fun q => R q + d.refs q) k.mem (fun q => R q + r.1.refs q) r.2.mem := by
  rw [store]
  cases hpte : userPte d (a / pgsize) true with
  | ok e =>
    obtain ⟨hold', hframe⟩ := write_spec (b := b) ha hpte hold
    exact .ok ⟨h.setMem _, hold', hframe⟩
  | error f =>
    apply (fault_spec (page_lt_pages ha) h hold).bind
    rintro ⟨d₁, k₁⟩ ⟨hacct, hold₁, ⟨e, he, hu, hw⟩, hframe⟩
    have hpte₁ : userPte d₁ (a / pgsize) true = .ok e := userPte_eq_ok.mpr ⟨he, hu, .inl hw⟩
    obtain ⟨hold', hframe'⟩ := write_spec (b := b) ha hpte₁ hold₁
    simp only [hpte₁]
    exact .ok ⟨hacct.setMem _, hold', hframe.trans hframe'⟩

/-! ## Growing and shrinking -/

/-- **`growproc`** to a positive size does what the process expects. -/
theorem growproc_spec {x : Proc} {n : Int} (hpos : uint (x.sz + n) ≠ 0)
    (h : Acct img k fun q => R q + x.pgdir.refs q)
    (hold : Holds (fun q => R q + x.pgdir.refs q) k.mem x.pgdir x.sz c) :
    Returns .noMemory (growproc img x n k) fun r =>
      r.1 = (Spec.growproc ⟨x.sz, c⟩ n).1 ∧
      r.2.1.sz = (Spec.growproc ⟨x.sz, c⟩ n).2.sz ∧
      Acct img r.2.2 (fun q => R q + r.2.1.pgdir.refs q) ∧
      Holds (fun q => R q + r.2.1.pgdir.refs q) r.2.2.mem r.2.1.pgdir r.2.1.sz
        (Spec.growproc ⟨x.sz, c⟩ n).2.mem ∧
      Frame R (fun q => R q + x.pgdir.refs q) k.mem (fun q => R q + r.2.1.pgdir.refs q)
        r.2.2.mem := by
  have hsame : Frame R (fun q => R q + x.pgdir.refs q) k.mem (fun q => R q + x.pgdir.refs q)
      k.mem := fun q _ => ⟨rfl, id⟩
  rw [growproc, Spec.growproc]
  generalize uint (x.sz + n) = newsz at hpos ⊢
  by_cases hgrow : 0 < n
  · rw [if_pos hgrow, if_pos hgrow]
    by_cases hbig : kernbase ≤ newsz
    · rw [if_pos hbig, allocuvm, if_pos hbig]
      exact .ok ⟨rfl, rfl, h, hold, hsame⟩
    · rw [if_neg hbig]
      by_cases hwrap : newsz < x.sz
      · rw [if_pos hwrap, allocuvm, if_neg hbig, if_pos hwrap]
        have hsz : x.sz ≠ 0 := by omega
        show Returns _ (if x.sz = 0 then _ else _) _
        rw [if_neg hsz]
        exact .ok ⟨rfl, rfl, h, hold, hsame⟩
      · rw [if_neg hwrap]
        apply (grow_spec (by omega) (by omega) h hold).bind
        rintro ⟨sz', d', k'⟩ ⟨hsz, hacct, hold', hframe⟩
        obtain rfl : sz' = newsz := hsz
        show Returns _ (if sz' = 0 then _ else _) _
        rw [if_neg hpos]
        exact .ok ⟨rfl, rfl, hacct, hold', hframe⟩
  · rw [if_neg hgrow, if_neg hgrow]
    by_cases hshrink : n < 0
    · rw [if_pos hshrink, if_pos hshrink]
      by_cases hzero : x.sz = 0
      · rw [if_pos hzero, deallocuvm, if_pos (by omega)]
        show Returns _ (if x.sz = 0 then _ else _) _
        rw [if_pos hzero]
        exact .ok ⟨rfl, rfl, h, hold, hsame⟩
      · rw [if_neg hzero]
        by_cases hwrap : x.sz ≤ newsz
        · rw [if_pos hwrap, deallocuvm, if_pos hwrap]
          show Returns _ (if x.sz = 0 then _ else _) _
          rw [if_neg hzero]
          exact .ok ⟨rfl, rfl, h, hold, hsame⟩
        · rw [if_neg hwrap]
          apply (shrink_spec (by omega) h hold).bind
          rintro ⟨sz', d', k'⟩ ⟨hsz, hacct, hold', hframe⟩
          obtain rfl : sz' = newsz := hsz
          show Returns _ (if sz' = 0 then _ else _) _
          rw [if_neg hpos]
          exact .ok ⟨rfl, rfl, hacct, hold', hframe⟩
    · rw [if_neg hshrink, if_neg hshrink]
      exact .ok ⟨rfl, rfl, h, hold, hsame⟩

end Access

/-! ## References of all processes -/

section Total

variable {π : Type}

/-- The references of one slot. -/
def share (x : Option Proc) (q : Nat) : Nat :=
  match x with
  | none => 0
  | some x => x.pgdir.refs q

variable [Fintype π] [DecidableEq π]

/-- The references of all slots. -/
def total (procs : π → Option Proc) (q : Nat) : Nat :=
  Finset.univ.sum fun p => share (procs p) q

/-- The references of all slots but `p`. -/
def others (procs : π → Option Proc) (p : π) (q : Nat) : Nat :=
  (Finset.univ.erase p).sum fun a => share (procs a) q

variable {procs : π → Option Proc} {p : π}

theorem total_eq (procs : π → Option Proc) (p : π) (q : Nat) :
    total procs q = others procs p q + share (procs p) q :=
  (Finset.sum_erase_add _ _ (Finset.mem_univ p)).symm

theorem others_update (x : Option Proc) (q : Nat) :
    others (Function.update procs p x) p q = others procs p q :=
  Finset.sum_congr rfl fun a ha => by rw [Function.update_of_ne (Finset.ne_of_mem_erase ha)]

/-- The references after one slot changes. -/
theorem total_update (x : Option Proc) (q : Nat) :
    total (Function.update procs p x) q = others procs p q + share x q := by
  rw [total_eq _ p, others_update, Function.update_self]

/-- The references of all slots, beside those of the process in slot `p`. -/
theorem total_live {x : Proc} (hp : procs p = some x) :
    total procs = fun q => others procs p q + x.pgdir.refs q := by
  funext q
  rw [total_eq procs p q, hp]
  rfl

theorem share_le_others {a : π} (ha : a ≠ p) (q : Nat) : share (procs a) q ≤ others procs p q :=
  Finset.single_le_sum (f := fun a => share (procs a) q) (fun _ _ => Nat.zero_le _)
    (Finset.mem_erase.mpr ⟨ha, Finset.mem_univ a⟩)

end Total

/-! ## Kernels and what their processes see -/

/-- A slot and what is seen of it. -/
inductive Sees (T : Nat → Nat) (mem : Nat → Page) : Option Proc → Option Spec.Proc → Prop
  | none : Sees T mem none none
  | some {x : Proc} {c : Nat → Page} :
      Holds T mem x.pgdir x.sz c → Sees T mem (some x) (some ⟨x.sz, c⟩)

section Rel

variable {π : Type} [Fintype π] {img : Image}

/-- The processes of `s` see `v`. -/
structure Rel (img : Image) (s : State π) (v : Spec.State π) : Prop where
  acct : Acct img s.kmem (total s.procs)
  sees : ∀ p, Sees (total s.procs) s.kmem.mem (s.procs p) (v p)

variable {s : State π} {v : Spec.State π} {p : π} {x : Proc}

/-- The sizes are what the processes see. -/
theorem Rel.sz_eq (h : Rel img s v) (p : π) : s.sz p = (v p).map Spec.Proc.sz := by
  have hsees := h.sees p
  rw [State.sz]
  generalize s.procs p = x at hsees ⊢
  generalize v p = y at hsees ⊢
  cases hsees with
  | none => rfl
  | some hold => rfl

variable [DecidableEq π]

/-- A process, its memory, and the references of the others. -/
theorem Rel.live (h : Rel img s v) (hp : s.procs p = some x) :
    ∃ c, v p = some ⟨x.sz, c⟩ ∧
      Acct img s.kmem (fun q => others s.procs p q + x.pgdir.refs q) ∧
      Holds (fun q => others s.procs p q + x.pgdir.refs q) s.kmem.mem x.pgdir x.sz c := by
  have htotal : ∀ q, others s.procs p q + x.pgdir.refs q = total s.procs q := fun q => by
    rw [total_live hp]
  have hsees := h.sees p
  rw [hp] at hsees
  generalize hv : v p = y at hsees
  cases hsees with
  | some hold => exact ⟨_, rfl, h.acct.congr htotal, hold.congr htotal⟩

/-- **The other processes** see no change, as long as the frame is kept. -/
theorem Rel.other (h : Rel img s v) {T' : Nat → Nat} {mem' : Nat → Page}
    (hframe : Frame (others s.procs p) (total s.procs) s.kmem.mem T' mem') {a : π} (ha : a ≠ p) :
    Sees T' mem' (s.procs a) (v a) := by
  have hshare : ∀ q, share (s.procs a) q ≤ others s.procs p q := share_le_others ha
  have hsees := h.sees a
  generalize s.procs a = x at hsees hshare ⊢
  generalize v a = y at hsees ⊢
  cases hsees with
  | none => exact .none
  | some hold => exact .some (hold.frame hframe hshare)

/-- **A step of one slot** beside the others. -/
theorem Rel.setProc {x' : Option Proc} {y' : Option Spec.Proc} {k' : Kmem} (h : Rel img s v)
    (hacct : Acct img k' fun q => others s.procs p q + share x' q)
    (hsees : Sees (fun q => others s.procs p q + share x' q) k'.mem x' y')
    (hframe : Frame (others s.procs p) (total s.procs) s.kmem.mem
      (fun q => others s.procs p q + share x' q) k'.mem) :
    Rel img (s.setProc p x' k') (Function.update v p y') := by
  have htotal : total (s.setProc p x' k').procs = fun q => others s.procs p q + share x' q :=
    funext fun q => total_update x' q
  refine ⟨by rw [htotal]; exact hacct, fun a => ?_⟩
  rw [htotal]
  show Sees _ k'.mem (Function.update s.procs p x' a) (Function.update v p y' a)
  by_cases ha : a = p
  · rw [ha, Function.update_self, Function.update_self]
    exact hsees
  · rw [Function.update_of_ne ha, Function.update_of_ne ha]
    exact h.other hframe ha

/-! ## One call -/

/-- **A fork** fills a free slot with a process that sees what the parent sees. -/
theorem Rel.fork {copyuvm : Copyuvm} (hcopy : copyuvm.Copies) {c : π} (h : Rel img s v)
    (hp : s.procs p = some x) (hc : s.procs c = none) :
    Returns .noMemory (exec copyuvm img s (.fork p c)) fun r =>
      r.1 = (Spec.exec v (.fork p c)).1 ∧ Rel img r.2 (Spec.exec v (.fork p c)).2 := by
  obtain ⟨m, hv, hacct, hold⟩ := h.live hp
  have hpc : p ≠ c := by
    intro heq
    rw [heq, hc] at hp
    cases hp
  simp only [exec, hp, Spec.exec]
  apply (hcopy hacct hold).bind
  rintro ⟨d, child, k⟩ ⟨hacct', hparent, hchild, hframe⟩
  refine .ok ⟨rfl, ?_⟩
  -- the references of all slots, with the child's beside the parent's
  generalize hs' : (s.setProc p (some ⟨x.sz, d⟩) k).setProc c (some ⟨x.sz, child⟩) k = s'
  have hprocs : s'.procs =
      Function.update (Function.update s.procs p (some ⟨x.sz, d⟩)) c (some ⟨x.sz, child⟩) := by
    rw [← hs']
    rfl
  have hkmem : s'.kmem = k := by
    rw [← hs']
    rfl
  have htotal : total s'.procs = fun q => others s.procs p q + d.refs q + child.refs q := by
    funext q
    have hfree := total_eq (Function.update s.procs p (some ⟨x.sz, d⟩)) c q
    rw [Function.update_of_ne hpc.symm, hc, total_update] at hfree
    have hfree : others s.procs p q + d.refs q =
        others (Function.update s.procs p (some ⟨x.sz, d⟩)) c q := hfree
    rw [hprocs, total_update, ← hfree]
    rfl
  rw [← total_live hp] at hframe
  refine ⟨by rw [htotal, hkmem]; exact hacct', fun a => ?_⟩
  rw [htotal, hkmem, hprocs]
  by_cases hac : a = c
  · rw [hac, Function.update_self, Function.update_self, hv]
    exact .some hchild
  · rw [Function.update_of_ne hac, Function.update_of_ne hac]
    by_cases hap : a = p
    · rw [hap, Function.update_self, hv]
      exact .some hparent
    · rw [Function.update_of_ne hap]
      exact h.other hframe hap

theorem Rel.load {copyuvm : Copyuvm} {a : Nat} (h : Rel img s v) (hp : s.procs p = some x)
    (ha : a < x.sz) :
    Returns .noMemory (exec copyuvm img s (.load p a)) fun r =>
      r.1 = (Spec.exec v (.load p a)).1 ∧ Rel img r.2 (Spec.exec v (.load p a)).2 := by
  obtain ⟨m, hv, -, hold⟩ := h.live hp
  simp only [exec, hp, load_spec hold ha, Spec.exec, hv]
  exact .ok ⟨rfl, h⟩

/-- The frame in terms of all references. -/
theorem Frame.of_total {T' : Nat → Nat} {mem' : Nat → Page} (hp : s.procs p = some x)
    (hframe : Frame (others s.procs p) (fun q => others s.procs p q + x.pgdir.refs q) s.kmem.mem
      T' mem') : Frame (others s.procs p) (total s.procs) s.kmem.mem T' mem' := by
  rw [total_live hp]
  exact hframe

theorem Rel.store {copyuvm : Copyuvm} {a : Nat} {b : UInt8} (h : Rel img s v)
    (hp : s.procs p = some x) (ha : a < x.sz) :
    Returns .noMemory (exec copyuvm img s (.store p a b)) fun r =>
      r.1 = (Spec.exec v (.store p a b)).1 ∧ Rel img r.2 (Spec.exec v (.store p a b)).2 := by
  obtain ⟨m, hv, hacct, hold⟩ := h.live hp
  simp only [exec, hp, Spec.exec, hv]
  apply (store_spec ha hacct hold).bind
  rintro ⟨d, k⟩ ⟨hacct', hold', hframe⟩
  exact .ok ⟨rfl, h.setProc hacct' (.some hold') (hframe.of_total hp)⟩

theorem Rel.growproc {copyuvm : Copyuvm} {n : Int} (h : Rel img s v) (hp : s.procs p = some x)
    (hpos : uint (x.sz + n) ≠ 0) :
    Returns .noMemory (exec copyuvm img s (.growproc p n)) fun r =>
      r.1 = (Spec.exec v (.growproc p n)).1 ∧ Rel img r.2 (Spec.exec v (.growproc p n)).2 := by
  obtain ⟨m, hv, hacct, hold⟩ := h.live hp
  simp only [exec, hp, Spec.exec, hv]
  apply (growproc_spec hpos hacct hold).bind
  rintro ⟨r, x', k⟩ ⟨hr, hsz, hacct', hold', hframe⟩
  refine .ok ⟨congrArg Ret.int hr, h.setProc hacct' ?_ (hframe.of_total hp)⟩
  have hsees := Sees.some hold'
  rw [hsz] at hsees
  exact hsees

theorem Rel.freevm {copyuvm : Copyuvm} (h : Rel img s v) (hp : s.procs p = some x) :
    Returns .noMemory (exec copyuvm img s (.freevm p)) fun r =>
      r.1 = (Spec.exec v (.freevm p)).1 ∧ Rel img r.2 (Spec.exec v (.freevm p)).2 := by
  obtain ⟨m, hv, hacct, hold⟩ := h.live hp
  simp only [exec, hp, Spec.exec]
  apply (freevm_spec hacct).bind
  rintro k ⟨hacct', hmem⟩
  refine .ok ⟨rfl, h.setProc hacct' .none (Frame.of_total hp fun q hq => ⟨hmem q hq, ?_⟩)⟩
  intro hone
  have hone : others s.procs p q + x.pgdir.refs q = 1 := hone
  show others s.procs p q = 1
  omega

/-- **One call**: it returns what the processes see, unless `kalloc` has no page. -/
theorem exec_spec {copyuvm : Copyuvm} (hcopy : copyuvm.Copies) {call : Call π} (h : Rel img s v)
    (hallow : Allowed s.sz call) :
    Returns .noMemory (exec copyuvm img s call) fun r =>
      r.1 = (Spec.exec v call).1 ∧ Rel img r.2 (Spec.exec v call).2 := by
  cases call with
  | fork p c =>
    obtain ⟨hp, hc⟩ := hallow
    rw [State.sz, Option.isSome_map, Option.isSome_iff_exists] at hp
    rw [State.sz, Option.map_eq_none_iff] at hc
    obtain ⟨x, hp⟩ := hp
    exact h.fork hcopy hp hc
  | load p a =>
    obtain ⟨n, hn, ha⟩ := hallow
    obtain ⟨x, hp, rfl⟩ := Option.map_eq_some_iff.mp hn
    exact h.load hp ha
  | store p a b =>
    obtain ⟨n, hn, ha⟩ := hallow
    obtain ⟨x, hp, rfl⟩ := Option.map_eq_some_iff.mp hn
    exact h.store hp ha
  | growproc p n =>
    obtain ⟨m, hm, hpos⟩ := hallow
    obtain ⟨x, hp, rfl⟩ := Option.map_eq_some_iff.mp hm
    exact h.growproc hp hpos
  | freevm p =>
    have hp : (s.sz p).isSome := hallow
    rw [State.sz, Option.isSome_map, Option.isSome_iff_exists] at hp
    obtain ⟨x, hp⟩ := hp
    exact h.freevm hp

end Rel

end OsCodes.Xv6
