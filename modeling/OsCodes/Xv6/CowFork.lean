/-
  Runs of the kernel with copy-on-write fork.

  From a start state the processes see their own view, and by `exec_spec` every call returns what
  they see; so a run with either `copyuvm` returns what `Spec` says, and the two agree.

  The statement is about runs with enough memory, and `run_exists` shows that there are such runs
  for any calls, so that it is not empty.  Its last part is about sharing: a user page that may be
  written has one reference (`Rel.writable`), which is what makes copy-on-write invisible.  The
  computed run has a `fork`, a store by the child, and loads by both.
-/
import OsCodes.Xv6.ForkLaw
import OsCodes.Xv6.Spare

namespace OsCodes.Xv6

variable {π : Type} [DecidableEq π] {img : Image} {p₀ : π} {sz : Nat}

/-! ## The start -/

/-- A directory keeps its entries when the contents of memory change. -/
theorem Holds.setMem {T : Nat → Nat} {mem mem' : Nat → Page} {d : PgDir} {c : Nat → Page}
    (h : Holds T mem d sz c) : Holds T mem' d sz fun v =>
      match d.entry v with
      | none => fun _ => 0
      | some pte => mem' pte.page := by
  refine ⟨h.sz_lt, h.unmapped, fun v hv => ?_⟩
  obtain ⟨e, he, hpage⟩ := h.mapped v hv
  refine ⟨e, he, hpage.u, hpage.usable, hpage.sole, ?_⟩
  simp only [he]

/-- **Enough memory** for a start: one process, with anything in memory. -/
theorem start_exists (p₀ : π) {k : Kmem} {m : Nat} (hacct : Acct img k fun _ => 0)
    (hsz : sz < kernbase) (mem : Nat → Page) (hlen : 1025 + (pages sz + m) ≤ k.freelist.length) :
    ∃ (d : PgDir) (k' : Kmem), Start img p₀ sz
        ⟨{ k' with mem := mem }, Function.update (fun _ => none) p₀ (some ⟨sz, d⟩)⟩ ∧
      m ≤ k'.freelist.length := by
  obtain ⟨⟨d, k₁⟩, hsetup, hspare, hacct₁, hempty, -, -⟩ :=
    (setupkvm_avoids hlen).exists_ok (setupkvm_spec hacct)
  have hspare : Spare d k₁ (pages sz - pages 0 + m) := hspare
  obtain ⟨⟨sz', d₁, k₂⟩, halloc, hleft, rfl, -⟩ := (allocuvm_avoids hspare).exists_ok
    (grow_spec (c := fun _ _ => 0) hsz (Nat.zero_le sz) hacct₁ (.empty hempty))
  exact ⟨d₁, k₂, ⟨k, k₁, k₂, d, d₁, mem, hacct, hsetup, halloc, rfl⟩, hleft⟩

variable [Fintype π]

/-- **At the start** the processes see what they have. -/
theorem start_rel {s : State π} (h : Start img p₀ sz s) : Rel img s s.view := by
  obtain ⟨k, k₁, k₂, d, d₁, mem, hacct, hsetup, halloc, rfl⟩ := h
  obtain ⟨hacct₁, hempty, -, -⟩ := (setupkvm_spec hacct).of_ok hsetup
  have hsz : sz < kernbase := by
    by_contra hbig
    rw [allocuvm, if_pos (Nat.le_of_not_lt hbig)] at halloc
    have hzero : 0 = sz := congrArg Prod.fst (Except.ok.inj halloc)
    rw [← hzero] at hbig
    exact hbig (by decide)
  obtain ⟨-, hacct₂, hold, -⟩ := (grow_spec (c := fun _ _ => 0) hsz (Nat.zero_le sz) hacct₁
    (.empty hempty)).of_ok halloc
  have htotal : ∀ q, total (Function.update (fun _ : π => none) p₀ (some ⟨sz, d₁⟩)) q =
      0 + d₁.refs q := by
    intro q
    have hnone : others (fun _ : π => (none : Option Proc)) p₀ q = 0 :=
      Finset.sum_eq_zero fun _ _ => rfl
    rw [total_update, hnone]
    rfl
  refine ⟨(hacct₂.setMem mem).congr htotal, fun p => ?_⟩
  show Sees _ mem (Function.update (fun _ : π => none) p₀ (some (Proc.mk sz d₁)) p)
    ((Function.update (fun _ : π => none) p₀ (some (Proc.mk sz d₁)) p).map _)
  by_cases hp : p = p₀
  · rw [hp, Function.update_self]
    exact .some (hold.setMem.congr htotal)
  · rw [Function.update_of_ne hp]
    exact .none

/-! ## Runs -/

/-- The calls of a run. -/
def calls (trs : List (State π × (Call π × Ret) × State π)) : List (Call π) :=
  trs.map fun t => t.2.1.1

/-- What they returned. -/
def rets (trs : List (State π × (Call π × Ret) × State π)) : List Ret :=
  trs.map fun t => t.2.1.2

/-- Calls that processes which see `v` make one after the other. -/
def AllowedAll (v : Spec.State π) : List (Call π) → Prop
  | [] => True
  | call :: cs =>
    Allowed (fun p => (v p).map Spec.Proc.sz) call ∧ AllowedAll (Spec.exec v call).2 cs

/-- **A run** returns what the processes see. -/
theorem run_spec {copyuvm : Copyuvm} (hcopy : copyuvm.Copies) {s s' : State π}
    {trs : List (State π × (Call π × Ret) × State π)}
    (hrun : (system copyuvm img p₀ sz).Run s trs s') : ∀ {v : Spec.State π}, Rel img s v →
    AllowedAll v (calls trs) ∧ rets trs = (Spec.execAll v (calls trs)).1 ∧
      Rel img s' (Spec.execAll v (calls trs)).2 := by
  induction hrun with
  | nil s => exact fun h => ⟨trivial, rfl, h⟩
  | @cons s s₁ s' e trs hstep _ ih =>
    intro v h
    obtain ⟨hallow, hexec⟩ := hstep
    obtain ⟨hret, hrel⟩ := (exec_spec hcopy h hallow).of_ok hexec
    obtain ⟨hallowed, hrets, hend⟩ := ih hrel
    refine ⟨⟨?_, hallowed⟩, congrArg₂ List.cons hret hrets, hend⟩
    rw [← show s.sz = fun p => (v p).map Spec.Proc.sz from funext h.sz_eq]
    exact hallow

/-- **Calls one after the other** return what the processes see, unless `kalloc` has no page. -/
theorem execAll_spec {copyuvm : Copyuvm} (hcopy : copyuvm.Copies) : ∀ {cs : List (Call π)}
    {s : State π} {v : Spec.State π}, Rel img s v → AllowedAll v cs →
    Returns .noMemory (execAll copyuvm img s cs) fun r => r.1 = (Spec.execAll v cs).1 := by
  intro cs
  induction cs with
  | nil => exact fun _ _ => .ok rfl
  | cons call cs ih =>
    intro s v h hallow
    obtain ⟨hfirst, hrest⟩ := hallow
    rw [← show s.sz = fun p => (v p).map Spec.Proc.sz from funext h.sz_eq] at hfirst
    rw [execAll]
    apply (exec_spec hcopy h hfirst).bind
    rintro ⟨ret, s₁⟩ ⟨hret, hrel⟩
    apply (ih hrel hrest).bind
    rintro ⟨rs, s₂⟩ hrets
    exact .ok (congrArg₂ List.cons hret hrets)

/-- As many free pages are enough for these calls. -/
def needAll (v : Spec.State π) : List (Call π) → Nat
  | [] => 0
  | call :: cs => need (fun p => (v p).map Spec.Proc.sz) call + needAll (Spec.exec v call).2 cs

/-- **Enough memory**: there is a run with these calls. -/
theorem run_exists (p₀ : π) (sz : Nat) : ∀ {cs : List (Call π)} {s : State π}
    {v : Spec.State π}, Rel img s v → AllowedAll v cs → needAll v cs ≤ s.kmem.freelist.length →
    ∃ trs s', (system Cow.copyuvm img p₀ sz).Run s trs s' ∧ calls trs = cs := by
  intro cs
  induction cs with
  | nil => exact fun {s} _ _ _ _ => ⟨[], s, .nil s, rfl⟩
  | cons call cs ih =>
    intro s v h hallow hneed
    obtain ⟨hfirst, hrest⟩ := hallow
    have hsz : s.sz = fun p => (v p).map Spec.Proc.sz := funext h.sz_eq
    rw [needAll, ← hsz] at hneed
    rw [← hsz] at hfirst
    obtain ⟨s₁, hexec, hrel, hlen⟩ := exec_succeeds h hfirst hneed
    obtain ⟨trs, s', hrun, hcalls⟩ := ih hrel hrest hlen
    exact ⟨(s, (call, (Spec.exec v call).1), s₁) :: trs, s', .cons ⟨hfirst, hexec⟩ hrun,
      congrArg (call :: ·) hcalls⟩

/-- **A user page that may be written** has one reference. -/
theorem Rel.writable {s : State π} {v : Spec.State π} (h : Rel img s v) {p : π} {x : Proc}
    (hp : s.procs p = some x) {u : Nat} {e : Pte} (hu : u < userPages)
    (he : x.pgdir.entry u = some e) (hw : e.w = true) : s.kmem.count e.page = 1 := by
  obtain ⟨c, -, hacct, hold⟩ := h.live hp
  have hsz : u < pages x.sz := by
    by_contra hge
    rw [hold.unmapped u hu (Nat.le_of_not_lt hge)] at he
    cases he
  obtain ⟨e', he', hpage⟩ := hold.mapped u hsz
  obtain rfl := Option.some.inj (he'.symm.trans he)
  have hsole := hpage.sole hw
  have hsole : others s.procs p e'.page + x.pgdir.refs e'.page = 1 := hsole
  rw [hacct.count_eq (.inr (by omega)), hsole]
  rfl

/-- **Copy-on-write fork refines eager copying.**  What a run of the kernel with the sharing
    `copyuvm` returns is what its processes see when `fork` copies their memory, and what the kernel
    with the copying `copyuvm` returns for the same calls, as far as its memory goes.  In every
    state that a run leads to, a user page that may be written has one reference, and no further
    call fails but for want of memory. -/
theorem cow_refines_eager {s₀ s : State π} {trs : List (State π × (Call π × Ret) × State π)}
    (hstart : (system Cow.copyuvm img p₀ sz).start s₀)
    (hrun : (system Cow.copyuvm img p₀ sz).Run s₀ trs s) :
    rets trs = (Spec.execAll s₀.view (calls trs)).1 ∧
    (∀ (img' : Image) (s₀' : State π), (system Eager.copyuvm img' p₀ sz).start s₀' →
      s₀'.view = s₀.view → Returns .noMemory (execAll Eager.copyuvm img' s₀' (calls trs)) fun r =>
        r.1 = rets trs) ∧
    (∀ (p : π) (x : Proc) (v : Nat) (e : Pte), s.procs p = some x → v < userPages →
      x.pgdir.entry v = some e → e.w = true → s.kmem.count e.page = 1) ∧
    (∀ call, Allowed s.sz call →
      Returns .noMemory (exec Cow.copyuvm img s call) fun _ => True) := by
  obtain ⟨hallowed, hrets, hrel⟩ := run_spec Cow.copyuvm_copies hrun (start_rel hstart)
  refine ⟨hrets, fun img' s₀' hstart' hview => ?_, fun p x v e hp hv he hw =>
    hrel.writable hp hv he hw, fun call hallow => ?_⟩
  · have hrel' : Rel img' s₀' s₀.view := by
      rw [← hview]
      exact start_rel hstart'
    rw [hrets]
    exact execAll_spec Eager.copyuvm_copies hrel' hallowed
  · exact (exec_spec Cow.copyuvm_copies hrel hallow).mono fun _ _ => trivial

/-- A kernel that ends at page 1000, with 4000 free pages. -/
def smallImage : Image := ⟨300, 1000, by decide, by decide, by decide⟩

def smallKmem : Kmem := ⟨List.range' 1000 4000, fun _ => 0, fun _ _ => 0⟩

theorem smallKmem_acct : Acct smallImage smallKmem fun _ => 0 := by
  have hmem : ∀ {p}, p ∈ List.range' 1000 4000 → 1000 ≤ p ∧ p < 5000 := fun hp => by
    rw [List.mem_range'_1] at hp
    omega
  refine ⟨List.nodup_range', fun _ => rfl, fun {p} hor => ?_, fun _ => rfl⟩
  obtain ⟨hge, hlt⟩ := hmem (hor.resolve_right (Nat.lt_irrefl 0))
  refine ⟨hge, ?_⟩
  rw [frames_eq]
  omega

/-- Parent and child after a store by the child: the parent reads what was there. -/
theorem cow_refines_eager_shared : ∃ (s₀ s : State Bool) (trs : List _),
    (system Cow.copyuvm smallImage false 1).start s₀ ∧
    (system Cow.copyuvm smallImage false 1).Run s₀ trs s ∧
    calls trs = [.fork false true, .store true 0 7, .load false 0, .load true 0] ∧
    rets trs = [.done, .done, .byte 0, .byte 7] ∧
    (∀ (p : Bool) (x : Proc) (v : Nat) (e : Pte), s.procs p = some x → v < userPages →
      x.pgdir.entry v = some e → e.w = true → s.kmem.count e.page = 1) := by
  have hpages : pages 1 = 1 := rfl
  obtain ⟨d, k', hstart, hlen⟩ := start_exists false (m := 2000) smallKmem_acct
    (by decide : 1 < kernbase) (fun _ _ => 0) (by rw [hpages, smallKmem, List.length_range']; omega)
  generalize hs₀ : (⟨{ k' with mem := fun _ _ => 0 },
    Function.update (fun _ => none) false (some ⟨1, d⟩)⟩ : State Bool) = s₀ at hstart
  have hview : s₀.view = Function.update (fun _ => none) false (some ⟨1, fun _ _ => 0⟩) := by
    rw [← hs₀]
    funext p
    cases p with
    | false =>
      refine congrArg some (congrArg (Spec.Proc.mk 1) (funext fun v => ?_))
      cases d.entry v with
      | none => rfl
      | some e => rfl
    | true => rfl
  have hfree : 2000 ≤ s₀.kmem.freelist.length := by
    rw [← hs₀]
    exact hlen
  have hallow : AllowedAll s₀.view
      [.fork false true, .store true 0 7, .load false 0, .load true 0] := by
    rw [hview]
    exact ⟨⟨rfl, rfl⟩, ⟨1, rfl, Nat.one_pos⟩, ⟨1, rfl, Nat.one_pos⟩, ⟨1, rfl, Nat.one_pos⟩, trivial⟩
  have hneed : needAll s₀.view
      [.fork false true, .store true 0 7, .load false 0, .load true 0] ≤ 2000 := by
    rw [hview]
    show 1025 + (1 + (0 + (0 + 0))) ≤ 2000
    omega
  obtain ⟨trs, s, hrun, hcalls⟩ := run_exists false 1 (start_rel hstart) hallow
    (hneed.trans hfree)
  obtain ⟨hrets, -, hcount, -⟩ := cow_refines_eager hstart hrun
  refine ⟨s₀, s, trs, hstart, hrun, hcalls, ?_, hcount⟩
  rw [hrets, hcalls, hview]
  rfl

end OsCodes.Xv6
