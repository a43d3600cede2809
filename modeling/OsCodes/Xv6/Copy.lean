/-
  Sharing and copying pages: the loops of the two versions of `copyuvm`, and the fault handler that
  makes the copy which the first version put off.

  Sharing writes no page and takes the write permission from both sides; copying and the handler
  map new pages that nobody else refers to.

  The loop that shares changes two directories at once, so its result `Shared` speaks of both; the
  loop that copies leaves the parent's directory as it is.  The handler needs no induction: it
  replaces one entry, and drops the reference to the page that was shared.
-/
import OsCodes.Xv6.Resize

namespace OsCodes.Xv6

open Refcount

variable {img : Image} {R : Nat → Nat}

/-! ## Sharing -/

section Sharing

/-- The pages from `a` up to `b` have become shared: both sides have the same read-only entry for
    each, and the parent refers to what it referred to. -/
structure Shared (img : Image) (R : Nat → Nat) (pgdir d : PgDir) (k : Kmem) (a b : Nat)
    (pgdir' d' : PgDir) (k' : Kmem) : Prop where
  acct : Acct img k' fun q => R q + pgdir'.refs q + d'.refs q
  outside : ∀ u, ¬ (a ≤ u ∧ u < b) → pgdir'.entry u = pgdir.entry u ∧ d'.entry u = d.entry u
  inside : ∀ u, a ≤ u → u < b → ∀ e, pgdir.entry u = some e →
    pgdir'.entry u = some e.share ∧ d'.entry u = some e.share
  refs_eq : ∀ q, pgdir'.refs q = pgdir.refs q
  kept : ∀ q, 0 < R q → pgdir.refs q = 0 → d'.refs q = d.refs q
  mem_eq : k'.mem = k.mem

variable {pgdir pgdir₁ pgdir₂ d d₁ d₂ : PgDir} {k k₁ k₂ : Kmem} {a b last : Nat}

theorem Shared.none (h : Acct img k fun q => R q + pgdir.refs q + d.refs q) :
    Shared img R pgdir d k a a pgdir d k := by
  refine ⟨h, fun _ _ => ⟨rfl, rfl⟩, fun u hu hlt => ?_, fun _ => rfl, fun _ _ _ => rfl, rfl⟩
  omega

/-- **Sharing after sharing**, where the second range begins at the end of the first. -/
theorem Shared.trans (h : Shared img R pgdir d k a b pgdir₁ d₁ k₁)
    (h' : Shared img R pgdir₁ d₁ k₁ b last pgdir₂ d₂ k₂) (hab : a ≤ b) (hbl : b ≤ last) :
    Shared img R pgdir d k a last pgdir₂ d₂ k₂ := by
  refine ⟨h'.acct, fun u hu => ?_, fun u hu hlt e he => ?_,
    fun q => (h'.refs_eq q).trans (h.refs_eq q), fun q hR hq => ?_, h'.mem_eq.trans h.mem_eq⟩
  · obtain ⟨hparent, hchild⟩ := h.outside u (by omega)
    obtain ⟨hparent', hchild'⟩ := h'.outside u (by omega)
    exact ⟨hparent'.trans hparent, hchild'.trans hchild⟩
  · by_cases hub : u < b
    · obtain ⟨hparent, hchild⟩ := h.inside u hu hub e he
      obtain ⟨hparent', hchild'⟩ := h'.outside u (by omega)
      exact ⟨hparent'.trans hparent, hchild'.trans hchild⟩
    · refine h'.inside u (by omega) hlt e ?_
      rw [(h.outside u (by omega)).1, he]
  · rw [h'.kept q hR (by rw [h.refs_eq]; exact hq), h.kept q hR hq]

/-- **Sharing one page**: the parent's entry loses its write permission, and the page gets one
    reference more, for the child. -/
theorem share_spec {v : Nat} {e : Pte} (hv : v < userPages) (he : pgdir.entry v = some e)
    (hnone : d.entry v = .none) (h : Acct img k fun q => R q + pgdir.refs q + d.refs q) :
    Returns .noMemory (do
      let k ← incrementRefCount img e.share.page k
      mappages d v 1 e.share.page e.share.toPerm k) fun r =>
        Shared img R pgdir d k v (v + 1) (pgdir.setPte v e.share) r.1 r.2 := by
  obtain ⟨hwalk, hp⟩ := entry_eq_some.mp he
  obtain ⟨ht, -⟩ := walkpgdir_eq_some.mp hwalk
  have hpos : 0 < pgdir.refs e.page := refs_pos hv he
  have hshare : e.share.p = true := hp
  have hset : (pgdir.setPte v e.share).entry = Function.update pgdir.entry v (some e.share) := by
    rw [entry_setPte ht, if_pos hshare]
  have hsame : ∀ q, (pgdir.setPte v e.share).refs q = pgdir.refs q :=
    refs_setPerm hv he hshare rfl
  generalize pgdir.setPte v e.share = pgdir₁ at hset hsame ⊢
  refine (incrementRefCount_spec (p := e.page) h (by omega)).bind ?_
  rintro k₁ ⟨hacct₁, hmem₁⟩
  refine (mappages_one (R := fun q => R q + pgdir₁.refs q) hv hnone
    (hacct₁.congr fun q => ?_)).mono ?_
  · rw [hsame q, Nat.add_right_comm]
    rfl
  rintro ⟨d₂, k₂⟩ ⟨hacct₂, hentry₂, hkeep₂, hmem₂⟩
  have hentry₂ : d₂.entry = Function.update d.entry v (some e.share) := by
    have heta : ({ toPerm := e.share.toPerm, page := e.share.page, p := true } : Pte) =
        e.share := by rw [← hshare]
    rw [← heta]
    exact hentry₂
  have hkeep₂ : ∀ q, 0 < R q + pgdir₁.refs q + hit (some e.page) q + d.refs q →
      d₂.refs q = d.refs q + hit (some e.page) q := hkeep₂
  have hmem₂ : k₂.mem = k₁.mem := hmem₂
  refine ⟨hacct₂, fun u hu => ?_, fun u hu hlt e' he' => ?_, hsame, fun q hR hq => ?_,
    hmem₂.trans hmem₁⟩
  · show pgdir₁.entry u = _ ∧ d₂.entry u = _
    rw [hset, hentry₂, Function.update_of_ne (by omega), Function.update_of_ne (by omega)]
    exact ⟨rfl, rfl⟩
  · obtain rfl : u = v := by omega
    obtain rfl := Option.some.inj (he.symm.trans he')
    show pgdir₁.entry u = _ ∧ d₂.entry u = _
    rw [hset, hentry₂, Function.update_self, Function.update_self]
    exact ⟨rfl, rfl⟩
  · have hne : q ≠ e.page := (ne_of_used hpos hq).symm
    show d₂.refs q = d.refs q
    rw [hkeep₂ q (by omega), hit_ne hne, Nat.add_zero]

end Sharing

/-- **The loop of `copyuvm`, sharing**: each page is referred to once more and writable
    for nobody. -/
theorem Cow.copyLoop_spec : ∀ {n i : Nat} {pgdir d : PgDir} {k : Kmem}, i + n ≤ userPages →
    (∀ u, i ≤ u → u < i + n → ∃ e, pgdir.entry u = some e) →
    (∀ u, i ≤ u → u < i + n → d.entry u = none) →
    Acct img k (fun q => R q + pgdir.refs q + d.refs q) →
    Returns .noMemory (Cow.copyLoop img pgdir d i n k) fun r =>
      Shared img R pgdir d k i (i + n) r.1 r.2.1 r.2.2 := by
  intro n
  induction n with
  | zero => exact fun _ _ _ h => .ok (.none h)
  | succ n ih =>
    intro i pgdir d k hend hmapped hnone h
    obtain ⟨e, he⟩ := hmapped i le_rfl (by omega)
    obtain ⟨hwalk, hp⟩ := entry_eq_some.mp he
    rw [Cow.copyLoop, hwalk]
    simp only [hp, Bool.not_true, Bool.false_eq_true, if_false, ← bind_assoc]
    refine (share_spec (by omega) he (hnone i le_rfl (by omega)) h).bind ?_
    rintro ⟨d₁, k₁⟩ hfirst
    have hfirst : Shared img R pgdir d k i (i + 1) (pgdir.setPte i e.share) d₁ k₁ := hfirst
    refine (ih (i := i + 1) (by omega) (fun u hu hlt => ?_) (fun u hu hlt => ?_)
      hfirst.acct).mono ?_
    · rw [(hfirst.outside u (by omega)).1]
      exact hmapped u (by omega) (by omega)
    · rw [(hfirst.outside u (by omega)).2]
      exact hnone u (by omega) (by omega)
    · rintro ⟨pgdir₂, d₂, k₂⟩ hrest
      rw [Nat.add_right_comm] at hrest
      exact hfirst.trans hrest (Nat.le_succ i) (by omega)

/-! ## Copying -/

/-- **The loop of `copyuvm`, copying**: new pages with the permissions and the contents of the
    parent's. -/
theorem Eager.copyLoop_spec {pgdir : PgDir} (perm : Nat → Perm) (c : Nat → Page) :
    ∀ {n i : Nat} {d : PgDir} {k : Kmem}, i + n ≤ userPages →
    (∀ u, i ≤ u → u < i + n → ∃ e, pgdir.entry u = some e ∧ e.toPerm = perm u ∧ 0 < R e.page ∧
      k.mem e.page = c u) →
    (∀ u, i ≤ u → u < i + n → d.entry u = none) → Acct img k (fun q => R q + d.refs q) →
    Returns .noMemory (Eager.copyLoop pgdir d i n k) fun r =>
      r.1 = pgdir ∧ NewPages img R d k i (i + n) perm c r.2.1 r.2.2 := by
  intro n
  induction n with
  | zero => exact fun _ _ _ h => .ok ⟨rfl, .none h⟩
  | succ n ih =>
    intro i d k hend hmapped hnone h
    obtain ⟨e, he, hperm, -, hcontent⟩ := hmapped i le_rfl (by omega)
    obtain ⟨hwalk, hp⟩ := entry_eq_some.mp he
    rw [Eager.copyLoop, hwalk]
    simp only [hp, Bool.not_true, Bool.false_eq_true, if_false]
    apply (kalloc_spec h).bind
    rintro ⟨mem, k₁⟩ ⟨hzero, hacct, hmem⟩
    have hmem : k₁.mem = k.mem := hmem
    simp only [hperm, hmem, hcontent]
    rw [← hmem]
    refine (mapNew_spec perm c (by omega) (hnone i le_rfl (by omega)) hzero hacct hmem).bind ?_
    rintro ⟨d₂, k₂⟩ hfirst
    have hfirst : NewPages img R d k i (i + 1) perm c d₂ k₂ := hfirst
    refine (ih (i := i + 1) (by omega) (fun u hu hlt => ?_) (fun u hu hlt => ?_)
      hfirst.acct).mono ?_
    · obtain ⟨e', he', hperm', hpos, hcontent'⟩ := hmapped u (by omega) (by omega)
      refine ⟨e', he', hperm', hpos, ?_⟩
      rw [(hfirst.kept e'.page (by omega)).2, hcontent']
    · rw [hfirst.outside u (by omega)]
      exact hnone u (by omega) (by omega)
    · rintro ⟨pgdir₂, d₃, k₃⟩ ⟨hparent, hrest⟩
      rw [Nat.add_right_comm] at hrest
      exact ⟨hparent, hfirst.trans hrest (Nat.le_succ i) (by omega)⟩

/-! ## Page faults -/

/-- **`handle_pgflt_helper`** replaces the page by a writable copy, to which only this entry
    refers. -/
theorem handlePgfltHelper_spec {d : PgDir} {v : Nat} {e : Pte} {k : Kmem} (hv : v < userPages)
    (he : d.entry v = some e) (hu : e.u = true) (hwc : e.w = true ∨ e.cow = true)
    (h : Acct img k fun q => R q + d.refs q) :
    Returns .noMemory (handlePgfltHelper img d v k) fun r =>
      Acct img r.2 (fun q => R q + r.1.refs q) ∧
      (∃ mem, r.1.entry = Function.update d.entry v
          (some { page := mem, p := true, w := true, u := true, cow := false }) ∧
        R mem + r.1.refs mem = 1 ∧ r.2.mem mem = k.mem e.page) ∧
      (∀ q, 0 < R q + d.refs q →
        r.1.refs q ≤ d.refs q ∧ (0 < R q + r.1.refs q → r.2.mem q = k.mem q)) := by
  obtain ⟨hwalk, hp⟩ := entry_eq_some.mp he
  obtain ⟨ht, -⟩ := walkpgdir_eq_some.mp hwalk
  have hpos : 0 < d.refs e.page := refs_pos hv he
  have hperm : (!e.w && !e.cow) = false := by
    cases hwc with
    | inl hw => rw [hw]; rfl
    | inr hc => rw [hc, Bool.not_true, Bool.and_false]
  rw [handlePgfltHelper, hwalk]
  simp only [hu, hp, hperm, Bool.not_true, Bool.false_eq_true, if_false]
  apply (kalloc_spec h).bind
  rintro ⟨mem, k₁⟩ ⟨hzero, hacct, hmem⟩
  have hzero : R mem + d.refs mem = 0 := hzero
  have hmem : k₁.mem = k.mem := hmem
  have hacct : Acct img k₁ fun q => R q + d.refs q + hit (some mem) q := hacct
  -- one reference to the old page becomes one to the new page
  generalize hx : ({ page := mem, p := true, w := true, u := true, cow := false } : Pte) = x
  have hset : (d.setPte v x).entry = Function.update d.entry v (some x) := by
    rw [entry_setPte ht x, if_pos (by rw [← hx])]
  have hmove : ∀ q, (d.setPte v x).refs q + hit (some e.page) q = d.refs q + hit (some mem) q := by
    intro q
    have hmove := refs_update hv hset rfl rfl q
    rw [he] at hmove
    simp only [Option.map_some, ← hx] at hmove ⊢
    exact hmove
  -- the new page is none of those in use
  have hfresh : ∀ q, 0 < R q + d.refs q → q ≠ mem := fun q hq =>
    ne_of_used (T := fun q => R q + d.refs q) hq hzero
  have hne : mem ≠ e.page := (hfresh e.page (by omega)).symm
  have hself : (d.setPte v x).refs mem = d.refs mem + 1 := by
    have := hmove mem
    rwa [hit_self, hit_ne hne, Nat.add_zero] at this
  have hless : ∀ q, R q + (d.setPte v x).refs q + hit (some e.page) q =
      R q + d.refs q + hit (some mem) q := fun q => by rw [Nat.add_assoc, hmove q, Nat.add_assoc]
  apply (kfree_spec (hacct.setMem _) (by omega) hless).bind
  rintro k₂ ⟨hacct₂, hmem₂⟩
  have hmem₂ : ∀ q, 0 < R q + (d.setPte v x).refs q →
      k₂.mem q = Function.update k₁.mem mem (k₁.mem e.page) q := hmem₂
  refine .ok ⟨hacct₂, ⟨mem, ?_, ?_, ?_⟩, fun q hq => ⟨?_, fun hq' => ?_⟩⟩
  · rw [hx]
    exact hset
  · show R mem + (d.setPte v x).refs mem = 1
    omega
  · show k₂.mem mem = _
    rw [hmem₂ mem (by omega), Function.update_self, hmem]
  · have := hmove q
    rw [hit_ne (hfresh q hq)] at this
    show (d.setPte v x).refs q ≤ d.refs q
    omega
  · show k₂.mem q = k.mem q
    rw [hmem₂ q hq', Function.update_of_ne (hfresh q hq), hmem]

end OsCodes.Xv6
