/-
  Growing, shrinking and freeing a process's memory: `allocuvm`, `deallocuvm` and `freevm`.

  `UserPage` says what an entry of the user part stands for: a page with given contents, that only
  the holder of the one reference may write.  Each function is specified beside the references `R`
  that others hold.

  The functions are those of `Vm`, which stop without memory, so the specifications speak of
  success only.  What is new beside `PageTable` are the contents: new pages hold zeros, and what
  is still in use keeps what it holds.
-/
import OsCodes.Xv6.PageTable

namespace OsCodes.Xv6

open Refcount

/-! ## Sizes -/

theorem pages_mono {a b : Nat} (h : a ≤ b) : pages a ≤ pages b :=
  Nat.div_le_div_right (by omega)

theorem pages_kernbase : pages kernbase = userPages := by
  show (2147483648 + 4096 - 1) / 4096 = 2147483648 / 4096
  omega

theorem pages_le {sz : Nat} (h : sz ≤ kernbase) : pages sz ≤ userPages := by
  rw [← pages_kernbase]
  exact pages_mono h

/-- The page of an address below the size. -/
theorem page_lt_pages {a sz : Nat} (h : a < sz) : a / pgsize < pages sz := by
  show a / 4096 < (sz + 4096 - 1) / 4096
  omega

/-! ## User pages -/

/-- The entry `e` is for a user page that holds `c`; if it may be written, then it is the only
    reference to that page. -/
structure UserPage (T : Nat → Nat) (mem : Nat → Page) (e : Pte) (c : Page) : Prop where
  u : e.u = true
  usable : e.w = true ∨ e.cow = true
  sole : e.w = true → T e.page = 1
  content : mem e.page = c

/-- A new page with the permissions of a user page. -/
theorem UserPage.of_perm {T : Nat → Nat} {mem : Nat → Page} {e : Pte} {c : Page} {perm : Perm}
    (hperm : e.toPerm = perm) (hu : perm.u = true) (hwc : perm.w = true ∨ perm.cow = true)
    (hsole : T e.page = 1) (hcontent : mem e.page = c) : UserPage T mem e c := by
  subst hperm
  exact ⟨hu, hwc, fun _ => hsole, hcontent⟩

theorem UserPage.frame {T T' : Nat → Nat} {mem mem' : Nat → Page} {e : Pte} {c : Page}
    (h : UserPage T mem e c) (hmem : mem' e.page = mem e.page)
    (hT : T e.page = 1 → T' e.page = 1) : UserPage T' mem' e c :=
  ⟨h.u, h.usable, fun hw => hT (h.sole hw), hmem.trans h.content⟩

section Resize

variable {img : Image} {R : Nat → Nat}

/-! ## New pages -/

/-- `d'` and `k'` come from `d` and `k` by mapping new pages from `a` up to `b`, with the
    permissions `perm` and the contents `c`.  Only their own entries refer to them, and the pages in
    use stay as they are. -/
structure NewPages (img : Image) (R : Nat → Nat) (d : PgDir) (k : Kmem) (a b : Nat)
    (perm : Nat → Perm) (c : Nat → Page) (d' : PgDir) (k' : Kmem) : Prop where
  acct : Acct img k' fun q => R q + d'.refs q
  outside : SameOutside a b d d'
  inside : ∀ u, a ≤ u → u < b → ∃ e, d'.entry u = some e ∧ e.toPerm = perm u ∧
    R e.page + d'.refs e.page = 1 ∧ k'.mem e.page = c u
  kept : ∀ q, 0 < R q + d.refs q → d'.refs q = d.refs q ∧ k'.mem q = k.mem q

variable {d d₁ d₂ : PgDir} {k k₁ k₂ : Kmem} {a b last : Nat} {perm : Nat → Perm} {c : Nat → Page}

theorem NewPages.none (h : Acct img k fun q => R q + d.refs q) :
    NewPages img R d k a a perm c d k := by
  refine ⟨h, fun _ _ => rfl, fun u hu hlt => ?_, fun _ _ => ⟨rfl, rfl⟩⟩
  omega

/-- **New pages after new pages.** -/
theorem NewPages.trans (h : NewPages img R d k a b perm c d₁ k₁)
    (h' : NewPages img R d₁ k₁ b last perm c d₂ k₂) (hab : a ≤ b) (hbl : b ≤ last) :
    NewPages img R d k a last perm c d₂ k₂ := by
  refine ⟨h'.acct, h.outside.trans h'.outside hab hbl, fun u hu hlt => ?_, fun q hq => ?_⟩
  · by_cases hub : u < b
    · obtain ⟨e, he, hperm, hsole, hcontent⟩ := h.inside u hu hub
      obtain ⟨hrefs, hmem⟩ := h'.kept e.page (by omega)
      refine ⟨e, ?_, hperm, by rw [hrefs, hsole], by rw [hmem, hcontent]⟩
      rw [h'.outside u (by omega), he]
    · exact h'.inside u (by omega) hlt
  · obtain ⟨hrefs, hmem⟩ := h.kept q hq
    obtain ⟨hrefs', hmem'⟩ := h'.kept q (by rw [hrefs]; exact hq)
    exact ⟨hrefs'.trans hrefs, hmem'.trans hmem⟩

/-- **Mapping a new page** that was just allocated and filled. -/
theorem mapNew_spec (perm : Nat → Perm) (c : Nat → Page) {v mem : Nat} (hv : v < userPages)
    (hnone : d.entry v = .none) (hzero : R mem + d.refs mem = 0)
    (h : Acct img k₁ fun q => R q + d.refs q + hit (some mem) q) (hmem : k₁.mem = k.mem) :
    Returns .noMemory
      (mappages d v 1 mem (perm v) { k₁ with mem := Function.update k₁.mem mem (c v) }) fun r =>
        NewPages img R d k v (v + 1) perm c r.1 r.2 := by
  have hown : Acct img { k₁ with mem := Function.update k₁.mem mem (c v) }
      fun q => R q + hit (some mem) q + d.refs q :=
    (h.setMem _).congr fun q => by rw [Nat.add_right_comm]
  refine (mappages_one hv hnone hown).mono ?_
  rintro ⟨d₂, k₂⟩ ⟨hacct, hentry, hkeep, hmem₂⟩
  have hentry : d₂.entry = Function.update d.entry v _ := hentry
  have hkeep : ∀ q, 0 < R q + hit (some mem) q + d.refs q →
      d₂.refs q = d.refs q + hit (some mem) q := hkeep
  have hmem₂ : k₂.mem = Function.update k₁.mem mem (c v) := hmem₂
  have hself := hkeep mem (by rw [hit_self]; omega)
  rw [hit_self] at hself
  refine ⟨hacct, .of_update hentry, fun u hu hlt => ?_, fun q hq => ?_⟩
  · obtain rfl : u = v := by omega
    refine ⟨{ toPerm := perm u, page := mem, p := true }, ?_, rfl, ?_, ?_⟩
    · show d₂.entry u = _
      rw [hentry, Function.update_self]
    · show R mem + d₂.refs mem = 1
      omega
    · show k₂.mem mem = c u
      rw [hmem₂, Function.update_self]
  · have hne : q ≠ mem := ne_of_used (T := fun q => R q + d.refs q) hq hzero
    constructor
    · show d₂.refs q = d.refs q
      rw [hkeep q (by omega), hit_ne hne, Nat.add_zero]
    · show k₂.mem q = k.mem q
      rw [hmem₂, Function.update_of_ne hne, hmem]

/-! ## Growing -/

/-- **The loop of `allocuvm`** maps new pages of zeros. -/
theorem allocLoop_spec : ∀ {n a : Nat} {d : PgDir} {k : Kmem}, a + n ≤ userPages →
    (∀ u, a ≤ u → u < a + n → d.entry u = none) → Acct img k (fun q => R q + d.refs q) →
    Returns .noMemory (allocLoop d a n k) fun r =>
      NewPages img R d k a (a + n) (fun _ => ⟨true, true, false⟩) (fun _ _ => 0) r.1 r.2 := by
  intro n
  induction n with
  | zero => exact fun _ _ h => .ok (.none h)
  | succ n ih =>
    intro a d k hend hnone h
    rw [allocLoop]
    apply (kalloc_spec h).bind
    rintro ⟨mem, k₁⟩ ⟨hzero, hacct, hmem⟩
    refine (mapNew_spec (fun _ => ⟨true, true, false⟩) (fun _ _ => 0) (by omega)
      (hnone a le_rfl (by omega)) hzero hacct hmem).bind ?_
    rintro ⟨d₂, k₂⟩ hfirst
    have hfirst : NewPages img R d k a (a + 1) _ _ d₂ k₂ := hfirst
    refine (ih (a := a + 1) (by omega) (fun u hu hlt => ?_) hfirst.acct).mono ?_
    · rw [hfirst.outside u (by omega)]
      exact hnone u (by omega) (by omega)
    · rintro ⟨d₃, k₃⟩ hrest
      rw [Nat.add_right_comm] at hrest
      exact hfirst.trans hrest (Nat.le_succ a) (by omega)

/-- **`allocuvm`**, growing a memory with nothing mapped above it. -/
theorem allocuvm_spec {oldsz newsz : Nat} (hnew : newsz < kernbase) (hle : oldsz ≤ newsz)
    (hnone : ∀ u, u < userPages → pages oldsz ≤ u → d.entry u = none)
    (h : Acct img k fun q => R q + d.refs q) :
    Returns .noMemory (allocuvm d oldsz newsz k) fun r =>
      r.1 = newsz ∧ NewPages img R d k (pages oldsz) (pages newsz) (fun _ => ⟨true, true, false⟩)
        (fun _ _ => 0) r.2.1 r.2.2 := by
  have hpages := pages_mono hle
  have hlast := pages_le (Nat.le_of_lt hnew)
  rw [allocuvm, if_neg (by omega), if_neg (by omega)]
  refine (allocLoop_spec (by omega) (fun u hu hlt => hnone u (by omega) hu) h).bind ?_
  rintro ⟨d₁, k₁⟩ hpost
  rw [Nat.add_sub_cancel' hpages] at hpost
  exact .ok ⟨rfl, hpost⟩

/-! ## Shrinking -/

/-- `d'` and `k'` come from `d` and `k` by unmapping the pages from `a` up to `b`; the pages that
    are still in use stay as they are. -/
structure Unmapped (img : Image) (R : Nat → Nat) (d : PgDir) (k : Kmem) (a b : Nat) (d' : PgDir)
    (k' : Kmem) : Prop extends Cleared a b d d' where
  acct : Acct img k' fun q => R q + d'.refs q
  refs_le : ∀ q, d'.refs q ≤ d.refs q
  kept : ∀ q, 0 < R q + d'.refs q → k'.mem q = k.mem q

theorem Unmapped.none (h : Acct img k fun q => R q + d.refs q) (hle : last ≤ a) :
    Unmapped img R d k a last d k :=
  ⟨.none hle, h, fun _ => le_rfl, fun _ _ => rfl⟩

/-- Passing over pages that are not mapped. -/
theorem Unmapped.skip (h : Unmapped img R d k b last d₁ k₁) (hab : a ≤ b)
    (hnone : ∀ u, a ≤ u → u < b → d.entry u = .none) : Unmapped img R d k a last d₁ k₁ :=
  ⟨h.toCleared.skip hab hnone, h.acct, h.refs_le, h.kept⟩

/-- **Unmapping one page**, and then the pages after it. -/
theorem Unmapped.cons (h : Unmapped img R d k a (a + 1) d₁ k₁)
    (h' : Unmapped img R d₁ k₁ (a + 1) last d₂ k₂) (hlt : a < last) :
    Unmapped img R d k a last d₂ k₂ := by
  refine ⟨h.toCleared.cons h'.toCleared hlt, h'.acct,
    fun q => (h'.refs_le q).trans (h.refs_le q), fun q hq => ?_⟩
  have hle := h'.refs_le q
  rw [h'.kept q hq, h.kept q (by omega)]

/-- Freeing the page of one entry. -/
theorem unmap_spec {pte : Pte} (ha : a < userPages) (hentry : d.entry a = some pte)
    (h : Acct img k fun q => R q + d.refs q) :
    Returns .noMemory (kfree img pte.page k) fun k' =>
      Unmapped img R d k a (a + 1) (d.setPte a .zero) k' := by
  obtain ⟨ht, -⟩ := walkpgdir_eq_some.mp (entry_eq_some.mp hentry).1
  have hset : (d.setPte a .zero).entry = Function.update d.entry a none := entry_setPte ht _
  have hmove : ∀ q, (d.setPte a .zero).refs q + hit (some pte.page) q = d.refs q := by
    intro q
    have hmove := refs_update ha hset rfl rfl q
    rw [hentry] at hmove
    simpa only [Option.map_some, Option.map_none, hit_none, Nat.add_zero] using hmove
  have hless : ∀ q, R q + (d.setPte a .zero).refs q + hit (some pte.page) q =
      R q + d.refs q := fun q => by rw [Nat.add_assoc, hmove q]
  refine (kfree_spec h (Nat.add_pos_right _ (refs_pos ha hentry)) hless).mono ?_
  rintro k₁ ⟨hacct, hmem⟩
  exact ⟨.of_update hset, hacct, fun q => by rw [← hmove q]; omega, hmem⟩

/-- A page that is referred to is not page 0. -/
theorem Acct.page_ne_zero {T : Nat → Nat} {p : Nat} (h : Acct img k T) (hp : 0 < T p) : p ≠ 0 := by
  have hvalid := (h.valid (.inr hp)).1
  have hdata := Nat.zero_lt_of_lt img.data_lt
  have hle := img.data_le
  omega

/-- **The loop of `deallocuvm`** unmaps the pages from `a` up to `last`. -/
theorem deallocLoop_spec (hlast : last ≤ userPages) (h : Acct img k fun q => R q + d.refs q) :
    Returns .noMemory (deallocLoop (kfree img) .panic d a last k) fun r =>
      Unmapped img R d k a last r.1 r.2 := by
  refine deallocLoop_rule (I := fun d k => Acct img k fun q => R q + d.refs q)
    (Q := fun a d k => Unmapped img R d k a last) .none (fun hab hnone hpost => hpost.skip hab hnone)
    (fun h hlt he hzero => ?_) (fun h hlt he => ?_) rfl h
  · exact absurd hzero (h.page_ne_zero (Nat.add_pos_right _ (refs_pos (by omega) he)))
  · exact (unmap_spec (by omega) he h).mono fun _ hfirst =>
      ⟨hfirst.acct, fun _ _ hrest => hfirst.cons hrest hlt⟩

/-- **`deallocuvm`**, shrinking the memory below the kernel. -/
theorem deallocuvm_spec {oldsz newsz : Nat} (hold : oldsz ≤ kernbase) (hlt : newsz < oldsz)
    (h : Acct img k fun q => R q + d.refs q) :
    Returns .noMemory (deallocuvm img d oldsz newsz k) fun r =>
      r.1 = newsz ∧ Unmapped img R d k (pages newsz) (pages oldsz) r.2.1 r.2.2 := by
  rw [deallocuvm, if_neg (by omega)]
  apply (deallocLoop_spec (pages_le hold) h).bind
  rintro ⟨d₁, k₁⟩ hpost
  exact .ok ⟨rfl, hpost⟩

/-! ## Freeing -/

/-- Freeing the page tables of the directory entries from `i`. -/
theorem freeLoop_spec {i n : Nat} (hend : i + n = last)
    (h : Acct img k fun q => R q + hits (Finset.Ico i last) d.table q) :
    Returns .noMemory (freeLoop (kfree img) d i n k) fun k' =>
      Acct img k' R ∧ ∀ q, 0 < R q → k'.mem q = k.mem q := by
  refine (freeLoop_rule last (I := fun j k' =>
    Acct img k' (fun q => R q + hits (Finset.Ico j last) d.table q) ∧
      ∀ q, 0 < R q → k'.mem q = k.mem q) ?_ ?_ hend ⟨h, fun _ _ => rfl⟩).mono ?_
  · rintro j k₁ hj ht ⟨hacct, hmem⟩
    refine ⟨hacct.congr fun q => ?_, hmem⟩
    rw [hits_Ico hj, ht, hit_none, Nat.add_zero (hits _ _ _)]
  · rintro j k₁ pgtab hj ht ⟨hacct, hmem⟩
    have hpos : 0 < R pgtab + hits (Finset.Ico j last) d.table pgtab := by
      rw [hits_Ico hj, ht, hit_self]
      omega
    refine (kfree_spec hacct hpos fun q => by rw [hits_Ico hj, ht, Nat.add_assoc]).mono ?_
    rintro k₂ ⟨hacct₂, hmem₂⟩
    exact ⟨hacct₂, fun q hq => (hmem₂ q (by omega)).trans (hmem q hq)⟩
  · rintro k₁ ⟨hacct, hmem⟩
    refine ⟨hacct.congr fun q => ?_, hmem⟩
    rw [Finset.Ico_self, hits_eq_zero fun _ hj => absurd hj (Finset.notMem_empty _), Nat.add_zero]

/-- **`freevm`** takes back all that the directory refers to. -/
theorem freevm_spec {d : PgDir} {k : Kmem} (h : Acct img k fun q => R q + d.refs q) :
    Returns .noMemory (freevm img d k) fun k' =>
      Acct img k' R ∧ ∀ q, 0 < R q → k'.mem q = k.mem q := by
  rw [freevm]
  apply (deallocuvm_spec le_rfl (by decide) h).bind
  rintro ⟨_, d₁, k₁⟩ hpost
  have hgone : Unmapped img R d k (pages 0) (pages kernbase) d₁ k₁ := hpost.2
  have hall : Finset.Iio 1024 = Finset.Ico 0 1024 := by
    ext i
    rw [Finset.mem_Iio, Finset.mem_Ico]
    omega
  -- nothing is left but the page tables and the directory itself
  have hrefs : ∀ q, d₁.refs q =
      hit (some d₁.page) q + hits (Finset.Ico 0 1024) d₁.table q := by
    intro q
    have htarget : hits (Finset.Iio userPages) d₁.target q = 0 :=
      hits_eq_zero fun v hv hq => by
        have hlt : v < pages kernbase := by
          rw [pages_kernbase]
          exact Finset.mem_Iio.mp hv
        rw [PgDir.target, hgone.inside v (Nat.zero_le v) hlt] at hq
        cases hq
    rw [PgDir.refs, htarget, hall, Nat.add_zero]
  have htables : Acct img k₁ fun q =>
      R q + hit (some d₁.page) q + hits (Finset.Ico 0 1024) d₁.table q :=
    hgone.acct.congr fun q => by rw [hrefs q, Nat.add_assoc]
  apply (freeLoop_spec (Nat.zero_add 1024) htables).bind
  rintro k₂ ⟨hacct₂, hmem₂⟩
  refine (kfree_spec hacct₂ (by rw [hit_self]; omega) fun _ => rfl).mono ?_
  rintro k₃ ⟨hacct₃, hmem₃⟩
  exact ⟨hacct₃, fun q hq => (hmem₃ q hq).trans
    ((hmem₂ q (by omega)).trans (hgone.kept q (Nat.add_pos_left hq _)))⟩

end Resize

end OsCodes.Xv6
