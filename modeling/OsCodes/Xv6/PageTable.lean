/-
  What a page directory maps, and which pages it refers to.

  `entry` is the present entry that a walk finds, whatever the page tables are; `refs` counts the
  references of a directory to a page, through its own page, its page tables and the user part of
  what it maps.  The functions on one directory are specified beside any numbers `R` of references
  that others hold: what they do to the accounts, to `entry`, and to pages in use.

  Structure:

  1. ranges of pages: `SameOutside` and `Cleared` say what a loop over a range leaves, and compose
     page by page, from the front (`Cleared.skip`, `Cleared.cons`, `map_first`);
  2. `deallocLoop_rule` and `freeLoop_rule` are the rules of the two loops that give pages back,
     for any `kfree`: what holds at every turn, and what is said of the loop from each turn on.
     They are the only inductions over these loops, here and in the modules about `Paging`;
  3. references, and how they change with one entry (`refs_update`, `refs_setPerm`);
  4. mapping, and the kernel part: `mappages_one` for a user page, `mapKernel_spec` for `kmap`.

  `refs` does not count what the kernel part maps: those pages are the kernel's, and every
  directory has the same ones.
-/
import Mathlib.Order.Interval.Finset.Nat
import OsCodes.Xv6.Vm

namespace OsCodes.Xv6

open Refcount

theorem userPages_lt : userPages < vpages := by
  have hall : vpages = 1048576 := rfl
  rw [userPages_eq, hall]
  omega

/-! ## Entries -/

/-- The present entry for page `v`. -/
def PgDir.entry (d : PgDir) (v : Nat) : Option Pte :=
  (walkpgdir d v).filter fun pte => pte.p

theorem entry_eq_some {d : PgDir} {v : Nat} {e : Pte} :
    d.entry v = some e ↔ walkpgdir d v = some e ∧ e.p = true := by
  rw [PgDir.entry, Option.filter_eq_some_iff]

theorem walkpgdir_eq_some {d : PgDir} {v : Nat} {e : Pte} :
    walkpgdir d v = some e ↔ (d.table (pdx v)).isSome ∧ d.pte v = e := by
  rw [walkpgdir]
  cases d.table (pdx v) with
  | none => exact ⟨fun h => (by cases h), fun h => (by cases h.1)⟩
  | some t => exact ⟨fun h => ⟨rfl, Option.some.inj h⟩, fun h => congrArg some h.2⟩

/-- No entry is found where a walk finds no table, or an entry that is not present. -/
theorem entry_eq_none {d : PgDir} {v : Nat} (h : ∀ e, walkpgdir d v = some e → e.p = false) :
    d.entry v = none := by
  cases he : d.entry v with
  | none => rfl
  | some e =>
    obtain ⟨hw, hp⟩ := entry_eq_some.mp he
    rw [h e hw] at hp
    cases hp

theorem not_present {d : PgDir} {v : Nat} {e : Pte} (h : d.entry v = none)
    (hw : walkpgdir d v = some e) : e.p = false := by
  cases hp : e.p with
  | false => rfl
  | true =>
    rw [entry_eq_some.mpr ⟨hw, hp⟩] at h
    cases h

/-- **Setting an entry** of a page table that is there. -/
theorem entry_setPte {d : PgDir} {v : Nat} (ht : (d.table (pdx v)).isSome) (x : Pte) :
    (d.setPte v x).entry = Function.update d.entry v (if x.p then some x else none) := by
  funext u
  obtain ⟨t, ht⟩ := Option.isSome_iff_exists.mp ht
  by_cases hu : u = v
  · rw [hu, Function.update_self, PgDir.entry, walkpgdir]
    show Option.filter _ ((d.table (pdx v)).map fun _ => Function.update d.pte v x v) = _
    rw [Function.update_self, ht]
    rfl
  · rw [Function.update_of_ne hu, PgDir.entry, PgDir.entry, walkpgdir, walkpgdir]
    show Option.filter _ ((d.table (pdx u)).map fun _ => Function.update d.pte v x u) = _
    rw [Function.update_of_ne hu]

/-- Where a page table is missing, no page is mapped up to the next one. -/
theorem entry_of_no_table {d : PgDir} {a u : Nat} (hwalk : walkpgdir d a = none) (hu : a ≤ u)
    (hlt : u < (pdx a + 1) * 1024) : d.entry u = none := by
  have hpdx : pdx u = pdx a := by
    simp only [pdx] at hlt ⊢
    omega
  have hnone : d.table (pdx a) = none := Option.map_eq_none_iff.mp hwalk
  refine entry_eq_none fun e he => ?_
  rw [walkpgdir, hpdx, hnone] at he
  cases he

/-- Without page tables, no page is mapped. -/
theorem entry_of_no_tables {d : PgDir} (h : ∀ i, d.table i = none) (u : Nat) :
    d.entry u = none := by
  rw [PgDir.entry, walkpgdir, h]
  rfl

theorem lt_next_table (a : Nat) : a < (pdx a + 1) * 1024 := by
  simp only [pdx]
  omega

/-! ## Ranges of pages -/

section Range

variable {d d' d₁ d₂ : PgDir} {a b last v n : Nat}

/-- Only the pages from `a` up to `b` may be mapped in another way. -/
def SameOutside (a b : Nat) (d d' : PgDir) : Prop :=
  ∀ u, ¬ (a ≤ u ∧ u < b) → d'.entry u = d.entry u

theorem SameOutside.of_entry (h : d'.entry = d.entry) : SameOutside a b d d' :=
  fun u _ => congrFun h u

theorem SameOutside.of_update {x : Option Pte} (h : d'.entry = Function.update d.entry a x) :
    SameOutside a (a + 1) d d' := by
  intro u hu
  rw [h, Function.update_of_ne (by omega)]

/-- **One range after another.** -/
theorem SameOutside.trans (h : SameOutside a b d d₁) (h' : SameOutside b last d₁ d₂) (hab : a ≤ b)
    (hbl : b ≤ last) : SameOutside a last d d₂ := by
  intro u hu
  rw [h' u (by omega), h u (by omega)]

/-- The pages from `a` up to `b` are not mapped any more, and the others are as they were. -/
structure Cleared (a b : Nat) (d d' : PgDir) : Prop where
  inside : ∀ u, a ≤ u → u < b → d'.entry u = none
  outside : SameOutside a b d d'

theorem Cleared.none (hle : b ≤ a) : Cleared a b d d := by
  refine ⟨fun u hu hlt => ?_, .of_entry rfl⟩
  omega

theorem Cleared.of_update (h : d'.entry = Function.update d.entry a .none) :
    Cleared a (a + 1) d d' := by
  refine ⟨fun u hu hlt => ?_, .of_update h⟩
  obtain rfl : u = a := by omega
  rw [h, Function.update_self]

/-- Passing over pages that are not mapped. -/
theorem Cleared.skip (h : Cleared b last d d') (hab : a ≤ b)
    (hnone : ∀ u, a ≤ u → u < b → d.entry u = .none) : Cleared a last d d' := by
  refine ⟨fun u hu hlt => ?_, fun u hu => h.outside u (by omega)⟩
  by_cases hub : u < b
  · rw [h.outside u (by omega)]
    exact hnone u hu hub
  · exact h.inside u (by omega) hlt

/-- One page, and then the pages after it. -/
theorem Cleared.cons (h : Cleared a (a + 1) d d₁) (h' : Cleared (a + 1) last d₁ d₂)
    (hlt : a < last) : Cleared a last d d₂ := by
  refine ⟨fun u hu hul => ?_, h.outside.trans h'.outside (Nat.le_succ a) hlt⟩
  by_cases hua : u < a + 1
  · rw [h'.outside u (by omega)]
    exact h.inside u hu hua
  · exact h'.inside u (by omega) hul

/-- **Mapping the first of some pages** that are not mapped: its entry is free, the others stay
    unmapped, and what is done to them afterwards is done to the range. -/
theorem map_first (x : Pte) (ht : (d₁.table (pdx v)).isSome) (hentry : d₁.entry = d.entry)
    (hnone : ∀ u, v ≤ u → u < v + (n + 1) → d.entry u = none) :
    (d₁.pte v).p = false ∧
      (∀ u, v + 1 ≤ u → u < v + 1 + n → (d₁.setPte v x).entry u = none) ∧
      ∀ d₂, SameOutside (v + 1) (v + 1 + n) (d₁.setPte v x) d₂ → SameOutside v (v + (n + 1)) d d₂ := by
  have hset := entry_setPte ht x
  rw [hentry] at hset
  refine ⟨not_present ?_ (walkpgdir_eq_some.mpr ⟨ht, rfl⟩), fun u hu hlt => ?_, fun d₂ h => ?_⟩
  · rw [hentry]
    exact hnone v le_rfl (by omega)
  · rw [hset, Function.update_of_ne (by omega)]
    exact hnone u (by omega) (by omega)
  · rw [Nat.add_right_comm] at h
    exact (SameOutside.of_update hset).trans h (Nat.le_succ v) (by omega)

end Range

/-! ## The loops of `deallocuvm` and `freevm` -/

section Loops

variable {ε : Type} {kfree : Nat → Kmem → Except ε Kmem} {panic : ε} {E : ε → Prop}

/-- **The rule for `deallocLoop`.**  `I` holds at every turn, and `Q a d k d' k'` is what is to be
    said about a loop that goes from `a`, `d` and `k` to `d'` and `k'`: it holds when nothing is left,
    passing over pages that are not mapped keeps it, and so does a page that is freed. -/
theorem deallocLoop_rule {last : Nat} {I : PgDir → Kmem → Prop}
    {Q : Nat → PgDir → Kmem → PgDir → Kmem → Prop}
    (hdone : ∀ {a d k}, I d k → last ≤ a → Q a d k d k)
    (hskip : ∀ {a b d k d' k'}, a ≤ b → (∀ u, a ≤ u → u < b → d.entry u = none) →
      Q b d k d' k' → Q a d k d' k')
    (hzero : ∀ {a d k e}, I d k → a < last → d.entry a = some e → e.page = 0 → E panic)
    (hfree : ∀ {a d k e}, I d k → a < last → d.entry a = some e →
      Allows E (kfree e.page k) fun k₁ => I (d.setPte a .zero) k₁ ∧
        ∀ d' k', Q (a + 1) (d.setPte a .zero) k₁ d' k' → Q a d k d' k') {n : Nat} :
    ∀ {a : Nat} {d : PgDir} {k : Kmem}, last - a = n → I d k →
      Allows E (deallocLoop kfree panic d a last k) fun r => Q a d k r.1 r.2 := by
  induction n using Nat.strong_induction_on with
  | _ n ih =>
    intro a d k hn h
    rw [deallocLoop]
    split
    case isFalse hge => exact .ok (hdone h (Nat.le_of_not_lt hge))
    case isTrue hlt =>
      split
      case h_1 hwalk =>
        have hnext := lt_next_table a
        exact (ih _ (by omega) rfl h).mono fun _ =>
          hskip (Nat.le_of_lt hnext) fun u hu hub => entry_of_no_table hwalk hu hub
      case h_2 pte hwalk =>
        split
        case isFalse hp =>
          refine (ih _ (by omega) rfl h).mono fun _ => hskip (Nat.le_succ a) fun u hu hub => ?_
          obtain rfl : u = a := by omega
          refine entry_eq_none fun e he => ?_
          rw [hwalk] at he
          obtain rfl := Option.some.inj he
          exact Bool.eq_false_iff.mpr hp
        case isTrue hp =>
          have hentry : d.entry a = some pte := entry_eq_some.mpr ⟨hwalk, hp⟩
          split
          case isTrue hpage => exact .stop (hzero h hlt hentry hpage)
          case isFalse =>
            refine (hfree h hlt hentry).bind fun k₁ h₁ => ?_
            exact (ih _ (by omega) rfl h₁.1).mono fun r hr => h₁.2 r.1 r.2 hr

/-- What every `kfree` keeps, the loop keeps. -/
theorem deallocLoop_keeps {a last : Nat} {I : PgDir → Kmem → Prop} (hpanic : E panic)
    (hfree : ∀ {a d k e}, I d k → a < last → d.entry a = some e →
      Allows E (kfree e.page k) (I (d.setPte a .zero))) {d : PgDir} {k : Kmem} (h : I d k) :
    Allows E (deallocLoop kfree panic d a last k) fun r => I r.1 r.2 :=
  deallocLoop_rule (Q := fun _ _ _ d' k' => I d' k') (fun h _ => h) (fun _ _ h => h)
    (fun _ _ _ _ => hpanic)
    (fun h hlt he => (hfree h hlt he).mono fun _ hI => ⟨hI, fun _ _ hQ => hQ⟩) rfl h

/-- **The rule for `freeLoop`**: `I i` holds at directory entry `i`. -/
theorem freeLoop_rule {d : PgDir} (last : Nat) {I : Nat → Kmem → Prop}
    (hskip : ∀ {i k}, i < last → d.table i = none → I i k → I (i + 1) k)
    (hfree : ∀ {i k pgtab}, i < last → d.table i = some pgtab → I i k →
      Allows E (kfree pgtab k) (I (i + 1))) :
    ∀ {n i : Nat} {k : Kmem}, i + n = last → I i k → Allows E (freeLoop kfree d i n k) (I last) := by
  intro n
  induction n with
  | zero =>
    intro i k hend h
    rw [← hend]
    exact .ok h
  | succ n ih =>
    intro i k hend h
    rw [freeLoop]
    split
    case h_1 ht => exact ih (by omega) (hskip (by omega) ht h)
    case h_2 pgtab ht => exact (hfree (by omega) ht h).bind fun _ h₁ => ih (by omega) h₁

end Loops

/-! ## References -/

/-- The page that `v` is mapped to. -/
def PgDir.target (d : PgDir) (v : Nat) : Option Nat := (d.entry v).map Pte.page

/-- How often a directory refers to page `q`. -/
def PgDir.refs (d : PgDir) (q : Nat) : Nat :=
  hit (some d.page) q + hits (Finset.Iio 1024) d.table q +
    hits (Finset.Iio userPages) d.target q

theorem refs_pos {d : PgDir} {v : Nat} {e : Pte} (hv : v < userPages) (he : d.entry v = some e) :
    0 < d.refs e.page := by
  have htarget : d.target v = some e.page := by rw [PgDir.target, he]; rfl
  have hpos := hits_pos (Finset.mem_Iio.mpr hv) htarget
  rw [PgDir.refs]
  omega

/-- Two user pages with one page of memory. -/
theorem refs_two {d : PgDir} {u v : Nat} {e e' : Pte} (huv : u ≠ v) (hu : u < userPages)
    (hv : v < userPages) (he : d.entry u = some e) (he' : d.entry v = some e')
    (hpage : e.page = e'.page) : 1 < d.refs e.page := by
  have htarget : d.target u = some e.page := by rw [PgDir.target, he]; rfl
  have htarget' : d.target v = some e.page := by rw [PgDir.target, he', hpage]; rfl
  have htwo := hits_two huv (Finset.mem_Iio.mpr hu) (Finset.mem_Iio.mpr hv) htarget htarget'
  rw [PgDir.refs]
  omega

/-- The target of one page changes. -/
theorem target_update {d d' : PgDir} {v : Nat} {x : Option Pte}
    (h : d'.entry = Function.update d.entry v x) :
    d'.target = Function.update d.target v (x.map Pte.page) := by
  funext u
  by_cases hu : u = v
  · rw [hu, Function.update_self, PgDir.target, h, Function.update_self]
  · rw [Function.update_of_ne hu, PgDir.target, h, Function.update_of_ne hu]
    rfl

/-- **The references after one user page changes.** -/
theorem refs_update {d d' : PgDir} {v : Nat} {x : Option Pte} (hv : v < userPages)
    (h : d'.entry = Function.update d.entry v x) (hpage : d'.page = d.page)
    (htable : d'.table = d.table) (q : Nat) :
    d'.refs q + hit ((d.entry v).map Pte.page) q = d.refs q + hit (x.map Pte.page) q := by
  have hmove := hits_update (Finset.mem_Iio.mpr hv) d.target (x.map Pte.page) q
  rw [← target_update h] at hmove
  have hold : d.target v = (d.entry v).map Pte.page := rfl
  rw [hold] at hmove
  rw [PgDir.refs, PgDir.refs, hpage, htable]
  omega

/-- A change in the kernel part does not count. -/
theorem refs_update_kernel {d d' : PgDir} {v : Nat} {x : Option Pte} (hv : userPages ≤ v)
    (h : d'.entry = Function.update d.entry v x) (hpage : d'.page = d.page)
    (htable : d'.table = d.table) (q : Nat) : d'.refs q = d.refs q := by
  have hout : v ∉ Finset.Iio userPages := fun hin => by
    have hlt := Finset.mem_Iio.mp hin
    omega
  rw [PgDir.refs, PgDir.refs, hpage, htable, target_update h, hits_update_notMem hout]

/-- Changing the permissions of an entry changes no reference. -/
theorem refs_setPerm {d : PgDir} {v : Nat} {e : Pte} (hv : v < userPages)
    (he : d.entry v = some e) {x : Pte} (hp : x.p = true) (hx : x.page = e.page) (q : Nat) :
    (d.setPte v x).refs q = d.refs q := by
  obtain ⟨ht, -⟩ := walkpgdir_eq_some.mp (entry_eq_some.mp he).1
  have hmove := refs_update hv (entry_setPte ht x) rfl rfl q
  rw [he, if_pos hp] at hmove
  simp only [Option.map_some, hx] at hmove
  omega

/-- A new page table has no present entry, and where there was none before nothing is lost. -/
theorem entry_setPde {d : PgDir} {v : Nat} (hnone : d.table (pdx v) = none) (pgtab : Nat) :
    (d.setPde v pgtab).entry = d.entry := by
  funext u
  rw [PgDir.entry, PgDir.entry, walkpgdir, walkpgdir, PgDir.setPde]
  by_cases hu : pdx u = pdx v
  · simp only [hu, Function.update_self, if_true, hnone]
    rfl
  · simp only [if_neg hu, Function.update_of_ne hu]

theorem refs_setPde {d : PgDir} {v : Nat} (hv : v < vpages) (hnone : d.table (pdx v) = none)
    (pgtab q : Nat) : (d.setPde v pgtab).refs q = d.refs q + hit (some pgtab) q := by
  have hin : pdx v ∈ Finset.Iio 1024 := by
    have hlt : v < 0x100000 := hv
    apply Finset.mem_Iio.mpr
    show v / 1024 < 1024
    omega
  have hmove := hits_update hin d.table (some pgtab) q
  rw [hnone, hit_none] at hmove
  have htarget : (d.setPde v pgtab).target = d.target := by
    funext u
    rw [PgDir.target, entry_setPde hnone]
    rfl
  rw [PgDir.refs, PgDir.refs, htarget]
  show hit (some d.page) q + hits (Finset.Iio 1024) (Function.update d.table (pdx v) _) q + _ = _
  omega

/-! ## Mapping -/

section Map

variable {img : Image} {R : Nat → Nat} {d : PgDir} {k : Kmem}

/-- **`walkpgdir` with `alloc`** makes sure that there is a page table, and maps nothing. -/
theorem walkpgdirAlloc_spec {v : Nat} (hv : v < vpages) (h : Acct img k fun q => R q + d.refs q) :
    Returns .noMemory (walkpgdirAlloc d v k) fun r =>
      Acct img r.2 (fun q => R q + r.1.refs q) ∧ (r.1.table (pdx v)).isSome ∧
      r.1.entry = d.entry ∧ (∀ q, 0 < R q + d.refs q → r.1.refs q = d.refs q) ∧
      r.2.mem = k.mem := by
  unfold walkpgdirAlloc
  split
  case h_1 t ht => exact .ok ⟨h, by rw [ht]; rfl, rfl, fun _ _ => rfl, rfl⟩
  case h_2 hnone =>
    refine (kalloc_spec h).bind fun ⟨pgtab, k'⟩ ⟨hzero, hacct, hmem⟩ => .ok ?_
    have hzero : R pgtab + d.refs pgtab = 0 := hzero
    have hrefs := refs_setPde hv hnone pgtab
    refine ⟨hacct.congr fun q => ?_, ?_, entry_setPde hnone pgtab, fun q hq => ?_, hmem⟩
    · rw [hrefs q, Nat.add_assoc]
    · show (Function.update d.table (pdx v) (some pgtab) (pdx v)).isSome
      rw [Function.update_self]
      rfl
    · have hne : q ≠ pgtab := ne_of_used (T := fun q => R q + d.refs q) hq hzero
      rw [hrefs q, hit_ne hne, Nat.add_zero]

/-- **`mappages` for one user page**, to which the caller holds a reference that goes to the
    directory. -/
theorem mappages_one {v pa : Nat} {perm : Perm} (hv : v < userPages) (hnone : d.entry v = none)
    (h : Acct img k fun q => R q + hit (some pa) q + d.refs q) :
    Returns .noMemory (mappages d v 1 pa perm k) fun r =>
      Acct img r.2 (fun q => R q + r.1.refs q) ∧
      r.1.entry = Function.update d.entry v (some { toPerm := perm, page := pa, p := true }) ∧
      (∀ q, 0 < R q + hit (some pa) q + d.refs q →
        r.1.refs q = d.refs q + hit (some pa) q) ∧ r.2.mem = k.mem := by
  have hlt := userPages_lt
  rw [mappages]
  refine (walkpgdirAlloc_spec (by omega) h).bind
    fun ⟨d₁, k₁⟩ ⟨hacct, ht, hentry, hkeep, hmem⟩ => ?_
  have hkeep : ∀ q, 0 < R q + hit (some pa) q + d.refs q → d₁.refs q = d.refs q := hkeep
  have hfree : (d₁.pte v).p = false :=
    not_present (by rw [hentry]; exact hnone) (walkpgdir_eq_some.mpr ⟨ht, rfl⟩)
  simp only [hfree, Bool.false_eq_true, if_false, mappages]
  have hset := entry_setPte ht { toPerm := perm, page := pa, p := true }
  have hrefs : ∀ q, (d₁.setPte v { toPerm := perm, page := pa, p := true }).refs q =
      d₁.refs q + hit (some pa) q := by
    intro q
    have hmove := refs_update hv hset rfl rfl q
    rw [hentry, hnone] at hmove
    simp only [Option.map_none, hit_none, if_true, Option.map_some] at hmove
    omega
  refine .ok ⟨hacct.congr fun q => ?_, ?_, fun q hq => ?_, hmem⟩
  · rw [hrefs q, Nat.add_assoc, Nat.add_comm (hit (some pa) q)]
  · rw [hset, hentry, if_pos rfl]
  · rw [hrefs q, hkeep q hq]

/-- **`mappages` in the kernel part**: pages that nothing is mapped at yet. -/
theorem mappages_kernel {perm : Perm} : ∀ {n v pa : Nat} {d : PgDir} {k : Kmem},
    userPages ≤ v → v + n ≤ vpages → (∀ u, v ≤ u → u < v + n → d.entry u = none) →
    Acct img k (fun q => R q + d.refs q) →
    Returns .noMemory (mappages d v n pa perm k) fun r =>
      Acct img r.2 (fun q => R q + r.1.refs q) ∧ SameOutside v (v + n) d r.1 ∧
      (∀ q, 0 < R q + d.refs q → r.1.refs q = d.refs q) ∧ r.2.mem = k.mem := by
  intro n
  induction n with
  | zero => exact fun _ _ _ h => .ok ⟨h, fun _ _ => rfl, fun _ _ => rfl, rfl⟩
  | succ n ih =>
    intro v pa d k hv hend hnone h
    rw [mappages]
    refine (walkpgdirAlloc_spec (by omega) h).bind
      fun ⟨d₁, k₁⟩ ⟨hacct, ht, hentry, hkeep, hmem⟩ => ?_
    have ht : (d₁.table (pdx v)).isSome := ht
    obtain ⟨hfree, hrest, houtside⟩ :=
      map_first { toPerm := perm, page := pa, p := true } ht hentry hnone
    simp only [hfree, Bool.false_eq_true, if_false]
    have hrefs := refs_update_kernel hv
      (entry_setPte ht { toPerm := perm, page := pa, p := true }) rfl rfl
    -- the rest of the pages
    refine (ih (by omega) (by omega) hrest (hacct.congr fun q => by rw [hrefs q])).mono
      fun ⟨d₂, k₂⟩ ⟨hacct₂, hentry₂, hkeep₂, hmem₂⟩ =>
        ⟨hacct₂, houtside d₂ hentry₂, fun q hq => ?_, hmem₂.trans hmem⟩
    rw [hkeep₂ q (by rw [hrefs q, hkeep q hq]; exact hq), hrefs q, hkeep q hq]

/-! ## The kernel part -/

/-- The ranges of `es` follow each other from `lo` on. -/
def Ascending : Nat → List Kmap → Prop
  | _, [] => True
  | lo, e :: es => lo ≤ e.virt ∧ e.virt + e.size ≤ vpages ∧ Ascending (e.virt + e.size) es

theorem Kmap.size_mk {virt a b : Nat} {perm : Perm} (h : a ≤ b) (hlt : b - a < vpages) :
    Kmap.size ⟨virt, a, b, perm⟩ = b - a := by
  show (b + vpages - a) % vpages = b - a
  rw [Nat.sub_add_comm h, Nat.add_mod_right, Nat.mod_eq_of_lt hlt]

theorem kmap_ascending (img : Image) : Ascending userPages (kmap img) := by
  have hall : vpages = 1048576 := rfl
  have hkern : kernbase / pgsize = 524288 := rfl
  have hext : extmem / pgsize = 256 := rfl
  have hdev : devspace / pgsize = 1040384 := rfl
  have hdata : 256 < img.dataPage := img.data_lt
  have hend : img.dataPage < 57344 := Nat.lt_of_le_of_lt img.data_le img.end_lt
  -- the last range ends with the address space
  have hlast : ∀ perm, Kmap.size ⟨1040384, 1040384, 0, perm⟩ = 8192 := by
    intro perm
    show (0 + vpages - 1040384) % vpages = 8192
    rw [hall]
  simp only [kmap, Ascending, userPages, hkern, hext, hdev, frames_eq, hlast, and_true]
  rw [Kmap.size_mk (by omega) (by omega), Kmap.size_mk (by omega) (by omega),
    Kmap.size_mk (by omega) (by omega)]
  omega

/-- **The first of ascending ranges**: the others stay unmapped, and what they leave alone is what
    all of them leave alone. -/
theorem map_range {e : Kmap} {lo : Nat} {d d₁ : PgDir} (hvirt : lo ≤ e.virt)
    (h : SameOutside e.virt (e.virt + e.size) d d₁) (hnone : ∀ u, lo ≤ u → d.entry u = none) :
    (∀ u, e.virt + e.size ≤ u → d₁.entry u = none) ∧
      (∀ u, u < lo → d₁.entry u = d.entry u) ∧
      ∀ d₂ : PgDir, (∀ u, u < e.virt + e.size → d₂.entry u = d₁.entry u) →
        ∀ u, u < lo → d₂.entry u = d.entry u := by
  refine ⟨fun u hu => ?_, fun u hu => h u (by omega), fun d₂ h₂ u hu => ?_⟩
  · rw [h u (by omega)]
    exact hnone u (by omega)
  · rw [h₂ u (by omega), h u (by omega)]

/-- Mapping ascending ranges leaves what lies before them. -/
theorem mapKernel_spec : ∀ {es : List Kmap} {lo : Nat} {d : PgDir} {k : Kmem},
    userPages ≤ lo → Ascending lo es → (∀ u, lo ≤ u → d.entry u = none) →
    Acct img k (fun q => R q + d.refs q) →
    Returns .noMemory
      (es.foldlM (fun r e => mappages r.1 e.virt e.size e.physStart e.perm r.2) (d, k)) fun r =>
        Acct img r.2 (fun q => R q + r.1.refs q) ∧
        (∀ u, u < lo → r.1.entry u = d.entry u) ∧
        (∀ q, 0 < R q + d.refs q → r.1.refs q = d.refs q) ∧ r.2.mem = k.mem := by
  intro es
  induction es with
  | nil => exact fun _ _ _ h => .ok ⟨h, fun _ _ => rfl, fun _ _ => rfl, rfl⟩
  | cons e es ih =>
    intro lo d k hlo hasc hnone h
    obtain ⟨hvirt, hend, hrest⟩ := hasc
    rw [List.foldlM_cons]
    refine (mappages_kernel (by omega) hend (fun u hu _ => hnone u (by omega)) h).bind ?_
    rintro ⟨d₁, k₁⟩ ⟨hacct, hentry, hkeep, hmem⟩
    have hkeep : ∀ q, 0 < R q + d.refs q → d₁.refs q = d.refs q := hkeep
    obtain ⟨habove, -, hbelow⟩ := map_range hvirt hentry hnone
    refine (ih (by omega) hrest habove hacct).mono ?_
    rintro ⟨d₂, k₂⟩ ⟨hacct₂, hentry₂, hkeep₂, hmem₂⟩
    refine ⟨hacct₂, hbelow d₂ hentry₂, fun q hq => ?_, hmem₂.trans hmem⟩
    rw [hkeep₂ q (by rw [hkeep q hq]; exact hq), hkeep q hq]

/-- A directory without page tables. -/
theorem refs_no_table {d : PgDir} (h : ∀ i, d.table i = none) (q : Nat) :
    d.refs q = hit (some d.page) q := by
  have htable : hits (Finset.Iio 1024) d.table q = 0 :=
    hits_eq_zero fun i _ hi => by rw [h i] at hi; cases hi
  have htarget : hits (Finset.Iio userPages) d.target q = 0 :=
    hits_eq_zero fun v _ hv => by
      rw [PgDir.target, entry_of_no_tables h] at hv
      cases hv
  rw [PgDir.refs, htable, htarget, Nat.add_zero]

/-- **`setupkvm`**: a directory with an empty user part, in pages that nobody else refers to. -/
theorem setupkvm_spec (h : Acct img k R) : Returns .noMemory (setupkvm img k) fun r =>
    Acct img r.2 (fun q => R q + r.1.refs q) ∧ (∀ v, v < userPages → r.1.entry v = none) ∧
    (∀ q, 0 < R q → r.1.refs q = 0) ∧ r.2.mem = k.mem := by
  rw [setupkvm]
  apply (kalloc_spec h).bind
  rintro ⟨pgdir, k₁⟩ ⟨hzero, hacct, hmem⟩
  have hzero : R pgdir = 0 := hzero
  -- the physical memory ends below the devices
  show Returns Fault.noMemory (if devspace < kernbase + phystop then _ else _) _
  rw [if_neg (by decide)]
  show Returns Fault.noMemory
    ((kmap img).foldlM _ (PgDir.mk pgdir (fun _ => none) fun _ => .zero, k₁)) _
  generalize hd : PgDir.mk pgdir (fun _ => none) (fun _ => .zero) = d
  have hpage : d.page = pgdir := by rw [← hd]
  have htable : ∀ i, d.table i = none := fun i => by rw [← hd]
  have hrefs := refs_no_table htable
  have hnone := entry_of_no_tables htable
  have hstart : Acct img k₁ (fun q => R q + d.refs q) :=
    hacct.congr fun q => by rw [hrefs q, hpage]
  refine (mapKernel_spec le_rfl (kmap_ascending img) (fun u _ => hnone u) hstart).mono ?_
  rintro ⟨d₁, k₂⟩ ⟨hacct₁, hentry, hkeep, hmem₁⟩
  refine ⟨hacct₁, fun v hv => (hentry v hv).trans (hnone v), fun q hq => ?_, hmem₁.trans hmem⟩
  have hne : q ≠ pgdir := ne_of_used hq hzero
  rw [hkeep q (by omega), hrefs q, hpage, hit_ne hne]

end Map

end OsCodes.Xv6
