/-
  What the functions on page directories do to the books, whether or not memory lasts.

  `PgDir.uses` is what a directory refers to: it owns its own page and its page tables, and shares
  the pages that its user part maps.  Each function is specified beside the references `R` of all
  others, for any allocator with its `Books`; the errors that it may stop with are left to `E`.

  The specifications are triples: `Allows E c Q` says that `c` returns a value with `Q` or stops
  with an error of `E`.  What a function that ran out of memory leaves is part of `Q`, as a case,
  so callers decide nothing about memory; and `Kept` says that pages which somebody else refers to
  keep their contents.  `MapOne`, `Unmapped` and `Alloced` are the results of the three kinds of
  functions, and they compose as in `PageTable`.
-/
import OsCodes.Xv6.Paging
import OsCodes.Xv6.Resize

namespace OsCodes.Xv6

open Refcount

/-! ## What a directory refers to -/

/-- The references of a directory. -/
def PgDir.uses (d : PgDir) : Refs Nat where
  own q := hit (some d.page) q + hits (Finset.Iio 1024) d.table q
  shared := hits (Finset.Iio userPages) d.target

section Uses

variable {d d' : PgDir} {v : Nat} {e : Pte}

/-- A page that is mapped is shared. -/
theorem uses_shared_pos (hv : v < userPages) (he : d.entry v = some e) :
    0 < d.uses.shared e.page := by
  have htarget : d.target v = some e.page := by
    rw [PgDir.target, he]
    rfl
  exact hits_pos (Finset.mem_Iio.mpr hv) htarget

theorem uses_pos (hv : v < userPages) (he : d.entry v = some e) : 0 < d.uses.total e.page :=
  Nat.add_pos_right _ (uses_shared_pos hv he)

/-- The shared references after one user page changes. -/
theorem uses_update {x : Option Pte} (hv : v < userPages)
    (h : d'.entry = Function.update d.entry v x) (q : Nat) :
    d'.uses.shared q + hit ((d.entry v).map Pte.page) q =
      d.uses.shared q + hit (x.map Pte.page) q := by
  have hmove := hits_update (Finset.mem_Iio.mpr hv) d.target (x.map Pte.page) q
  rw [← target_update h] at hmove
  exact hmove

/-- **A page is mapped** where there was none. -/
theorem uses_map (hv : v < userPages) (hnone : d.entry v = none)
    (h : d'.entry = Function.update d.entry v (some e)) (hpage : d'.page = d.page)
    (htable : d'.table = d.table) : d'.uses = d.uses + .sharer e.page := by
  refine Refs.eq_of (fun q => ?_) (fun q => ?_)
  · show hit (some d'.page) q + hits _ d'.table q = _
    rw [hpage, htable]
    rfl
  · have hmove := uses_update hv h q
    rw [hnone] at hmove
    exact hmove

/-- **A page is unmapped.** -/
theorem uses_unmap (hv : v < userPages) (he : d.entry v = some e)
    (h : d'.entry = Function.update d.entry v none) (hpage : d'.page = d.page)
    (htable : d'.table = d.table) : d.uses = d'.uses + .sharer e.page := by
  refine Refs.eq_of (fun q => ?_) (fun q => ?_)
  · show hit (some d.page) q + hits _ d.table q = _
    rw [← hpage, ← htable]
    rfl
  · have hmove := uses_update hv h q
    rw [he] at hmove
    exact hmove.symm

/-- **A page is mapped to another one.** -/
theorem uses_remap {e' : Pte} (hv : v < userPages) (he : d.entry v = some e)
    (h : d'.entry = Function.update d.entry v (some e')) (hpage : d'.page = d.page)
    (htable : d'.table = d.table) : d'.uses + .sharer e.page = d.uses + .sharer e'.page := by
  refine Refs.eq_of (fun q => ?_) (fun q => ?_)
  · show hit (some d'.page) q + hits _ d'.table q + 0 = _
    rw [hpage, htable]
    rfl
  · have hmove := uses_update hv h q
    rw [he] at hmove
    exact hmove

/-- Mapping less. -/
theorem uses_shared_mono (h : ∀ u e', u < userPages → d'.entry u = some e' →
    ∃ e, d.entry u = some e ∧ e.page = e'.page) (q : Nat) :
    d'.uses.shared q ≤ d.uses.shared q := by
  show hits (Finset.Iio userPages) d'.target q ≤ hits (Finset.Iio userPages) d.target q
  refine hits_mono fun u hu hq => ?_
  obtain ⟨e', he', rfl⟩ := Option.map_eq_some_iff.mp hq
  obtain ⟨e, he, hpage⟩ := h u e' (Finset.mem_Iio.mp hu) he'
  rw [PgDir.target, he, ← hpage]
  rfl

/-- No page of memory is mapped at two addresses. -/
def PgDir.Single (d : PgDir) : Prop := ∀ q, d.uses.shared q ≤ 1

theorem PgDir.Single.less (hd : d.Single) (h : ∀ u e', u < userPages → d'.entry u = some e' →
    ∃ e, d.entry u = some e ∧ e.page = e'.page) : d'.Single :=
  fun q => (uses_shared_mono h q).trans (hd q)

/-- A page that was mapped nowhere is mapped. -/
theorem PgDir.Single.update (hd : d.Single) (hv : v < userPages)
    (h : d'.entry = Function.update d.entry v (some e)) (hfresh : d.uses.shared e.page = 0) :
    d'.Single := by
  intro q
  have hmove := uses_update hv h q
  have hone := hd q
  have hnew : hit ((some e).map Pte.page) q = hit (some e.page) q := rfl
  rw [hnew] at hmove
  by_cases hq : q = e.page
  · rw [hq, hit_self] at hmove
    rw [hq]
    omega
  · rw [hit_ne hq] at hmove
    omega

/-- The references of the user part. -/
def PgDir.maps (d : PgDir) : Refs Nat := ⟨fun _ => 0, d.uses.shared⟩

theorem maps_le (d : PgDir) (q : Nat) : d.maps.total q ≤ d.uses.total q :=
  Nat.add_le_add_right (Nat.zero_le _) _

theorem maps_pos (hv : v < userPages) (he : d.entry v = some e) : 0 < d.maps.total e.page :=
  Nat.add_pos_right _ (uses_shared_pos hv he)

theorem maps_congr (h : ∀ u, u < userPages → d'.entry u = d.entry u) : d'.maps = d.maps := by
  refine Refs.eq_of (fun _ => rfl) (fun q => ?_)
  show hits (Finset.Iio userPages) d'.target q = hits (Finset.Iio userPages) d.target q
  refine hits_congr (fun u hu => ?_) q
  rw [PgDir.target, PgDir.target, h u (Finset.mem_Iio.mp hu)]

/-- A page more in the user part. -/
theorem maps_map (hv : v < userPages) (hnone : d.entry v = none)
    (h : d'.entry = Function.update d.entry v (some e)) : d'.maps = d.maps + .sharer e.page := by
  refine Refs.eq_of (fun _ => rfl) (fun q => ?_)
  have hmove := uses_update hv h q
  rw [hnone] at hmove
  exact hmove

/-- The user part and the tables say it all. -/
theorem uses_congr (hpage : d'.page = d.page) (htable : d'.table = d.table)
    (h : ∀ u, u < userPages → d'.entry u = d.entry u) : d'.uses = d.uses := by
  refine Refs.eq_of (fun q => ?_) (fun q => ?_)
  · show hit (some d'.page) q + hits _ d'.table q = _
    rw [hpage, htable]
    rfl
  · have hmaps := congrArg (fun T : Refs Nat => T.shared q) (maps_congr h)
    exact hmaps

/-- **A page table is added.** -/
theorem uses_setPde (hv : v < vpages) (hnone : d.table (pdx v) = none) (pgtab : Nat) :
    (d.setPde v pgtab).uses = d.uses + .owner pgtab := by
  have hin : pdx v ∈ Finset.Iio 1024 := by
    have hlt : v < 0x100000 := hv
    apply Finset.mem_Iio.mpr
    show v / 1024 < 1024
    omega
  refine Refs.eq_of (fun q => ?_) (fun q => ?_)
  · have hmove := hits_update hin d.table (some pgtab) q
    rw [hnone, hit_none, Nat.add_zero] at hmove
    show hit (some d.page) q + hits _ (Function.update d.table (pdx v) (some pgtab)) q = _
    rw [hmove, ← Nat.add_assoc]
    rfl
  · have htarget : (d.setPde v pgtab).target = d.target := by
      funext u
      rw [PgDir.target, entry_setPde hnone]
      rfl
    show hits (Finset.Iio userPages) (d.setPde v pgtab).target q = _
    rw [htarget]
    rfl

/-- Only its own page: a directory without page tables. -/
theorem uses_no_table (h : ∀ i, d.table i = none) : d.uses = .owner d.page := by
  refine Refs.eq_of (fun q => ?_) (fun q => ?_)
  · have htable : hits (Finset.Iio 1024) d.table q = 0 :=
      hits_eq_zero fun i _ hi => by rw [h i] at hi; cases hi
    show hit (some d.page) q + hits _ d.table q = _
    rw [htable]
    rfl
  · show hits (Finset.Iio userPages) d.target q = 0
    refine hits_eq_zero fun v _ hv => ?_
    rw [PgDir.target, entry_of_no_tables h] at hv
    cases hv

end Uses

end OsCodes.Xv6

namespace OsCodes.Paging

open Refcount Xv6

theorem pgroundup_eq {sz : Nat} (h : sz ≤ kernbase) : pgroundup sz = pages sz := by
  have hlt : sz ≤ 2147483648 := h
  show (sz + 4096 - 1) % 4294967296 / 4096 = (sz + 4096 - 1) / 4096
  rw [Nat.mod_eq_of_lt (by omega)]

section Laws

variable {A : Allocator} {img : Image} {B : Books A img} {E : String → Prop} {R T : Refs Nat}
  {d d' d₁ d₂ : PgDir} {k k' k₁ k₂ : Kmem} {p v : Nat}

/-! ## Giving pages back -/

/-- Pages that are still referred to keep their contents. -/
def Kept (T : Refs Nat) (k k' : Kmem) : Prop := ∀ q, 0 < T.total q → k'.mem q = k.mem q

theorem Kept.trans (h : Kept T k k₁) (h' : Kept T k₁ k₂) : Kept T k k₂ :=
  fun q hq => (h' q hq).trans (h q hq)

theorem Kept.less {T' : Refs Nat} (h : Kept T k k') (hT : ∀ q, T'.total q ≤ T.total q) :
    Kept T' k k' := fun q hq => h q (Nat.lt_of_lt_of_le hq (hT q))

/-- A page that nobody refers to may be written. -/
theorem Kept.write (h : T.total p = 0) (hmem : k₁.mem = k.mem) (c : Page) :
    Kept T k { k₁ with mem := Function.update k₁.mem p c } := by
  intro q hq
  have hne : q ≠ p := ne_of_used hq h
  show Function.update k₁.mem p c q = _
  rw [Function.update_of_ne hne, hmem]

theorem Kept.of_mem (hmem : k'.mem = k.mem) : Kept T k k' := fun q _ => congrFun hmem q

/-- A page that nobody refers to is mapped nowhere. -/
theorem shared_fresh (h : (R + d.uses).total p = 0) : d.uses.shared p = 0 := by
  rw [Refs.total_add, Refs.total, Refs.total] at h
  omega

/-- **`kfree`** by a sharer. -/
theorem kfree_sharer (h : B.Acct k (T + .sharer p)) :
    Allows E (A.kfree img p k) fun k' => B.Acct k' T ∧ Kept T k k' := by
  refine B.kfree_spec h ?_ (fun q => ?_) (fun q => Nat.le_add_right _ _)
    (fun q => Nat.le_add_right _ _)
  · rw [Refs.total_add, Refs.total_sharer, hit_self]
    exact Nat.succ_pos _
  · rw [Refs.total_add, Refs.total_sharer]

/-- **`kfree`** by the owner. -/
theorem kfree_owner (h : B.Acct k (T + .owner p)) :
    Allows E (A.kfree img p k) fun k' => B.Acct k' T ∧ Kept T k k' := by
  refine B.kfree_spec h ?_ (fun q => ?_) (fun q => Nat.le_add_right _ _)
    (fun q => Nat.le_add_right _ _)
  · rw [Refs.total_add, Refs.total_owner, hit_self]
    exact Nat.succ_pos _
  · rw [Refs.total_add, Refs.total_owner]

/-! ## Mapping -/

/-- **`walkpgdir` with `alloc`** maps nothing; when it finds a page table, this is there. -/
theorem walkpgdirAlloc_spec (hv : v < vpages) (h : B.Acct k (R + d.uses)) :
    Allows E (walkpgdirAlloc A d v k) fun r =>
      B.Acct r.2.2 (R + r.2.1.uses) ∧ r.2.1.entry = d.entry ∧
      (r.1 = true → (r.2.1.table (pdx v)).isSome) ∧ r.2.2.mem = k.mem := by
  unfold walkpgdirAlloc
  split
  case h_1 t ht => exact .ok ⟨h, rfl, fun _ => by rw [ht]; rfl, rfl⟩
  case h_2 hnone =>
    apply (B.kalloc_spec h).bind
    rintro ⟨r, k₁⟩ htaken
    cases r with
    | none =>
      obtain rfl : k₁ = k := htaken
      exact .ok ⟨h, rfl, fun hno => (by cases hno), rfl⟩
    | some pgtab =>
      obtain ⟨-, howned, -, hmem⟩ := htaken
      refine .ok ⟨?_, entry_setPde hnone pgtab, fun _ => ?_, hmem⟩
      · show B.Acct k₁ (R + (d.setPde v pgtab).uses)
        rw [uses_setPde hv hnone, ← add_assoc]
        exact howned
      · show (Function.update d.table (pdx v) (some pgtab) (pdx v)).isSome
        rw [Function.update_self]
        rfl

/-- What `mappages` leaves for one user page: the reference to the page goes to the directory, or
    stays with the caller. -/
structure MapOne (B : Books A img) (R : Refs Nat) (d : PgDir) (k : Kmem) (v : Nat) (e : Pte)
    (mapped : Bool) (d' : PgDir) (k' : Kmem) : Prop where
  done : mapped = true → d.entry v = none ∧ B.Acct k' (R + d'.uses) ∧
    d'.entry = Function.update d.entry v (some e)
  failed : mapped = false → B.Acct k' (R + d'.uses + .sharer e.page) ∧ d'.entry = d.entry
  mem_eq : k'.mem = k.mem

/-- **`mappages` for one user page.** -/
theorem mappages_one {pa : Nat} {perm : Perm} (hv : v < userPages)
    (hremap : d.entry v ≠ none → E "remap") (h : B.Acct k (R + d.uses + .sharer pa)) :
    Allows E (mappages A d v 1 pa perm k) fun r =>
      MapOne B R d k v { toPerm := perm, page := pa, p := true } r.1 r.2.1 r.2.2 := by
  have hlt := userPages_lt
  rw [add_right_comm] at h
  rw [mappages]
  apply (walkpgdirAlloc_spec (by omega) h).bind
  rintro ⟨found, d₁, k₁⟩ ⟨hacct, hentry, htable, hmem⟩
  have hbooks : B.Acct k₁ (R + d₁.uses + .sharer pa) := by
    rw [add_right_comm]
    exact hacct
  have hentry : d₁.entry = d.entry := hentry
  cases found with
  | false => exact .ok ⟨fun hno => (by cases hno), fun _ => ⟨hbooks, hentry⟩, hmem⟩
  | true =>
    have ht : (d₁.table (pdx v)).isSome := htable rfl
    simp only [Bool.not_true, Bool.false_eq_true, if_false, mappages]
    split
    case isTrue hp =>
      refine .stop (hremap ?_)
      rw [← hentry, entry_eq_some.mpr ⟨walkpgdir_eq_some.mpr ⟨ht, rfl⟩, hp⟩]
      exact fun hno => by cases hno
    case isFalse hp =>
      have hnone : d₁.entry v = none := entry_eq_none fun e he => by
        rw [← (walkpgdir_eq_some.mp he).2]
        exact Bool.eq_false_iff.mpr hp
      have hset : (d₁.setPte v { toPerm := perm, page := pa, p := true }).entry =
          Function.update d₁.entry v (some { toPerm := perm, page := pa, p := true }) :=
        entry_setPte ht _
      refine .ok ⟨fun _ => ⟨by rw [← hentry]; exact hnone, ?_, by rw [← hentry]; exact hset⟩,
        fun hno => (by cases hno), hmem⟩
      rw [uses_map hv hnone hset rfl rfl, ← add_assoc]
      exact hbooks

/-- **`mappages` in the kernel part**: pages that nothing is mapped at yet. -/
theorem mappages_kernel {perm : Perm} : ∀ {n v pa : Nat} {d : PgDir} {k : Kmem},
    userPages ≤ v → v + n ≤ vpages → (∀ u, v ≤ u → u < v + n → d.entry u = none) →
    B.Acct k (R + d.uses) → Allows E (mappages A d v n pa perm k) fun r =>
      B.Acct r.2.2 (R + r.2.1.uses) ∧ SameOutside v (v + n) d r.2.1 ∧ r.2.2.mem = k.mem := by
  intro n
  induction n with
  | zero => exact fun _ _ _ h => .ok ⟨h, fun _ _ => rfl, rfl⟩
  | succ n ih =>
    intro v pa d k hv hend hnone h
    rw [mappages]
    apply (walkpgdirAlloc_spec (by omega) h).bind
    rintro ⟨found, d₁, k₁⟩ ⟨hacct, hentry, htable, hmem⟩
    have hentry : d₁.entry = d.entry := hentry
    cases found with
    | false => exact .ok ⟨hacct, .of_entry hentry, hmem⟩
    | true =>
      have ht : (d₁.table (pdx v)).isSome := htable rfl
      obtain ⟨hfree, hrest, houtside⟩ :=
        map_first { toPerm := perm, page := pa, p := true } ht hentry hnone
      simp only [hfree, Bool.not_true, Bool.false_eq_true, if_false]
      have huses : (d₁.setPte v { toPerm := perm, page := pa, p := true }).uses = d₁.uses := by
        refine uses_congr rfl rfl fun u hu => ?_
        rw [entry_setPte ht, Function.update_of_ne (by omega)]
      -- the rest of the pages
      refine (ih (by omega) (by omega) hrest (by rw [huses]; exact hacct)).mono ?_
      rintro ⟨mapped, d₂, k₂⟩ ⟨hacct₂, hentry₂, hmem₂⟩
      exact ⟨hacct₂, houtside d₂ hentry₂, hmem₂.trans hmem⟩

/-- Mapping ascending ranges leaves what lies before them. -/
theorem mapKernel_spec : ∀ {es : List Kmap} {lo : Nat} {d : PgDir} {k : Kmem},
    userPages ≤ lo → Ascending lo es → (∀ u, lo ≤ u → d.entry u = none) →
    B.Acct k (R + d.uses) → Allows E (mapKernel A d es k) fun r =>
      B.Acct r.2.2 (R + r.2.1.uses) ∧ (∀ u, u < lo → r.2.1.entry u = d.entry u) ∧
      r.2.2.mem = k.mem := by
  intro es
  induction es with
  | nil => exact fun _ _ _ h => .ok ⟨h, fun _ _ => rfl, rfl⟩
  | cons e es ih =>
    intro lo d k hlo hasc hnone h
    obtain ⟨hvirt, hend, hrest⟩ := hasc
    rw [mapKernel]
    apply (mappages_kernel (by omega) hend (fun u hu _ => hnone u (by omega)) h).bind
    rintro ⟨mapped, d₁, k₁⟩ ⟨hacct, hentry, hmem⟩
    obtain ⟨habove, hsame, hbelow⟩ := map_range hvirt hentry hnone
    cases mapped with
    | false => exact .ok ⟨hacct, hsame, hmem⟩
    | true =>
      refine (ih (by omega) hrest habove hacct).mono ?_
      rintro ⟨mapped, d₂, k₂⟩ ⟨hacct₂, hentry₂, hmem₂⟩
      exact ⟨hacct₂, hbelow d₂ hentry₂, hmem₂.trans hmem⟩

/-! ## Shrinking and freeing -/

/-- `d'` and `k'` come from `d` and `k` by unmapping the pages from `a` up to `b`. -/
structure Unmapped (B : Books A img) (R : Refs Nat) (d : PgDir) (k : Kmem) (a b : Nat)
    (d' : PgDir) (k' : Kmem) : Prop extends Cleared a b d d' where
  acct : B.Acct k' (R + d'.uses)
  less : ∀ q, d'.uses.total q ≤ d.uses.total q
  kept : Kept (R + d'.uses) k k'

theorem Unmapped.none {a b : Nat} (h : B.Acct k (R + d.uses)) (hle : b ≤ a) :
    Unmapped B R d k a b d k :=
  ⟨.none hle, h, fun _ => le_rfl, fun _ _ => rfl⟩

/-- Passing over pages that are not mapped. -/
theorem Unmapped.skip {a b last : Nat} (h : Unmapped B R d k b last d₁ k₁) (hab : a ≤ b)
    (hnone : ∀ u, a ≤ u → u < b → d.entry u = .none) : Unmapped B R d k a last d₁ k₁ :=
  ⟨h.toCleared.skip hab hnone, h.acct, h.less, h.kept⟩

/-- **Unmapping one page**, and then the pages after it. -/
theorem Unmapped.cons {a last : Nat} (h : Unmapped B R d k a (a + 1) d₁ k₁)
    (h' : Unmapped B R d₁ k₁ (a + 1) last d₂ k₂) (hlt : a < last) :
    Unmapped B R d k a last d₂ k₂ := by
  refine ⟨h.toCleared.cons h'.toCleared hlt, h'.acct, fun q => (h'.less q).trans (h.less q), ?_⟩
  refine (h.kept.less fun q => ?_).trans h'.kept
  rw [Refs.total_add, Refs.total_add]
  exact Nat.add_le_add_left (h'.less q) _

/-- Freeing the page of one entry. -/
theorem unmap_spec {e : Pte} (hv : v < userPages) (he : d.entry v = some e)
    (h : B.Acct k (R + d.uses)) : Allows E (A.kfree img e.page k) fun k' =>
      Unmapped B R d k v (v + 1) (d.setPte v .zero) k' := by
  obtain ⟨ht, -⟩ := walkpgdir_eq_some.mp (entry_eq_some.mp he).1
  have hset : (d.setPte v .zero).entry = Function.update d.entry v none := entry_setPte ht _
  have huses := uses_unmap hv he hset rfl rfl
  rw [huses, ← add_assoc] at h
  refine (kfree_sharer h).mono ?_
  rintro k₁ ⟨hacct, hkept⟩
  refine ⟨.of_update hset, hacct, fun q => ?_, hkept⟩
  rw [huses, Refs.total_add]
  exact Nat.le_add_right _ _

/-- A page that is referred to is not page 0. -/
theorem page_ne_zero {T : Refs Nat} (h : B.Acct k T) (hp : 0 < T.total p) : p ≠ 0 := by
  have hvalid := (B.valid ((B.ledger h).used _ hp)).1
  have hdata := Nat.zero_lt_of_lt img.data_lt
  have hle := img.data_le
  omega

/-- **The loop of `deallocuvm`** unmaps the pages from `a` up to `last`. -/
theorem deallocLoop_spec {a last : Nat} {panic : String} (hlast : last ≤ userPages)
    (h : B.Acct k (R + d.uses)) : Allows E (deallocLoop (A.kfree img) panic d a last k) fun r =>
      Unmapped B R d k a last r.1 r.2 := by
  refine deallocLoop_rule (I := fun d k => B.Acct k (R + d.uses))
    (Q := fun a d k => Unmapped B R d k a last) .none (fun hab hnone hpost => hpost.skip hab hnone)
    (fun h hlt he hzero => ?_) (fun h hlt he => ?_) rfl h
  · refine absurd hzero (page_ne_zero h ?_)
    rw [Refs.total_add]
    exact Nat.add_pos_right _ (uses_pos (by omega) he)
  · exact (unmap_spec (by omega) he h).mono fun _ hfirst =>
      ⟨hfirst.acct, fun _ _ hrest => hfirst.cons hrest hlt⟩

/-- **`deallocuvm`** unmaps what lies above the new size. -/
theorem deallocuvm_spec {oldsz newsz : Nat} (hold : oldsz ≤ kernbase) (h : B.Acct k (R + d.uses)) :
    Allows E (deallocuvm A img d oldsz newsz k) fun r =>
      Unmapped B R d k (pages newsz) (pages oldsz) r.2.1 r.2.2 ∧
      r.1 = if oldsz ≤ newsz then oldsz else newsz := by
  rw [deallocuvm]
  split
  case isTrue hle => exact .ok ⟨.none h (pages_mono hle), rfl⟩
  case isFalse hlt =>
    rw [pgroundup_eq (by omega)]
    apply (deallocLoop_spec (pages_le hold) h).bind
    rintro ⟨d₁, k₁⟩ hpost
    exact .ok ⟨hpost, rfl⟩

/-- What the directory entries from `i` up to `last` own. -/
def tablesFrom (d : PgDir) (i last : Nat) : Refs Nat :=
  ⟨hits (Finset.Ico i last) d.table, fun _ => 0⟩

theorem tablesFrom_own {i last : Nat} (hi : i < last) (d : PgDir) (q : Nat) :
    (tablesFrom d i last).own q = (tablesFrom d (i + 1) last).own q + hit (d.table i) q :=
  hits_Ico hi d.table q

theorem tablesFrom_self (d : PgDir) (last : Nat) : tablesFrom d last last = 0 := by
  refine Refs.eq_of (fun q => ?_) (fun _ => rfl)
  show hits (Finset.Ico last last) d.table q = 0
  exact hits_eq_zero fun j hj => by rw [Finset.mem_Ico] at hj; omega

/-- Freeing the page tables of the directory entries from `i`. -/
theorem freeLoop_spec {i n last : Nat} (hend : i + n = last)
    (h : B.Acct k (R + tablesFrom d i last)) :
    Allows E (freeLoop (A.kfree img) d i n k) fun k' => B.Acct k' R ∧ Kept R k k' := by
  refine (freeLoop_rule last (I := fun j k' =>
    B.Acct k' (R + tablesFrom d j last) ∧ Kept R k k') ?_ ?_ hend ⟨h, fun _ _ => rfl⟩).mono ?_
  · rintro j k₁ hj ht ⟨hacct, hkept⟩
    have hsame : tablesFrom d j last = tablesFrom d (j + 1) last := by
      refine Refs.eq_of (fun q => ?_) (fun _ => rfl)
      rw [tablesFrom_own hj, ht, hit_none, Nat.add_zero]
    rw [hsame] at hacct
    exact ⟨hacct, hkept⟩
  · rintro j k₁ pgtab hj ht ⟨hacct, hkept⟩
    have hsplit : tablesFrom d j last = tablesFrom d (j + 1) last + .owner pgtab := by
      refine Refs.eq_of (fun q => ?_) (fun _ => rfl)
      rw [tablesFrom_own hj, ht]
      rfl
    rw [hsplit, ← add_assoc] at hacct
    refine (kfree_owner hacct).mono ?_
    rintro k₂ ⟨hacct₂, hkept₂⟩
    refine ⟨hacct₂, hkept.trans (hkept₂.less fun q => ?_)⟩
    rw [Refs.total_add]
    exact Nat.le_add_right _ _
  · rintro k₁ ⟨hacct, hkept⟩
    rw [tablesFrom_self, add_zero] at hacct
    exact ⟨hacct, hkept⟩

/-- **`freevm`** takes back all that the directory refers to. -/
theorem freevm_spec (h : B.Acct k (R + d.uses)) :
    Allows E (freevm A img d k) fun k' => B.Acct k' R ∧ Kept R k k' := by
  rw [freevm]
  apply (deallocuvm_spec le_rfl h).bind
  rintro ⟨_, d₁, k₁⟩ ⟨hgone, -⟩
  have hgone : Unmapped B R d k (pages 0) (pages kernbase) d₁ k₁ := hgone
  -- nothing is left but the page tables and the directory itself
  have huses : d₁.uses = .owner d₁.page + tablesFrom d₁ 0 1024 := by
    refine Refs.eq_of (fun q => ?_) (fun q => ?_)
    · have hall : Finset.Iio 1024 = Finset.Ico 0 1024 := by
        ext i
        rw [Finset.mem_Iio, Finset.mem_Ico]
        omega
      show hit (some d₁.page) q + hits (Finset.Iio 1024) d₁.table q = _
      rw [hall]
      rfl
    · show hits (Finset.Iio userPages) d₁.target q = 0
      refine hits_eq_zero fun v hv hq => ?_
      have hlt : v < pages kernbase := by
        rw [pages_kernbase]
        exact Finset.mem_Iio.mp hv
      rw [PgDir.target, hgone.inside v (Nat.zero_le v) hlt] at hq
      cases hq
  have hacct := hgone.acct
  rw [huses, ← add_assoc] at hacct
  have hmore : ∀ q, R.total q ≤ (R + d₁.uses).total q := fun q => by
    rw [Refs.total_add]
    exact Nat.le_add_right _ _
  apply (freeLoop_spec (Nat.zero_add 1024) hacct).bind
  rintro k₂ ⟨hacct₂, hkept₂⟩
  refine (kfree_owner hacct₂).mono ?_
  rintro k₃ ⟨hacct₃, hkept₃⟩
  refine ⟨hacct₃, ((hgone.kept.less hmore).trans (hkept₂.less fun q => ?_)).trans hkept₃⟩
  rw [Refs.total_add]
  exact Nat.le_add_right _ _

/-! ## The kernel part -/

/-- What a new directory is: an empty user part. -/
def NewDir (B : Books A img) (R : Refs Nat) (k : Kmem) : Option PgDir × Kmem → Prop
  | (none, k') => B.Acct k' R ∧ Kept R k k'
  | (some d, k') => B.Acct k' (R + d.uses) ∧ (∀ v, v < userPages → d.entry v = none) ∧
      Kept R k k'

/-- **`setupkvm`** makes a directory, or takes nothing. -/
theorem setupkvm_spec (h : B.Acct k R) : Allows E (setupkvm A img k) (NewDir B R k) := by
  rw [setupkvm]
  apply (B.kalloc_spec h).bind
  rintro ⟨r, k₁⟩ htaken
  cases r with
  | none =>
    obtain rfl : k₁ = k := htaken
    exact .ok ⟨h, fun _ _ => rfl⟩
  | some pgdir =>
    obtain ⟨-, howned, -, hmem⟩ := htaken
    -- the physical memory ends below the devices
    show Allows E (if devspace < kernbase + phystop then _ else _) _
    rw [if_neg (by decide)]
    show Allows E (mapKernel A ⟨pgdir, fun _ => none, fun _ => .zero⟩ (kmap img) k₁ >>= _) _
    generalize hd : PgDir.mk pgdir (fun _ => none) (fun _ => .zero) = d
    have htable : ∀ i, d.table i = none := fun i => by rw [← hd]
    have hnone := entry_of_no_tables htable
    have hstart : B.Acct k₁ (R + d.uses) := by
      rw [uses_no_table htable, ← hd]
      exact howned
    apply (mapKernel_spec le_rfl (kmap_ascending img) (fun u _ => hnone u) hstart).bind
    rintro ⟨mapped, d₁, k₂⟩ ⟨hacct, hentry, hmem₂⟩
    have hsame : k₂.mem = k.mem := hmem₂.trans hmem
    cases mapped with
    | true => exact .ok ⟨hacct, fun v hv => (hentry v hv).trans (hnone v), .of_mem hsame⟩
    | false =>
      apply (freevm_spec hacct).bind
      rintro k₃ ⟨hacct₃, hkept⟩
      exact .ok ⟨hacct₃, (Kept.of_mem hsame).trans hkept⟩

/-! ## Growing -/

/-- `d'` comes from `d` by mapping the pages from `a` up to `b`, or some of them: new pages for the
    user to read and write. -/
structure Grown (d : PgDir) (a b : Nat) (d' : PgDir) : Prop where
  inside : ∀ u, a ≤ u → u < b → ∀ e, d'.entry u = some e → e.toPerm = ⟨true, true, false⟩
  outside : ∀ u, ¬ (a ≤ u ∧ u < b) → d'.entry u = d.entry u

/-- What `allocuvm` leaves: all the pages, or none of them. -/
structure Alloced (B : Books A img) (R : Refs Nat) (d : PgDir) (a b newsz r : Nat) (d' : PgDir)
    (k' : Kmem) : Prop where
  acct : B.Acct k' (R + d'.uses)
  grown : Grown d a b d'
  single : d.Single → d'.Single
  done : (r = newsz ∧ ∀ u, a ≤ u → u < b → d'.entry u ≠ none) ∨
    (r = 0 ∧ ∀ u, a ≤ u → u < b → d'.entry u = none)

/-- Giving up: what was mapped from `lo` on is unmapped again. -/
theorem Unmapped.undo {lo last a : Nat} (h : Unmapped B R d k lo last d' k')
    (hsame : ∀ u, ¬ (lo ≤ u ∧ u < a) → d.entry u = d₁.entry u) (hlast : a ≤ last) (newsz : Nat) :
    Alloced B R d₁ lo last newsz 0 d' k' := by
  have hout : ∀ u, ¬ (lo ≤ u ∧ u < last) → d'.entry u = d₁.entry u := fun u hu => by
    rw [h.outside u hu, hsame u (by omega)]
  refine ⟨h.acct, ⟨fun u hu hlt e he => ?_, hout⟩, fun hd => hd.less fun u e he he' => ?_,
    .inr ⟨rfl, h.inside⟩⟩
  · rw [h.inside u hu hlt] at he
    cases he
  · by_cases hu : lo ≤ u ∧ u < last
    · rw [h.inside u hu.1 hu.2] at he'
      cases he'
    · exact ⟨e, by rw [← hout u hu, he'], rfl⟩

/-- **The loop of `allocuvm`** at page `a`, from directory `d₀` and page `lo` on. -/
theorem allocLoop_spec {oldsz newsz : Nat} {d₀ : PgDir} (hnew : newsz < kernbase) :
    ∀ {n a : Nat} {d : PgDir} {k : Kmem}, pages oldsz ≤ a → a + n = pages newsz →
    (∀ u, a ≤ u → u < a + n → d.entry u ≠ none → E "remap") →
    Grown d₀ (pages oldsz) a d → (d₀.Single → d.Single) →
    (∀ u, pages oldsz ≤ u → u < a → d.entry u ≠ none) →
    B.Acct k (R + d.uses) → Allows E (allocLoop A img oldsz newsz d a n k) fun r =>
      Alloced B R d₀ (pages oldsz) (pages newsz) newsz r.1 r.2.1 r.2.2 := by
  have hlast := pages_le (Nat.le_of_lt hnew)
  intro n
  induction n with
  | zero =>
    intro a d k _ hend _ hgrown hsingle hdone h
    obtain rfl : a = pages newsz := by omega
    exact .ok ⟨h, hgrown, hsingle, .inl ⟨rfl, hdone⟩⟩
  | succ n ih =>
    intro a d k hlo hend hremap hgrown hsingle hdone h
    rw [allocLoop]
    apply (B.kalloc_spec h).bind
    rintro ⟨r, k₁⟩ htaken
    cases r with
    | none =>
      obtain rfl : k₁ = k := htaken
      apply (deallocuvm_spec (Nat.le_of_lt hnew) h).bind
      rintro ⟨_, d₁, k₂⟩ ⟨hgone, -⟩
      exact .ok (hgone.undo hgrown.outside (by omega) newsz)
    | some mem =>
      obtain ⟨hfresh, -, hshared, -⟩ := htaken
      apply (mappages_one (by omega) (hremap a le_rfl (by omega)) (B.setMem _ hshared)).bind
      rintro ⟨mapped, d₁, k₂⟩ hpost
      have hpost : MapOne B R d _ a _ mapped d₁ k₂ := hpost
      cases mapped with
      | false =>
        obtain ⟨hacct, hentry⟩ := hpost.failed rfl
        rw [add_right_comm] at hacct
        apply (deallocuvm_spec (Nat.le_of_lt hnew) hacct).bind
        rintro ⟨_, d₂, k₃⟩ ⟨hgone, -⟩
        have hgone : Unmapped B (R + .sharer mem) d₁ k₂ _ _ d₂ k₃ := hgone
        have hsame : ∀ u, ¬ (pages oldsz ≤ u ∧ u < a) → d₁.entry u = d₀.entry u := fun u hu =>
          (congrFun hentry u).trans (hgrown.outside u hu)
        have hundo := hgone.undo hsame (by omega) newsz
        have hacct₂ := hgone.acct
        rw [add_right_comm] at hacct₂
        apply (kfree_sharer hacct₂).bind
        rintro k₄ ⟨hacct₄, -⟩
        exact .ok ⟨hacct₄, hundo.grown, hundo.single, hundo.done⟩
      | true =>
        obtain ⟨-, hacct, hentry⟩ := hpost.done rfl
        refine ih (by omega) (by omega) (fun u hu hlt hne => ?_) ⟨fun u hu hlt e he => ?_,
          fun u hu => ?_⟩ (fun hd => (hsingle hd).update (by omega) hentry ?_)
          (fun u hu hlt => ?_) hacct
        · refine hremap u (by omega) (by omega) ?_
          rwa [hentry, Function.update_of_ne (by omega)] at hne
        · by_cases hua : u = a
          · rw [hentry, hua, Function.update_self] at he
            rw [← Option.some.inj he]
          · rw [hentry, Function.update_of_ne hua] at he
            exact hgrown.inside u hu (by omega) e he
        · rw [hentry, Function.update_of_ne (by omega)]
          exact hgrown.outside u (by omega)
        · exact shared_fresh hfresh
        · by_cases hua : u = a
          · rw [hentry, hua, Function.update_self]
            exact fun hno => by cases hno
          · rw [hentry, Function.update_of_ne hua]
            exact hdone u hu (by omega)

/-- **`allocuvm`** maps all the new pages, or takes nothing but page tables. -/
theorem allocuvm_spec {oldsz newsz : Nat} (hnew : newsz < kernbase) (hle : oldsz ≤ newsz)
    (hremap : ∀ u, pages oldsz ≤ u → u < pages newsz → d.entry u ≠ none → E "remap")
    (h : B.Acct k (R + d.uses)) : Allows E (allocuvm A img d oldsz newsz k) fun r =>
      Alloced B R d (pages oldsz) (pages newsz) newsz r.1 r.2.1 r.2.2 := by
  have hpages := pages_mono hle
  rw [allocuvm, if_neg (by omega), if_neg (by omega), pgroundup_eq (by omega)]
  refine allocLoop_spec hnew le_rfl (by omega) (fun u hu hlt => hremap u hu (by omega))
    ⟨fun u hu hlt => ?_, fun _ _ => rfl⟩ id (fun u hu hlt => ?_) h
  · omega
  · omega

/-- An entry without `PTE_U`. -/
def Pte.noUser (e : Pte) : Pte := { e with u := false }

/-- **`clearpteu`** takes a permission away; the same pages are mapped. -/
theorem clearpteu_spec (hstop : E "clearpteu") :
    Allows E (clearpteu d v) fun d' => d'.uses = d.uses ∧
      ∀ u, d'.entry u = d.entry u ∨ d'.entry u = (d.entry u).map Pte.noUser := by
  rw [clearpteu]
  split
  case h_1 => exact .stop hstop
  case h_2 pte hwalk =>
    obtain ⟨ht, -⟩ := walkpgdir_eq_some.mp hwalk
    generalize hd : d.setPte v { pte with u := false } = d'
    have hentry : ∀ u, d'.entry u = d.entry u ∨ d'.entry u = (d.entry u).map Pte.noUser := by
      intro u
      rw [← hd, entry_setPte ht]
      by_cases huv : u = v
      · rw [huv, Function.update_self, PgDir.entry, hwalk]
        cases hp : pte.p with
        | false =>
          rw [if_neg Bool.false_ne_true, Option.filter_some_neg (by rw [hp])]
          exact .inl rfl
        | true =>
          rw [if_pos rfl, Option.filter_some_pos hp, Option.map_some, Pte.noUser, hp]
          exact .inr rfl
      · rw [Function.update_of_ne huv]
        exact .inl rfl
    refine .ok ⟨Refs.eq_of (fun q => ?_) (fun q => ?_), hentry⟩
    · show hit (some d'.page) q + hits (Finset.Iio 1024) d'.table q = _
      rw [← hd]
      rfl
    · show hits (Finset.Iio userPages) d'.target q = hits (Finset.Iio userPages) d.target q
      refine hits_congr (fun u _ => ?_) q
      rw [PgDir.target, PgDir.target]
      cases hentry u with
      | inl heq => rw [heq]
      | inr heq =>
        rw [heq, Option.map_map]
        rfl

end Laws

end OsCodes.Paging
