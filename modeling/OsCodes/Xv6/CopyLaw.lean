/-
  The two versions of `copyuvm` and what the two kernels do at a page fault, with every error path.

  Sharing takes pages for the child's page tables only; when one is missing, the pages shared so far
  stay copy-on-write in the parent, and the books are as before.  Copying takes a page for each page
  of the parent as well, and stops at the first page that is absent if memory lasts until there.

  Structure:

  1. some user page of a directory is always absent, because there are fewer pages of memory than
     user pages (`exists_absent`); so a loop over present pages stays below `KERNBASE`, whatever
     the size;
  2. `Cow.copyLoop_spec`: `SharedTo` is what the parent's directory becomes and `ChildTo` the
     child's.  The loop fails only when a page table is missing, and then `kfree` drops the
     reference that was taken for the page at hand;
  3. `Eager.copyLoop_spec`: each page is copied before it is mapped; a failure leaves the pages
     copied so far to `freevm`;
  4. the two `copyuvm_spec` give the child back completely where it cannot be finished;
  5. `handlePgfltHelper_spec` and `allocateOnPgflt_spec` are the two handlers.
-/
import OsCodes.Xv6.Cost

namespace OsCodes.Paging

open Refcount Xv6

variable {img : Image} {pool : Finset Nat} {hvalid : ∀ p ∈ pool, img.endPage ≤ p ∧ p < frames}
  {E : String → Prop} {R : Refs Nat} {pgdir pgdir' d d' : PgDir} {k k' : Kmem} {v : Nat}

/-- The page tables for `n` user pages and the kernel part. -/
theorem card_tables {n : Nat} (hn : n ≤ userPages) :
    (kernelTabs ∪ span 0 n).card = 64 + (n + 1023) / 1024 := by
  have hlt : n ≤ 524288 := hn
  have hapart : Disjoint kernelTabs (Finset.Iio ((n + 1023) / 1024)) :=
    Finset.disjoint_left.mpr fun i hi hi' => by
      rw [Finset.mem_Iio] at hi'
      rw [kernelTabs, Finset.mem_union, Finset.mem_Ico, Finset.mem_Ico] at hi
      omega
  rw [span_first, Finset.card_union_of_disjoint hapart, card_kernelTabs, Nat.card_Iio]

/-- **There are fewer pages of memory than user pages**, so some user page is absent. -/
theorem exists_absent {A : Allocator} {B : Books A img} (hd : d.Single)
    (h : B.Acct k (R + d.uses)) : ∃ v, v < userPages ∧ d.entry v = none := by
  by_contra hall
  have hpresent : ∀ v, v < userPages → ∃ e, d.entry v = some e := fun v hv => by
    cases he : d.entry v with
    | some e => exact ⟨e, rfl⟩
    | none => exact absurd ⟨v, hv, he⟩ hall
  have : Nonempty Pte := ⟨.zero⟩
  choose! e he using hpresent
  have hin : ∀ v ∈ Finset.Iio userPages, (e v).page ∈ Finset.Iio frames := by
    intro v hv
    have hlt := Finset.mem_Iio.mp hv
    have hpos := uses_pos hlt (he v hlt)
    refine Finset.mem_Iio.mpr (B.valid ((B.ledger h).used _ ?_)).2
    rw [Refs.total_add]
    omega
  have hinj : Set.InjOn (fun v => (e v).page) (Finset.Iio userPages : Finset Nat) := by
    intro u hu v hv heq
    by_contra huv
    have hmem : ∀ {w}, w ∈ (Finset.Iio userPages : Finset Nat) → d.target w = some (e w).page :=
      fun hw => by
        rw [PgDir.target, he _ (Finset.mem_Iio.mp hw)]
        rfl
    have hu := Finset.mem_coe.mp hu
    have hv := Finset.mem_coe.mp hv
    have heq : (e u).page = (e v).page := heq
    have htwo := hits_two huv hu hv (hmem hu) (by rw [heq]; exact hmem hv)
    exact absurd (hd (e u).page) (Nat.not_le_of_lt htwo)
  have hcard := Finset.card_le_card_of_injOn _ hin hinj
  rw [Nat.card_Iio, Nat.card_Iio, userPages_eq, frames_eq] at hcard
  omega

/-- Up to an absent page there are only user pages. -/
theorem lt_of_gap {u : Nat} (hgap : ∃ v, v < userPages ∧ d.entry v = none)
    (hw : ∀ w, w < u → d.entry w ≠ none) : u < userPages := by
  obtain ⟨v, hv, hnone⟩ := hgap
  by_contra hge
  exact hw v (by omega) hnone

/-! ## Sharing -/

/-- `pgdir'` is `pgdir` with the pages below `j` made copy-on-write. -/
structure SharedTo (pgdir : PgDir) (j : Nat) (pgdir' : PgDir) : Prop where
  page_eq : pgdir'.page = pgdir.page
  table_eq : pgdir'.table = pgdir.table
  entry_eq : ∀ v, pgdir'.entry v = if v < j then (pgdir.entry v).map Pte.share else pgdir.entry v

theorem SharedTo.zero (pgdir : PgDir) : SharedTo pgdir 0 pgdir :=
  ⟨rfl, rfl, fun v => by rw [if_neg (Nat.not_lt_zero v)]⟩

/-- **Sharing moves no reference** of the parent: it loses permissions only. -/
theorem SharedTo.uses_eq {j : Nat} (h : SharedTo pgdir j pgdir') : pgdir'.uses = pgdir.uses := by
  refine Refs.eq_of (fun q => ?_) (fun q => ?_)
  · show hit (some pgdir'.page) q + hits (Finset.Iio 1024) pgdir'.table q = _
    rw [h.page_eq, h.table_eq]
    rfl
  · show hits (Finset.Iio userPages) pgdir'.target q = hits (Finset.Iio userPages) pgdir.target q
    refine hits_congr (fun u _ => ?_) q
    rw [PgDir.target, PgDir.target, h.entry_eq]
    split
    case isTrue => rw [Option.map_map]; rfl
    case isFalse => rfl

/-- One page more. -/
theorem SharedTo.succ {j : Nat} {e : Pte} (h : SharedTo pgdir j pgdir')
    (he : pgdir'.entry j = some e) : SharedTo pgdir (j + 1) (pgdir'.setPte j e.share) := by
  obtain ⟨hwalk, hp⟩ := entry_eq_some.mp he
  obtain ⟨ht, -⟩ := walkpgdir_eq_some.mp hwalk
  have hshare : e.share.p = true := hp
  refine ⟨h.page_eq, h.table_eq, fun u => ?_⟩
  rw [entry_setPte ht, if_pos hshare]
  by_cases hu : u = j
  · have hold := h.entry_eq j
    rw [if_neg (Nat.lt_irrefl j), he] at hold
    rw [hu, Function.update_self, if_pos (Nat.lt_succ_self j), ← hold]
    rfl
  · rw [Function.update_of_ne hu, h.entry_eq]
    by_cases hlt : u < j
    · rw [if_pos hlt, if_pos (by omega)]
    · rw [if_neg hlt, if_neg (by omega)]

/-- What holds at `i` and from `i + 1` on holds from `i` on. -/
theorem from_succ {P : Nat → Prop} {i : Nat} (hi : P i) (h : ∀ w, i + 1 ≤ w → P w) (w : Nat)
    (hw : i ≤ w) : P w := by
  rcases Nat.eq_or_lt_of_le hw with rfl | hlt
  · exact hi
  · exact h w hlt

namespace Cow

/-- The child's user part when the pages of `pgdir` below `j` are shared. -/
def ChildTo (pgdir : PgDir) (j : Nat) (d : PgDir) : Prop :=
  ∀ v, v < userPages → d.entry v = if v < j then (pgdir.entry v).map Pte.share else none

/-- What the loop of `copyuvm` leaves from page `i` up to `last`. -/
structure Looped (B : Books counted img) (R : Refs Nat) (pgdir d : PgDir) (k : Kmem)
    (i last : Nat) (copied : Bool) (pgdir' d' : PgDir) (k' : Kmem) : Prop where
  acct : B.Acct k' (R + pgdir.uses + d'.uses)
  kept : Kept (R + pgdir.uses) k k'
  done : copied = true → SharedTo pgdir last pgdir' ∧ ChildTo pgdir last d' ∧
    ∀ u, i ≤ u → u < last → pgdir.entry u ≠ none
  failed : copied = false → ∃ j, j ≤ last ∧ SharedTo pgdir j pgdir'
  fits : copied = true ↔ (d.tabs ∪ span i (last - i)).card ≤ room d k
  room_eq : copied = true → room d' k' = room d k

/-- One page more. -/
theorem ChildTo.succ {i : Nat} {e : Pte} (h : ChildTo pgdir i d) (he : pgdir.entry i = some e)
    (hset : d'.entry = Function.update d.entry i (some e.share)) : ChildTo pgdir (i + 1) d' := by
  intro u hu
  rw [hset]
  by_cases hui : u = i
  · rw [hui, Function.update_self, if_pos (Nat.lt_succ_self i), he]
    rfl
  · rw [Function.update_of_ne hui, h u hu]
    by_cases hlt : u < i
    · rw [if_pos hlt, if_pos (by omega)]
    · rw [if_neg hlt, if_neg (by omega)]

/-- The loop is through with its first page. -/
theorem Looped.cons {B : Books counted img} {i last : Nat} {d₁ d₂ : PgDir} {k₁ k₂ : Kmem}
    {copied : Bool} (hi : i < last) (hpresent : pgdir.entry i ≠ none) (hmem : k₁.mem = k.mem)
    (htabs : d₁.tabs = d.tabs ∪ span i 1) (hroom : room d₁ k₁ = room d k)
    (h : Looped B R pgdir d₁ k₁ (i + 1) last copied pgdir' d₂ k₂) :
    Looped B R pgdir d k i last copied pgdir' d₂ k₂ := by
  refine ⟨h.acct, (Kept.of_mem hmem).trans h.kept, fun hc => ?_, h.failed, ?_,
    fun hc => (h.room_eq hc).trans hroom⟩
  · obtain ⟨hs, hd, hall⟩ := h.done hc
    exact ⟨hs, hd, from_succ (fun _ => hpresent) hall⟩
  · have hfits := h.fits
    rwa [htabs, hroom, Finset.union_assoc, ← span_cons hi] at hfits

/-- **The loop of `copyuvm`** at page `i`, from the parent's directory `pgdir₀` on. -/
theorem copyLoop_spec {pgdir₀ : PgDir} {last : Nat}
    (habsent : ∀ u, u < last → pgdir₀.entry u = none →
      E "copyuvm: pte should exist" ∧ E "copyuvm: page not present") :
    ∀ {n i : Nat} {pgdir d : PgDir} {k : Kmem}, i + n = last →
    (∀ u, i ≤ u → u < last → (∀ w, i ≤ w → w ≤ u → pgdir₀.entry w ≠ none) → u < userPages) →
    SharedTo pgdir₀ i pgdir → ChildTo pgdir₀ i d →
    (Counted.books img pool hvalid).Acct k (R + pgdir₀.uses + d.uses) →
    Allows E (copyLoop img pgdir d i n k) fun r =>
      Looped (Counted.books img pool hvalid) R pgdir₀ d k i last r.1 r.2.1 r.2.2.1 r.2.2.2 := by
  intro n
  induction n with
  | zero =>
    intro i pgdir d k hend _ hshared hchild h
    obtain rfl : i = last := hend
    refine .ok ⟨h, fun _ _ => rfl, fun _ => ⟨hshared, hchild, fun u hu hlt => by omega⟩,
      fun hno => (by cases hno), ⟨fun _ => ?_, fun _ => rfl⟩, fun _ => rfl⟩
    rw [Nat.sub_self, span_zero, Finset.union_empty]
    exact Nat.le_add_left _ _
  | succ n ih =>
    intro i pgdir d k hend huser hshared hchild h
    have hall := userPages_lt
    have hsame : pgdir.entry i = pgdir₀.entry i := by
      rw [hshared.entry_eq, if_neg (Nat.lt_irrefl i)]
    have hstop : pgdir.entry i = none →
        E "copyuvm: pte should exist" ∧ E "copyuvm: page not present" := fun hnone =>
      habsent i (by omega) (hsame.symm.trans hnone)
    rw [copyLoop]
    split
    case h_1 hwalk =>
      exact .stop (hstop (entry_eq_none fun e he => by rw [hwalk] at he; cases he)).1
    case h_2 pte hwalk =>
      cases hp : pte.p with
      | false =>
        refine .stop (hstop (entry_eq_none fun e he => ?_)).2
        rw [hwalk] at he
        rw [← Option.some.inj he, hp]
      | true =>
        have he : pgdir.entry i = some pte := entry_eq_some.mpr ⟨hwalk, hp⟩
        have he₀ : pgdir₀.entry i = some pte := hsame.symm.trans he
        have hpresent : pgdir₀.entry i ≠ none := by
          rw [he₀]
          exact fun hno => by cases hno
        have hiu : i < userPages := huser i le_rfl (by omega) fun w hw hle => by
          rw [Nat.le_antisymm hle hw]
          exact hpresent
        have hnext := hshared.succ he
        simp only [Bool.not_true, Bool.false_eq_true, if_false]
        have hpos : 0 < (R + pgdir₀.uses + d.uses).shared pte.page := by
          have hmaps := uses_shared_pos hiu he₀
          rw [Refs.add_shared, Refs.add_shared]
          omega
        apply (Counted.incrementRefCount_spec (p := pte.page) hvalid h hpos).bind
        rintro k₁ ⟨hacct, hmem, hfree⟩
        have hnone : d.entry i ≠ none → E "remap" := fun hne => by
          rw [hchild i hiu, if_neg (Nat.lt_irrefl i)] at hne
          exact absurd rfl hne
        have hacct : (Counted.books img pool hvalid).Acct k₁
            (R + pgdir₀.uses + d.uses + .sharer pte.page) := hacct
        apply ((mappages_one hiu hnone hacct).and
          (mappages_cost (by omega))).bind
        rintro ⟨mapped, d₁, k₂⟩ ⟨hone, htakes⟩
        have hone : MapOne (Counted.books img pool hvalid) (R + pgdir₀.uses) d k₁ i
          { toPerm := pte.share.toPerm, page := pte.page, p := true } mapped d₁ k₂ := hone
        have htakes : Takes (span i 1) d k₁ mapped d₁ k₂ := htakes
        have hroom : room d k₁ = room d k := by rw [room, room, hfree]
        have hmem₂ : k₂.mem = k.mem := hone.mem_eq.trans hmem
        cases mapped with
        | false =>
          obtain ⟨hback, -⟩ := hone.failed rfl
          apply (kfree_sharer hback).bind
          rintro k₃ ⟨hacct₃, hkept⟩
          refine .ok ⟨hacct₃, (Kept.of_mem hmem₂).trans (hkept.less fun q => ?_),
            fun hno => (by cases hno), fun _ => ⟨i + 1, by omega, hnext⟩,
            ⟨fun hno => (by cases hno), fun hle => ?_⟩, fun hno => (by cases hno)⟩
          · rw [Refs.total_add _ d₁.uses]
            exact Nat.le_add_right _ _
          · have hlt := htakes.failed rfl
            rw [hroom] at hlt
            have hsub : span i 1 ⊆ span i (last - i) := by
              rw [span_cons (by omega)]
              exact Finset.subset_union_left
            have hle' := Finset.card_le_card (Finset.union_subset_union_right (s := d.tabs) hsub)
            omega
        | true =>
          obtain ⟨-, hacct₂, hentry⟩ := hone.done rfl
          have heta : ({ toPerm := pte.share.toPerm, page := pte.page, p := true } : Pte) =
              pte.share := by
            rw [← hp]
            rfl
          rw [heta] at hentry
          refine (ih (by omega) (fun u hu hlt hw => ?_) hnext (hchild.succ he₀ hentry) hacct₂).mono
            fun r hrest => ?_
          · exact huser u (by omega) hlt (from_succ (fun _ => hpresent) hw)
          · exact hrest.cons (by omega) hpresent hmem₂ (htakes.done rfl)
              (htakes.room_eq.trans hroom)

/-- What `copyuvm` leaves. -/
structure Forked (B : Books counted img) (R : Refs Nat) (pgdir : PgDir) (sz : Nat) (k : Kmem)
    (child : Option PgDir) (pgdir' : PgDir) (k' : Kmem) : Prop where
  kept : Kept (R + pgdir.uses) k k'
  failed : child = none → B.Acct k' (R + pgdir.uses) ∧ ∃ j, j ≤ pages sz ∧ SharedTo pgdir j pgdir'
  done : ∀ d, child = some d → B.Acct k' (R + pgdir.uses + d.uses) ∧
    SharedTo pgdir (pages sz) pgdir' ∧ ChildTo pgdir (pages sz) d ∧
    ∀ u, u < pages sz → pgdir.entry u ≠ none
  fits : pages sz ≤ userPages → (child.isSome ↔ 65 + (pages sz + 1023) / 1024 ≤ k.freelist.length)
  room_eq : ∀ d, child = some d → room d k' + 1 = k.freelist.length

/-- **`copyuvm` of xv6-public(1)** shares all pages, or gives back what it took. -/
theorem copyuvm_spec {sz : Nat} (hgap : ∃ v, v < userPages ∧ pgdir.entry v = none)
    (habsent : ∀ u, u < pages sz → pgdir.entry u = none →
      E "copyuvm: pte should exist" ∧ E "copyuvm: page not present")
    (h : (Counted.books img pool hvalid).Acct k (R + pgdir.uses)) :
    Allows E (copyuvm img pgdir sz k) fun r =>
      Forked (Counted.books img pool hvalid) R pgdir sz k r.1 r.2.1 r.2.2 := by
  rw [copyuvm]
  apply ((setupkvm_spec h).and setupkvm_cost).bind
  rintro ⟨r, k₁⟩ ⟨hnew, hcost⟩
  cases r with
  | none =>
    obtain ⟨hacct, hkept⟩ := hnew
    have hcost : k.freelist.length < 65 := hcost
    refine .ok ⟨hkept, fun _ => ⟨hacct, 0, Nat.zero_le _, .zero _⟩, fun d hd => (by cases hd),
      fun _ => ⟨fun hno => (by cases hno), fun hle => ?_⟩, fun d hd => (by cases hd)⟩
    omega
  | some d =>
    obtain ⟨hacct, hempty, hkept⟩ := hnew
    obtain ⟨htabs, hroom⟩ := hcost
    have hroom : room d k₁ + 1 = k.freelist.length := hroom
    have hchild : ChildTo pgdir 0 d := fun v hv => by
      rw [hempty v hv, if_neg (Nat.not_lt_zero v)]
    apply (copyLoop_spec habsent (Nat.zero_add _)
      (fun u _ _ hw => lt_of_gap hgap fun w hle => hw w (Nat.zero_le w) (Nat.le_of_lt hle))
      (.zero pgdir) hchild hacct).bind
    rintro ⟨copied, pgdir₁, d₁, k₂⟩ hloop
    have hloop : Looped (Counted.books img pool hvalid) R pgdir d k₁ 0 (pages sz) copied pgdir₁ d₁
      k₂ := hloop
    have hkept₂ := hkept.trans hloop.kept
    have hfits : pages sz ≤ userPages →
        (copied = true ↔ 65 + (pages sz + 1023) / 1024 ≤ k.freelist.length) := by
      intro hlast
      have hfits := hloop.fits
      rw [htabs, Nat.sub_zero, card_tables hlast] at hfits
      rw [hfits]
      omega
    cases copied with
    | true =>
      obtain ⟨hs, hc, hall⟩ := hloop.done rfl
      refine .ok ⟨hkept₂, fun hno => (by cases hno), fun d' hd' => ?_, hfits, fun d' hd' => ?_⟩
      · obtain rfl := Option.some.inj hd'
        exact ⟨hloop.acct, hs, hc, fun u hu => hall u (Nat.zero_le u) hu⟩
      · obtain rfl := Option.some.inj hd'
        show room d₁ k₂ + 1 = _
        rw [hloop.room_eq rfl, hroom]
    | false =>
      apply (freevm_spec hloop.acct).bind
      rintro k₃ ⟨hacct₃, hkept₃⟩
      exact .ok ⟨hkept₂.trans hkept₃, fun _ => ⟨hacct₃, hloop.failed rfl⟩,
        fun d' hd' => (by cases hd'), hfits, fun d' hd' => (by cases hd')⟩

/-- **`handle_pgflt_helper`** replaces the page by a copy that may be written, in a page that nobody
    referred to. -/
theorem handlePgfltHelper_spec {B : Books counted img} {e : Pte} (hv : v < userPages)
    (he : d.entry v = some e) (hu : e.u = true)
    (hstop : (e.w = false ∧ e.cow = false) ∨ k.freelist = [] → E "pagefault handler")
    (h : B.Acct k (R + d.uses)) : Allows E (handlePgfltHelper img d v k) fun r =>
      B.Acct r.2 (R + r.1.uses) ∧ ∃ mem, (R + d.uses).total mem = 0 ∧
        r.1.entry = Function.update d.entry v
          (some { page := mem, p := true, w := true, u := true, cow := false }) := by
  obtain ⟨hwalk, hp⟩ := entry_eq_some.mp he
  obtain ⟨ht, -⟩ := walkpgdir_eq_some.mp hwalk
  rw [handlePgfltHelper, hwalk]
  simp only [hu, hp, Bool.not_true, Bool.false_eq_true, if_false]
  split
  case isTrue hperm => exact .stop (hstop (.inl (by simpa using hperm)))
  case isFalse =>
    apply ((B.kalloc_spec h).and kalloc_cost).bind
    rintro ⟨r, k₁⟩ ⟨htaken, -, hzero⟩
    cases r with
    | none => exact .stop (hstop (.inr (List.length_eq_zero_iff.mp (hzero rfl))))
    | some mem =>
      obtain ⟨hfresh, -, hshared, -⟩ := htaken
      generalize hx : ({ page := mem, p := true, w := true, u := true, cow := false } : Pte) = x
      have hset : (d.setPte v x).entry = Function.update d.entry v (some x) := by
        rw [entry_setPte ht x, if_pos (by rw [← hx])]
      have hpage : x.page = mem := by rw [← hx]
      have hmove := uses_remap hv he hset rfl rfl
      rw [hpage] at hmove
      rw [add_assoc, ← hmove, ← add_assoc] at hshared
      apply (kfree_sharer (B.setMem _ hshared)).bind
      rintro k₂ ⟨hacct, -⟩
      subst hx
      exact .ok ⟨hacct, mem, hfresh, hset⟩

end Cow

/-! ## Copying -/

namespace Eager

/-- What the loop of `copyuvm` leaves from page `i` up to `last`. -/
structure Looped (B : Books plain img) (R : Refs Nat) (pgdir d : PgDir) (k : Kmem)
    (i last : Nat) (copied : Bool) (d' : PgDir) (k' : Kmem) : Prop where
  acct : B.Acct k' (R + d'.uses)
  kept : Kept (R + d.maps) k k'
  /-- the pages have the contents of the parent's -/
  done : copied = true → ∀ u, i ≤ u → u < last → ∃ e e', pgdir.entry u = some e ∧
    d'.entry u = some e' ∧ e'.toPerm = e.toPerm ∧ k'.mem e'.page = k.mem e.page
  outside : copied = true → ∀ u, ¬ (i ≤ u ∧ u < last) → d'.entry u = d.entry u
  failed : copied = false → ∃ j, i ≤ j ∧ j < last ∧ (∀ u, i ≤ u → u ≤ j → pgdir.entry u ≠ none) ∧
    room d k < (j + 1 - i) + (d.tabs ∪ span i (j + 1 - i)).card

/-- The loop fails at its first page. -/
theorem Looped.first {B : Books plain img} {i last : Nat} (hi : i < last)
    (hacct : B.Acct k' (R + d'.uses)) (hkept : Kept (R + d.maps) k k')
    (hpresent : pgdir.entry i ≠ none) (hroom : room d k < 1 + (d.tabs ∪ span i 1).card) :
    Looped B R pgdir d k i last false d' k' := by
  refine ⟨hacct, hkept, fun hno => (by cases hno), fun hno => (by cases hno),
    fun _ => ⟨i, le_rfl, hi, fun u hu hle => ?_, ?_⟩⟩
  · rw [Nat.le_antisymm hle hu]
    exact hpresent
  · rw [Nat.add_sub_cancel_left]
    exact hroom

/-- The loop has copied its first page, to `mem`. -/
theorem Looped.cons {B : Books plain img} {i last mem : Nat} {d₁ d₂ : PgDir} {k₁ k₂ : Kmem}
    {copied : Bool} {pte : Pte} (hi : i < last) (hiu : i < userPages)
    (hused : ∀ u e, u < userPages → pgdir.entry u = some e → 0 < R.total e.page)
    (huser : ∀ u, i ≤ u → u < last → (∀ w, i ≤ w → w ≤ u → pgdir.entry w ≠ none) → u < userPages)
    (he : pgdir.entry i = some pte) (hnone : d.entry i = none)
    (hentry : d₁.entry =
      Function.update d.entry i (some { toPerm := pte.toPerm, page := mem, p := true }))
    (hkept : Kept (R + d.maps) k k₁) (hcopy : k₁.mem mem = k.mem pte.page)
    (htabs : d₁.tabs = d.tabs ∪ span i 1) (hroom : room d₁ k₁ + 1 = room d k)
    (h : Looped B R pgdir d₁ k₁ (i + 1) last copied d₂ k₂) :
    Looped B R pgdir d k i last copied d₂ k₂ := by
  have hpresent : pgdir.entry i ≠ none := by
    rw [he]
    exact fun hno => by cases hno
  have hself : d₁.entry i = some { toPerm := pte.toPerm, page := mem, p := true } := by
    rw [hentry, Function.update_self]
  have hmaps := maps_map hiu hnone hentry
  have hrest : Kept (R + d.maps) k₁ k₂ := h.kept.less fun q => by
    rw [hmaps, ← add_assoc, Refs.total_add _ (.sharer _)]
    exact Nat.le_add_right _ _
  refine ⟨h.acct, hkept.trans hrest, fun hc => ?_, fun hc u hu => ?_, fun hc => ?_⟩
  · refine from_succ (fun _ => ?_) fun u hu hlt => ?_
    · refine ⟨pte, { toPerm := pte.toPerm, page := mem, p := true }, he, ?_, rfl, ?_⟩
      · rw [h.outside hc i (by omega)]
        exact hself
      · have hpos := maps_pos hiu hself
        have hpage := h.kept mem (by
          rw [Refs.total_add]
          exact Nat.add_pos_right _ hpos)
        exact hpage.trans hcopy
    · obtain ⟨e, e', hpar, hch, hperm, hcont⟩ := h.done hc u hu hlt
      have huu : u < userPages := by
        refine huser u (by omega) hlt (from_succ (fun _ => hpresent) fun w hw hle => ?_)
        obtain ⟨ew, -, hw, -⟩ := h.done hc w hw (by omega)
        rw [hw]
        exact fun hno => by cases hno
      refine ⟨e, e', hpar, hch, hperm, hcont.trans (hkept _ ?_)⟩
      rw [Refs.total_add]
      exact Nat.add_pos_left (hused u e huu hpar) _
  · rw [h.outside hc u (by omega), hentry, Function.update_of_ne (by omega)]
  · obtain ⟨j, hij, hj, hpres, hshort⟩ := h.failed hc
    refine ⟨j, by omega, hj, from_succ (fun _ => hpresent) hpres, ?_⟩
    rw [htabs, Finset.union_assoc, ← span_cons (by omega)] at hshort
    omega

/-- **The loop of `copyuvm`** at page `i`: it stops at an absent page if memory lasts until there. -/
theorem copyLoop_spec {B : Books plain img} {last : Nat}
    (hused : ∀ u e, u < userPages → pgdir.entry u = some e → 0 < R.total e.page) :
    ∀ {n i : Nat} {d : PgDir} {k : Kmem}, i + n = last →
    (∀ u, i ≤ u → u < last → (∀ w, i ≤ w → w ≤ u → pgdir.entry w ≠ none) → u < userPages) →
    (∀ u, i ≤ u → u < last → u < userPages → d.entry u = none) →
    (∀ u, i ≤ u → u < last → pgdir.entry u = none → (∀ w, i ≤ w → w < u → pgdir.entry w ≠ none) →
      (u - i) + (d.tabs ∪ span i (u - i)).card ≤ room d k →
      E "copyuvm: pte should exist" ∧ E "copyuvm: page not present") →
    B.Acct k (R + d.uses) → Allows E (copyLoop img pgdir d i n k) fun r =>
      Looped B R pgdir d k i last r.1 r.2.1 r.2.2 := by
  intro n
  induction n with
  | zero =>
    intro i d k hend _ _ _ h
    obtain rfl : i = last := hend
    exact .ok ⟨h, fun _ _ => rfl, fun _ u hu hlt => by omega, fun _ _ _ => rfl,
      fun hno => by cases hno⟩
  | succ n ih =>
    intro i d k hend huser hnone habsent h
    have hall := userPages_lt
    have hi : i < last := by omega
    have hstop : pgdir.entry i = none →
        E "copyuvm: pte should exist" ∧ E "copyuvm: page not present" := by
      intro hempty
      refine habsent i le_rfl hi hempty (fun w hw hlt => by omega) ?_
      rw [Nat.sub_self, span_zero, Finset.union_empty, Nat.zero_add]
      exact Nat.le_add_left _ _
    rw [copyLoop]
    split
    case h_1 hwalk =>
      exact .stop (hstop (entry_eq_none fun e he => by rw [hwalk] at he; cases he)).1
    case h_2 pte hwalk =>
      cases hp : pte.p with
      | false =>
        refine .stop (hstop (entry_eq_none fun e he => ?_)).2
        rw [hwalk] at he
        rw [← Option.some.inj he, hp]
      | true =>
        have he : pgdir.entry i = some pte := entry_eq_some.mpr ⟨hwalk, hp⟩
        have hpresent : pgdir.entry i ≠ none := by
          rw [he]
          exact fun hno => by cases hno
        have hiu : i < userPages := huser i le_rfl hi fun w hw hle => by
          rw [Nat.le_antisymm hle hw]
          exact hpresent
        simp only [Bool.not_true, Bool.false_eq_true, if_false]
        apply ((B.kalloc_spec h).and kalloc_cost).bind
        rintro ⟨r, k₁⟩ ⟨htaken, hlen, hzero⟩
        cases r with
        | none =>
          obtain rfl : k₁ = k := htaken
          have hzero : k₁.freelist.length = 0 := hzero rfl
          refine .ok (.first hi h (fun _ _ => rfl) hpresent ?_)
          have hsub : d.tabs ⊆ d.tabs ∪ span i 1 := Finset.subset_union_left
          have hle := Finset.card_le_card hsub
          rw [room, hzero]
          omega
        | some mem =>
          obtain ⟨hfresh, -, hshared, hmem⟩ := htaken
          have hlen : k₁.freelist.length + 1 = k.freelist.length := hlen
          have hmaps : ∀ q, (R + d.maps).total q ≤ (R + d.uses).total q := fun q => by
            rw [Refs.total_add, Refs.total_add]
            exact Nat.add_le_add_left (maps_le d q) _
          have hwrite := (Kept.write hfresh hmem (k₁.mem pte.page)).less hmaps
          have hbooks := B.setMem (Function.update k₁.mem mem (k₁.mem pte.page)) hshared
          generalize hk₂ : ({ k₁ with mem := Function.update k₁.mem mem (k₁.mem pte.page) } : Kmem) =
            k₂ at hwrite hbooks
          have hroom : room d k₂ + 1 = room d k := by
            rw [room, room, ← hk₂]
            show k₁.freelist.length + _ + 1 = _
            omega
          have hcopy : k₂.mem mem = k.mem pte.page := by
            rw [← hk₂]
            show Function.update k₁.mem mem (k₁.mem pte.page) mem = _
            rw [Function.update_self, hmem]
          show Allows E (mappages plain d i 1 mem pte.toPerm { k₁ with mem := _ } >>= _) _
          rw [hk₂]
          apply ((mappages_one hiu
            (fun hne => absurd (hnone i le_rfl hi hiu) hne) hbooks).and
            (mappages_cost (by omega))).bind
          rintro ⟨mapped, d₁, k₃⟩ ⟨hone, htakes⟩
          have hone : MapOne B R d k₂ i { toPerm := pte.toPerm, page := mem, p := true } mapped d₁
            k₃ := hone
          have htakes : Takes (span i 1) d k₂ mapped d₁ k₃ := htakes
          have hkept₃ : Kept (R + d.maps) k k₃ := hwrite.trans (.of_mem hone.mem_eq)
          cases mapped with
          | false =>
            obtain ⟨hback, hentry⟩ := hone.failed rfl
            apply (kfree_sharer hback).bind
            rintro k₄ ⟨hacct₄, hkept₄⟩
            refine .ok (.first hi hacct₄ (hkept₃.trans (hkept₄.less fun q => ?_)) hpresent ?_)
            · rw [← maps_congr fun u _ => congrFun hentry u, Refs.total_add, Refs.total_add]
              exact Nat.add_le_add_left (maps_le d₁ q) _
            · have hlt := htakes.failed rfl
              omega
          | true =>
            obtain ⟨-, hacct₃, hentry⟩ := hone.done rfl
            have htabs : d₁.tabs = d.tabs ∪ span i 1 := htakes.done rfl
            have hroom₃ : room d₁ k₃ = room d k₂ := htakes.room_eq
            refine (ih (by omega) (fun u hu hlt hw => ?_) (fun u hu hlt huu => ?_)
              (fun u hu hlt hempty hw hle => ?_) hacct₃).mono fun r hrest => ?_
            · exact huser u (by omega) hlt (from_succ (fun _ => hpresent) hw)
            · rw [hentry, Function.update_of_ne (by omega)]
              exact hnone u (by omega) hlt huu
            · refine habsent u (by omega) hlt hempty (from_succ (fun _ => hpresent) hw) ?_
              rw [htabs, hroom₃, Finset.union_assoc, ← span_cons hu] at hle
              omega
            · exact hrest.cons hi hiu hused huser he (hnone i le_rfl hi hiu) hentry hkept₃
                ((congrFun hone.mem_eq mem).trans hcopy) htabs (by omega)

/-- The pages that `copyuvm` takes for `n` pages of the parent. -/
def copyPages (n : Nat) : Nat := 65 + n + (n + 1023) / 1024

theorem copyPages_mono {m n : Nat} (h : m ≤ n) : copyPages m ≤ copyPages n := by
  rw [copyPages, copyPages]
  omega

/-- What `copyuvm` leaves. -/
structure Forked (B : Books plain img) (R : Refs Nat) (pgdir : PgDir) (sz : Nat) (k : Kmem)
    (child : Option PgDir) (k' : Kmem) : Prop where
  kept : Kept R k k'
  failed : child = none → B.Acct k' R ∧ (k.freelist.length < 65 ∨ ∃ j, j < pages sz ∧
    (∀ u, u ≤ j → pgdir.entry u ≠ none) ∧ k.freelist.length < copyPages (j + 1))
  done : ∀ d, child = some d → B.Acct k' (R + d.uses) ∧ (∀ u, u < pages sz → u < userPages ∧
    ∃ e e', pgdir.entry u = some e ∧ d.entry u = some e' ∧ e'.toPerm = e.toPerm ∧
      k'.mem e'.page = k.mem e.page) ∧ ∀ u, u < userPages → pages sz ≤ u → d.entry u = none

/-- **`copyuvm` of xv6-public** copies all pages, gives back what it took, or stops at the first
    page that is absent. -/
theorem copyuvm_spec {B : Books plain img} {sz : Nat}
    (hgap : ∃ v, v < userPages ∧ pgdir.entry v = none)
    (hused : ∀ u e, u < userPages → pgdir.entry u = some e → 0 < R.total e.page)
    (habsent : ∀ u, u < pages sz → pgdir.entry u = none → (∀ w, w < u → pgdir.entry w ≠ none) →
      copyPages u ≤ k.freelist.length →
      E "copyuvm: pte should exist" ∧ E "copyuvm: page not present")
    (h : B.Acct k R) : Allows E (copyuvm img pgdir sz k) fun r =>
      Forked B R pgdir sz k r.1 r.2 := by
  have huser : ∀ u, (∀ w, w ≤ u → pgdir.entry w ≠ none) → u + 1 < userPages := fun u hw =>
    lt_of_gap hgap fun w hlt => hw w (by omega)
  rw [copyuvm]
  apply ((setupkvm_spec h).and setupkvm_cost).bind
  rintro ⟨r, k₁⟩ ⟨hnew, hcost⟩
  cases r with
  | none =>
    obtain ⟨hacct, hkept⟩ := hnew
    exact .ok ⟨hkept, fun _ => ⟨hacct, .inl hcost⟩, fun d hd => by cases hd⟩
  | some d =>
    obtain ⟨hacct, hempty, hkept⟩ := hnew
    obtain ⟨htabs, hroom⟩ := hcost
    have hroom : room d k₁ + 1 = k.freelist.length := hroom
    have htables : ∀ n, n < userPages → (d.tabs ∪ span 0 n).card = 64 + (n + 1023) / 1024 := by
      intro n hn
      rw [htabs, card_tables (Nat.le_of_lt hn)]
    apply (copyLoop_spec hused (Nat.zero_add (pages sz))
      (fun u _ _ hw => Nat.lt_of_succ_lt (huser u fun w hle => hw w (Nat.zero_le w) hle))
      (fun u _ _ huu => hempty u huu) (fun u _ hlt hnone hw hle => ?_) hacct).bind
    · rintro ⟨copied, d₁, k₂⟩ hloop
      have hloop : Looped B R pgdir d k₁ 0 (pages sz) copied d₁ k₂ := hloop
      have hkept₂ : Kept R k k₂ := hkept.trans (hloop.kept.less fun q => by
        rw [Refs.total_add]
        exact Nat.le_add_right _ _)
      cases copied with
      | true =>
        refine .ok ⟨hkept₂, fun hno => (by cases hno), fun d' hd' => ?_⟩
        obtain rfl := Option.some.inj hd'
        have hcopied := fun u hu => hloop.done rfl u (Nat.zero_le u) hu
        refine ⟨hloop.acct, fun u hu => ?_, fun u huu hge => ?_⟩
        · have huu : u < userPages := Nat.lt_of_succ_lt (huser u fun w hle => by
            obtain ⟨e, -, hw, -⟩ := hcopied w (by omega)
            rw [hw]
            exact fun hno => by cases hno)
          obtain ⟨e, e', hpar, hch, hperm, hcont⟩ := hcopied u hu
          exact ⟨huu, e, e', hpar, hch, hperm, hcont.trans (hkept _ (hused u e huu hpar))⟩
        · show d₁.entry u = none
          rw [hloop.outside rfl u (by omega)]
          exact hempty u huu
      | false =>
        apply (freevm_spec hloop.acct).bind
        rintro k₃ ⟨hacct₃, hkept₃⟩
        refine .ok ⟨hkept₂.trans hkept₃, fun _ => ⟨hacct₃, .inr ?_⟩, fun d' hd' => by cases hd'⟩
        obtain ⟨j, -, hj, hpres, hshort⟩ := hloop.failed rfl
        have hpres : ∀ u, u ≤ j → pgdir.entry u ≠ none := fun u hu => hpres u (Nat.zero_le u) hu
        refine ⟨j, hj, hpres, ?_⟩
        rw [Nat.sub_zero, htables _ (huser j hpres)] at hshort
        rw [copyPages]
        omega
    · have hw : ∀ w, w < u → pgdir.entry w ≠ none := fun w hlt => hw w (Nat.zero_le w) hlt
      rw [Nat.sub_zero, htables u (lt_of_gap hgap hw)] at hle
      refine habsent u hlt hnone hw ?_
      rw [copyPages]
      omega

/-- **`allocate_on_pgflt`** maps a new page that is zero, or takes nothing but a page table. -/
theorem allocateOnPgflt_spec {B : Books plain img} (hv : v < userPages)
    (hremap : d.entry v ≠ none → E "remap") (h : B.Acct k (R + d.uses)) :
    Allows E (allocateOnPgflt img d v k) fun r => B.Acct r.2 (R + r.1.uses) ∧
      Kept (R + d.maps) k r.2 ∧ (r.1.entry = d.entry ∨ d.entry v = none ∧
        ∃ e, r.1.entry = Function.update d.entry v (some e) ∧ e.toPerm = ⟨true, true, false⟩ ∧
          r.2.mem e.page = fun _ => 0) := by
  have hless : ∀ {d' : PgDir}, d'.maps = d.maps →
      ∀ q, (R + d.maps).total q ≤ (R + d'.uses).total q := by
    intro d' hsame q
    rw [← hsame, Refs.total_add, Refs.total_add]
    exact Nat.add_le_add_left (maps_le d' q) _
  rw [allocateOnPgflt]
  apply (B.kalloc_spec h).bind
  rintro ⟨r, k₁⟩ htaken
  cases r with
  | none =>
    obtain rfl : k₁ = k := htaken
    exact .ok ⟨h, fun _ _ => rfl, .inl rfl⟩
  | some mem =>
    obtain ⟨hfresh, -, hshared, hmem⟩ := htaken
    have hwrite := (Kept.write hfresh hmem fun _ => 0).less (hless rfl)
    apply (mappages_one hv hremap (B.setMem _ hshared)).bind
    rintro ⟨mapped, d₁, k₂⟩ hone
    have hone : MapOne B R d _ v _ mapped d₁ k₂ := hone
    have hkept : Kept (R + d.maps) k k₂ := hwrite.trans (.of_mem hone.mem_eq)
    cases mapped with
    | true =>
      obtain ⟨hnone, hacct, hentry⟩ := hone.done rfl
      refine .ok ⟨hacct, hkept, .inr ⟨hnone, _, hentry, rfl, ?_⟩⟩
      rw [hone.mem_eq]
      exact Function.update_self _ _ _
    | false =>
      obtain ⟨hback, hentry⟩ := hone.failed rfl
      apply (kfree_sharer hback).bind
      rintro k₃ ⟨hacct, hkept₃⟩
      have hsame : d₁.maps = d.maps := maps_congr fun u _ => congrFun hentry u
      exact .ok ⟨hacct, hkept.trans (hkept₃.less (hless hsame)), .inl hentry⟩

end Eager

end OsCodes.Paging
