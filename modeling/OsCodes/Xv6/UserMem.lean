/-
  The memory of one process beside those of others.

  `Holds` is the invariant of one process: its directory maps exactly the pages below its size, each
  with given contents.  `Frame` is what an operation on one process owes to the holders of the other
  references: their pages keep their contents, and a page that is theirs alone stays theirs alone.
  Every operation is specified in these terms, the two versions of `copyuvm` by the same contract.

  1. `Holds` implies that a page which may be written has one reference, so a store changes nobody
     else's memory (`Holds.store`);
  2. `Frame` composes: an operation that keeps the frame of the references `R` keeps `Holds` for
     every process whose references are among them (`Holds.frame`);
  3. `Copyuvm.Copies` is the contract that the two versions of `copyuvm` meet in different ways:
     one shares every page and takes the write permissions away, the other copies every page.
-/
import OsCodes.Xv6.Copy

namespace OsCodes.Xv6

open Refcount

/-! ## The invariant of one process -/

/-- A process of size `sz` with directory `d` has the memory `c`, given by page. -/
structure Holds (T : Nat → Nat) (mem : Nat → Page) (d : PgDir) (sz : Nat) (c : Nat → Page) :
    Prop where
  sz_lt : sz < kernbase
  unmapped : ∀ v, v < userPages → pages sz ≤ v → d.entry v = none
  mapped : ∀ v, v < pages sz → ∃ e, d.entry v = some e ∧ UserPage T mem e (c v)

/-- The holders of the references `R` see no change. -/
def Frame (R T : Nat → Nat) (mem : Nat → Page) (T' : Nat → Nat) (mem' : Nat → Page) : Prop :=
  ∀ q, 0 < R q → mem' q = mem q ∧ (T q = 1 → T' q = 1)

section Rules

variable {img : Image} {R T T' : Nat → Nat} {mem mem' : Nat → Page} {d : PgDir} {sz : Nat}
  {c : Nat → Page} {k : Kmem}

theorem Holds.user (h : Holds T mem d sz c) {v : Nat} (hv : v < pages sz) : v < userPages :=
  Nat.lt_of_lt_of_le hv (pages_le (Nat.le_of_lt h.sz_lt))

/-- Numbers of references that agree are as good. -/
theorem Holds.congr (h : Holds T mem d sz c) (hT : ∀ q, T' q = T q) : Holds T' mem d sz c := by
  obtain rfl : T' = T := funext hT
  exact h

/-- **The frame rule**: a process whose references are among `R` keeps its memory. -/
theorem Holds.frame (h : Holds T mem d sz c) (hframe : Frame R T mem T' mem')
    (hR : ∀ q, d.refs q ≤ R q) : Holds T' mem' d sz c := by
  refine ⟨h.sz_lt, h.unmapped, fun v hv => ?_⟩
  obtain ⟨e, he, hpage⟩ := h.mapped v hv
  obtain ⟨hmem, hsole⟩ := hframe e.page (Nat.lt_of_lt_of_le (refs_pos (h.user hv) he) (hR e.page))
  exact ⟨e, he, hpage.frame hmem hsole⟩

/-- A directory with an empty user part. -/
theorem Holds.empty (h : ∀ v, v < userPages → d.entry v = none) : Holds T mem d 0 c := by
  refine ⟨by decide, fun v hv _ => h v hv, fun v hv => ?_⟩
  have hzero : pages 0 = 0 := rfl
  omega

/-! ## Growing and shrinking -/

/-- The memory `c` of size `oldsz` with zeros above it. -/
def growMem (c : Nat → Page) (oldsz : Nat) : Nat → Page :=
  fun v => if v < pages oldsz then c v else fun _ => 0

/-- **Growing** with `allocuvm`. -/
theorem grow_spec {newsz : Nat} (hnew : newsz < kernbase) (hle : sz ≤ newsz)
    (h : Acct img k fun q => R q + d.refs q)
    (hold : Holds (fun q => R q + d.refs q) k.mem d sz c) :
    Returns .noMemory (allocuvm d sz newsz k) fun r =>
      r.1 = newsz ∧ Acct img r.2.2 (fun q => R q + r.2.1.refs q) ∧
      Holds (fun q => R q + r.2.1.refs q) r.2.2.mem r.2.1 newsz (growMem c sz) ∧
      Frame R (fun q => R q + d.refs q) k.mem (fun q => R q + r.2.1.refs q) r.2.2.mem := by
  refine (allocuvm_spec hnew hle hold.unmapped h).mono ?_
  rintro ⟨sz', d', k'⟩ ⟨hsz, hpost⟩
  have hpost : NewPages img R d k (pages sz) (pages newsz) _ _ d' k' := hpost
  have hpages := pages_mono hle
  refine ⟨hsz, hpost.acct, ⟨hnew, fun v hv hge => ?_, fun v hv => ?_⟩, fun q hq => ?_⟩
  · show d'.entry v = none
    rw [hpost.outside v (by omega)]
    exact hold.unmapped v hv (by omega)
  · by_cases hlt : v < pages sz
    · obtain ⟨e, he, hpage⟩ := hold.mapped v hlt
      obtain ⟨hrefs, hmem⟩ := hpost.kept e.page (Nat.add_pos_right _ (refs_pos (hold.user hlt) he))
      refine ⟨e, (hpost.outside v (by omega)).trans he, ?_⟩
      rw [growMem, if_pos hlt]
      exact hpage.frame hmem fun hone => by rw [← hone, ← hrefs]
    · obtain ⟨e, he, hperm, hsole, hcontent⟩ := hpost.inside v (by omega) hv
      rw [growMem, if_neg hlt]
      exact ⟨e, he, .of_perm hperm rfl (.inl rfl) hsole hcontent⟩
  · obtain ⟨hrefs, hmem⟩ := hpost.kept q (by omega)
    refine ⟨hmem, fun hone => ?_⟩
    have hone : R q + d.refs q = 1 := hone
    show R q + d'.refs q = 1
    rw [hrefs, hone]

/-- **Shrinking** with `deallocuvm`. -/
theorem shrink_spec {newsz : Nat} (hlt : newsz < sz) (h : Acct img k fun q => R q + d.refs q)
    (hold : Holds (fun q => R q + d.refs q) k.mem d sz c) :
    Returns .noMemory (deallocuvm img d sz newsz k) fun r =>
      r.1 = newsz ∧ Acct img r.2.2 (fun q => R q + r.2.1.refs q) ∧
      Holds (fun q => R q + r.2.1.refs q) r.2.2.mem r.2.1 newsz c ∧
      Frame R (fun q => R q + d.refs q) k.mem (fun q => R q + r.2.1.refs q) r.2.2.mem := by
  have hsz := hold.sz_lt
  refine (deallocuvm_spec (Nat.le_of_lt hsz) hlt h).mono ?_
  rintro ⟨sz', d', k'⟩ ⟨hsz', hpost⟩
  have hpost : Unmapped img R d k (pages newsz) (pages sz) d' k' := hpost
  have hpages := pages_mono (Nat.le_of_lt hlt)
  -- a page that is still in use has no more references than before
  have hframe : ∀ q, 0 < R q + d'.refs q →
      k'.mem q = k.mem q ∧ (R q + d.refs q = 1 → R q + d'.refs q = 1) := by
    intro q hq
    have hle := hpost.refs_le q
    exact ⟨hpost.kept q hq, fun hone => by omega⟩
  refine ⟨hsz', hpost.acct, ⟨hlt.trans hsz, fun v hv hge => ?_, fun v hv => ?_⟩,
    fun q hq => hframe q (Nat.add_pos_left hq _)⟩
  · by_cases hsmall : v < pages sz
    · exact hpost.inside v hge hsmall
    · exact (hpost.outside v (by omega)).trans (hold.unmapped v hv (by omega))
  · have hvsz : v < pages sz := by omega
    obtain ⟨e, he, hpage⟩ := hold.mapped v hvsz
    have he' : d'.entry v = some e := (hpost.outside v (by omega)).trans he
    obtain ⟨hcontent, hsole⟩ :=
      hframe e.page (Nat.add_pos_right _ (refs_pos (hold.user hvsz) he'))
    exact ⟨e, he', hpage.frame hcontent hsole⟩

/-! ## Forking -/

/-- The type of `copyuvm`. -/
abbrev Copyuvm := Image → PgDir → Nat → Kmem → Except Fault (PgDir × PgDir × Kmem)

/-- **The contract of `copyuvm`**: afterwards parent and child both have the parent's memory. -/
def Copyuvm.Copies (copyuvm : Copyuvm) : Prop :=
  ∀ {img : Image} {R : Nat → Nat} {d : PgDir} {sz : Nat} {c : Nat → Page} {k : Kmem},
    Acct img k (fun q => R q + d.refs q) → Holds (fun q => R q + d.refs q) k.mem d sz c →
    Returns .noMemory (copyuvm img d sz k) fun r =>
      Acct img r.2.2 (fun q => R q + r.1.refs q + r.2.1.refs q) ∧
      Holds (fun q => R q + r.1.refs q + r.2.1.refs q) r.2.2.mem r.1 sz c ∧
      Holds (fun q => R q + r.1.refs q + r.2.1.refs q) r.2.2.mem r.2.1 sz c ∧
      Frame R (fun q => R q + d.refs q) k.mem (fun q => R q + r.1.refs q + r.2.1.refs q) r.2.2.mem

/-- **`copyuvm` of xv6-public(1)** meets the contract: nothing is copied, and nothing that both have
    may be written. -/
theorem Cow.copyuvm_copies : Copyuvm.Copies Cow.copyuvm := by
  intro img R d sz c k h hold
  rw [Cow.copyuvm]
  apply (setupkvm_spec h).bind
  rintro ⟨child, k₁⟩ ⟨hacct, hempty, hnew, hmem⟩
  have hempty : ∀ v, v < userPages → child.entry v = none := hempty
  have hnew : ∀ q, 0 < R q + d.refs q → child.refs q = 0 := hnew
  have hmem : k₁.mem = k.mem := hmem
  have hlast := pages_le (Nat.le_of_lt hold.sz_lt)
  refine (Cow.copyLoop_spec (by omega) (fun v _ hv => ?_) (fun v _ hv => hempty v (by omega))
    hacct).mono ?_
  · obtain ⟨e, he, -⟩ := hold.mapped v (by omega)
    exact ⟨e, he⟩
  rintro ⟨d', child', k'⟩ hpost
  have hpost : Shared img R d child k₁ 0 (0 + pages sz) d' child' k' := hpost
  have hmem' : k'.mem = k.mem := hpost.mem_eq.trans hmem
  have hout : ∀ v, pages sz ≤ v → d'.entry v = d.entry v ∧ child'.entry v = child.entry v :=
    fun v hv => hpost.outside v (by omega)
  -- each page is shared, by an entry that does not allow writing
  have hshared : ∀ v, v < pages sz → ∃ e, d'.entry v = some e ∧ child'.entry v = some e ∧
      UserPage (fun q => R q + d'.refs q + child'.refs q) k'.mem e (c v) := by
    intro v hv
    obtain ⟨e, he, hpage⟩ := hold.mapped v hv
    obtain ⟨hparent, hchild⟩ := hpost.inside v (Nat.zero_le v) (by omega) e he
    refine ⟨e.share, hparent, hchild, hpage.u, .inr rfl, fun hw => (by cases hw), ?_⟩
    rw [hmem']
    exact hpage.content
  refine ⟨hpost.acct, ⟨hold.sz_lt, fun v hv hge => ?_, fun v hv => ?_⟩,
    ⟨hold.sz_lt, fun v hv hge => ?_, fun v hv => ?_⟩,
    fun q hq => ⟨congrFun hmem' q, fun hone => ?_⟩⟩
  · exact (hout v hge).1.trans (hold.unmapped v hv hge)
  · obtain ⟨e, hparent, -, hpage⟩ := hshared v hv
    exact ⟨e, hparent, hpage⟩
  · exact (hout v hge).2.trans (hempty v hv)
  · obtain ⟨e, -, hchild, hpage⟩ := hshared v hv
    exact ⟨e, hchild, hpage⟩
  · have hone : R q + d.refs q = 1 := hone
    have hzero : d.refs q = 0 := by omega
    have hparent := hpost.refs_eq q
    have hchild := hpost.kept q hq hzero
    have hfresh := hnew q (by omega)
    show R q + d'.refs q + child'.refs q = 1
    omega

/-- **`copyuvm` of xv6-public** meets the contract: the child's pages are its own. -/
theorem Eager.copyuvm_copies : Copyuvm.Copies Eager.copyuvm := by
  intro img R d sz c k h hold
  rw [Eager.copyuvm]
  apply (setupkvm_spec h).bind
  rintro ⟨child, k₁⟩ ⟨hacct, hempty, hnew, hmem⟩
  have hempty : ∀ v, v < userPages → child.entry v = none := hempty
  have hnew : ∀ q, 0 < R q + d.refs q → child.refs q = 0 := hnew
  have hmem : k₁.mem = k.mem := hmem
  have hlast := pages_le (Nat.le_of_lt hold.sz_lt)
  -- what the child's pages are to be
  have hparent : ∀ v, ∃ perm : Perm, v < pages sz → ∃ e, d.entry v = some e ∧ e.toPerm = perm ∧
      UserPage (fun q => R q + d.refs q) k.mem e (c v) := by
    intro v
    by_cases hv : v < pages sz
    · obtain ⟨e, he, hpage⟩ := hold.mapped v hv
      exact ⟨e.toPerm, fun _ => ⟨e, he, rfl, hpage⟩⟩
    · exact ⟨Pte.zero.toPerm, fun h => absurd h hv⟩
  choose perm hperm using hparent
  refine (Eager.copyLoop_spec perm c (by omega) (fun v _ hv => ?_)
    (fun v _ hv => hempty v (by omega)) hacct).mono ?_
  · obtain ⟨e, he, hperm, hpage⟩ := hperm v (by omega)
    refine ⟨e, he, hperm, Nat.add_pos_right _ (refs_pos (by omega) he), ?_⟩
    show k₁.mem e.page = c v
    rw [hmem]
    exact hpage.content
  rintro ⟨d', child', k'⟩ ⟨hsame, hpost⟩
  obtain rfl : d' = d := hsame
  have hpost : NewPages img (fun q => R q + d'.refs q) child k₁ 0 (0 + pages sz) perm c child' k' :=
    hpost
  -- what was in use has no reference from the child
  have hfresh : ∀ q, 0 < R q + d'.refs q → child'.refs q = 0 ∧ k'.mem q = k.mem q := by
    intro q hq
    obtain ⟨hrefs, hkept⟩ := hpost.kept q (Nat.add_pos_left hq _)
    exact ⟨hrefs.trans (hnew q hq), hkept.trans (congrFun hmem q)⟩
  refine ⟨hpost.acct, ⟨hold.sz_lt, hold.unmapped, fun v hv => ?_⟩,
    ⟨hold.sz_lt, fun v hv hge => ?_, fun v hv => ?_⟩, fun q hq => ?_⟩
  · obtain ⟨e, he, hpage⟩ := hold.mapped v hv
    obtain ⟨hrefs, hkept⟩ := hfresh e.page (Nat.add_pos_right _ (refs_pos (by omega) he))
    exact ⟨e, he, hpage.frame hkept fun hone => by rw [← hone, hrefs, Nat.add_zero]⟩
  · exact (hpost.outside v (by omega)).trans (hempty v hv)
  · obtain ⟨e, he, hpe, hpage⟩ := hperm v hv
    obtain ⟨e', he', hpe', hsole, hcontent⟩ := hpost.inside v (Nat.zero_le v) (by omega)
    have hsame : e'.toPerm = e.toPerm := hpe'.trans hpe.symm
    exact ⟨e', he', .of_perm hsame hpage.u hpage.usable hsole hcontent⟩
  · obtain ⟨hrefs, hkept⟩ := hfresh q (by omega)
    refine ⟨hkept, fun hone => ?_⟩
    have hone : R q + d'.refs q = 1 := hone
    show R q + d'.refs q + child'.refs q = 1
    rw [hone, hrefs]

/-! ## Writing -/

/-- **A page fault** leaves the memory as it is, and the page may be written afterwards. -/
theorem fault_spec {v : Nat} (hv : v < pages sz) (h : Acct img k fun q => R q + d.refs q)
    (hold : Holds (fun q => R q + d.refs q) k.mem d sz c) :
    Returns .noMemory (handlePgfltHelper img d v k) fun r =>
      Acct img r.2 (fun q => R q + r.1.refs q) ∧
      Holds (fun q => R q + r.1.refs q) r.2.mem r.1 sz c ∧
      (∃ e, r.1.entry v = some e ∧ e.u = true ∧ e.w = true) ∧
      Frame R (fun q => R q + d.refs q) k.mem (fun q => R q + r.1.refs q) r.2.mem := by
  obtain ⟨e, he, hpage⟩ := hold.mapped v hv
  have hvu := hold.user hv
  refine (handlePgfltHelper_spec hvu he hpage.u hpage.usable h).mono ?_
  rintro ⟨d', k'⟩ ⟨hacct, ⟨mem, hentry, hsole, hcopy⟩, hkeep⟩
  have hentry : d'.entry = Function.update d.entry v _ := hentry
  have hkeep : ∀ q, 0 < R q + d.refs q →
      d'.refs q ≤ d.refs q ∧ (0 < R q + d'.refs q → k'.mem q = k.mem q) := hkeep
  -- pages that are still in use keep their contents, and get no new references
  have hframe : ∀ q, 0 < R q + d.refs q → 0 < R q + d'.refs q →
      k'.mem q = k.mem q ∧ (R q + d.refs q = 1 → R q + d'.refs q = 1) := by
    intro q hq hq'
    obtain ⟨hle, hmem⟩ := hkeep q hq
    exact ⟨hmem hq', fun hone => by omega⟩
  have hself : d'.entry v =
      some { page := mem, p := true, w := true, u := true, cow := false } := by
    rw [hentry, Function.update_self]
  refine ⟨hacct, ⟨hold.sz_lt, fun u hu hge => ?_, fun u hu => ?_⟩, ⟨_, hself, rfl, rfl⟩,
    fun q hq => hframe q (Nat.add_pos_left hq _) (Nat.add_pos_left hq _)⟩
  · show d'.entry u = none
    rw [hentry, Function.update_of_ne (by omega)]
    exact hold.unmapped u hu hge
  · by_cases huv : u = v
    · rw [huv]
      exact ⟨_, hself, rfl, .inl rfl, fun _ => hsole, hcopy.trans hpage.content⟩
    · obtain ⟨e', he', hpage'⟩ := hold.mapped u hu
      have hafter : d'.entry u = some e' := by
        rw [hentry, Function.update_of_ne huv]
        exact he'
      obtain ⟨hmem, hone⟩ := hframe e'.page
        (Nat.add_pos_right _ (refs_pos (hold.user hu) he'))
        (Nat.add_pos_right _ (refs_pos (hold.user hu) hafter))
      exact ⟨e', hafter, hpage'.frame hmem hone⟩

/-- **A store** to a page that may be written changes the memory of this process only. -/
theorem Holds.store {v : Nat} {e : Pte} (hold : Holds (fun q => R q + d.refs q) mem d sz c)
    (hv : v < pages sz) (he : d.entry v = some e) (hw : e.w = true) (page : Page) :
    Holds (fun q => R q + d.refs q) (Function.update mem e.page page) d sz
        (Function.update c v page) ∧
      Frame R (fun q => R q + d.refs q) mem (fun q => R q + d.refs q)
        (Function.update mem e.page page) := by
  obtain ⟨e₀, he₀, hpage⟩ := hold.mapped v hv
  obtain rfl : e₀ = e := Option.some.inj (he₀.symm.trans he)
  have hsole : R e₀.page + d.refs e₀.page = 1 := hpage.sole hw
  have hpos := refs_pos (hold.user hv) he
  refine ⟨⟨hold.sz_lt, hold.unmapped, fun u hu => ?_⟩, fun q hq => ⟨?_, id⟩⟩
  · by_cases huv : u = v
    · rw [huv]
      refine ⟨e₀, he, hpage.u, hpage.usable, hpage.sole, ?_⟩
      rw [Function.update_self, Function.update_self]
    · obtain ⟨e', he', hpage'⟩ := hold.mapped u hu
      -- another page of the process is another page of memory
      have hne : e'.page ≠ e₀.page := by
        intro heq
        have htwo := refs_two huv (hold.user hu) (hold.user hv) he' he heq
        rw [heq] at htwo
        omega
      refine ⟨e', he', ?_⟩
      rw [Function.update_of_ne huv]
      exact hpage'.frame (Function.update_of_ne hne _ _) id
  · refine Function.update_of_ne ?_ _ _
    intro heq
    rw [heq] at hq
    omega

end Rules

end OsCodes.Xv6
