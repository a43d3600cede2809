/-
  What the buffer cache of xv6-public keeps.

  `Good` is what holds of one buffer: its reference count, its lock, and how its data relate to the
  disk and to what was last written to the block.  A step is about one buffer, and the others are
  left alone (`Good.frame`).  Across buffers, no block has two of them, and the links form a ring of
  all of them in the order in which they were last released.

  Structure:

  1. `Good` for one buffer, and `Good.frame`: a step on another buffer, of other clients, leaves
     it;
  2. `Inv` for all of them; `Inv.local` reduces a step of one client with one buffer to that
     buffer, and there is one lemma for each event (`Inv.hit`, `Inv.miss`, `Inv.acquire`,
     `Inv.read`, `Inv.modify`, `Inv.pin`, `Inv.bwrite`, `Inv.release`, `Inv.unref`);
  3. the record has the contents last written to each block, and when each buffer was last
     released; `Ordered` says that the ring is sorted by that;
  4. `bread_coherent`: who has a buffer of a block has the only one, with what was last written
     there;
  5. `bget_recycles`: the list is a ring of all buffers, a buffer without clients has `refcnt` 0
     and is recycled in the order of release, and the panic means that there is none to recycle.
-/
import Mathlib.Data.Fintype.Option
import OsCodes.Xv6.Bio

namespace OsCodes.Bio

open Log (Data)

/-! ## Clients and buffers -/

namespace Phase

/-- The block and the buffer that a client is concerned with. -/
def at? : Phase → Option (Block × Fin NBUF)
  | .out => none
  | .want k i => some (k, i)
  | .read k i => some (k, i)
  | .has k i _ => some (k, i)
  | .released k i => some (k, i)

/-- The buffer whose sleep lock a client holds. -/
def holds : Phase → Option (Fin NBUF)
  | .read _ i => some i
  | .has _ i _ => some i
  | _ => none

/-- Whether a client counts in the `refcnt` of a buffer. -/
def uses (i : Fin NBUF) (p : Phase) : Nat := if p.at?.map Prod.snd = some i then 1 else 0

theorem uses_eq_one {p : Phase} {k : Block} {i : Fin NBUF} (h : p.at? = some (k, i)) :
    p.uses i = 1 := by
  rw [uses, h]
  exact if_pos rfl

theorem uses_eq_zero {p : Phase} {i : Fin NBUF} (h : ∀ k, p.at? ≠ some (k, i)) : p.uses i = 0 := by
  rw [uses, if_neg]
  intro hi
  cases hp : p.at? with
  | none => rw [hp] at hi; cases hi
  | some x =>
    rw [hp] at hi
    cases hi
    exact h x.1 hp

theorem at_of_holds {p : Phase} {i : Fin NBUF} (h : p.holds = some i) : ∃ k, p.at? = some (k, i) := by
  cases p with
  | read k j => cases h; exact ⟨k, rfl⟩
  | has k j b => cases h; exact ⟨k, rfl⟩
  | _ => cases h

end Phase

section Good

variable {τ : Type} [Fintype τ]

/-- What holds of a buffer.  `C` is what was last written to each block. -/
structure Good (s : State τ) (C : Disk) (i : Fin NBUF) : Prop where
  refs : (s.buf i).refcnt = total (Phase.uses i) s.phase
  block : ∀ t k, (s.phase t).at? = some (k, i) → (s.buf i).block = k ∧ k.dev ≠ 0
  lock : ∀ t, (s.buf i).lock = some t ↔ (s.phase t).holds = some i
  reading : ∀ t k, s.phase t = .read k i → (s.buf i).valid = false
  having : ∀ t k b, s.phase t = .has k i b → (s.buf i).valid = true
  dirty : (s.buf i).dirty = true → (s.buf i).valid = true
  dev : (s.buf i).valid = true → (s.buf i).block.dev ≠ 0
  content : (s.buf i).valid = true → (s.buf i).data = C (s.buf i).block
  clean : (s.buf i).valid = true → (s.buf i).dirty = false →
    (∀ t k, s.phase t ≠ .has k i true) → (s.buf i).data = s.disk (s.buf i).block

variable {s s' : State τ} {C C' : Disk} {i j : Fin NBUF} {t : τ} {k : Block}

/-- **The other buffers.**  A buffer is as good as before where neither it nor its block nor its
    clients have changed. -/
theorem Good.frame (h : Good s C j) (hbuf : s'.buf j = s.buf j)
    (hphase : ∀ u, s'.phase u = s.phase u ∨
      (∀ k, (s.phase u).at? ≠ some (k, j)) ∧ ∀ k, (s'.phase u).at? ≠ some (k, j))
    (hdisk : s'.disk (s.buf j).block = s.disk (s.buf j).block)
    (hC : C' (s.buf j).block = C (s.buf j).block) : Good s' C' j := by
  have hat : ∀ u k, (s'.phase u).at? = some (k, j) → s'.phase u = s.phase u := by
    intro u k hu
    rcases hphase u with heq | ⟨-, hnot⟩
    · exact heq
    · exact absurd hu (hnot k)
  constructor
  case refs =>
    rw [hbuf, h.refs]
    refine (total_congr fun u => ?_).symm
    rcases hphase u with heq | ⟨hold, hnew⟩
    · rw [heq]
    · rw [Phase.uses_eq_zero hold, Phase.uses_eq_zero hnew]
  case block =>
    intro u k hu
    rw [hbuf]
    exact h.block u k (hat u k hu ▸ hu)
  case lock =>
    intro u
    rw [hbuf, h.lock u]
    rcases hphase u with heq | ⟨hold, hnew⟩
    · rw [heq]
    · constructor
      · intro hu
        obtain ⟨k, hk⟩ := Phase.at_of_holds hu
        exact absurd hk (hold k)
      · intro hu
        obtain ⟨k, hk⟩ := Phase.at_of_holds hu
        exact absurd hk (hnew k)
  case reading =>
    intro u k hu
    rw [hbuf]
    exact h.reading u k ((hat u k (by rw [hu]; rfl)).symm.trans hu)
  case having =>
    intro u k b hu
    rw [hbuf]
    exact h.having u k b ((hat u k (by rw [hu]; rfl)).symm.trans hu)
  case dirty => rw [hbuf]; exact h.dirty
  case dev => rw [hbuf]; exact h.dev
  case content =>
    rw [hbuf, hC]
    exact h.content
  case clean =>
    rw [hbuf, hdisk]
    refine fun hv hd hno => h.clean hv hd fun u k hu => ?_
    rcases hphase u with heq | ⟨hold, -⟩
    · exact hno u k (heq.trans hu)
    · exact hold k (by rw [hu]; rfl)

/-- A buffer without references has no clients. -/
theorem Good.no_client (h : Good s C i) (h0 : (s.buf i).refcnt = 0) (t : τ) (k : Block) :
    (s.phase t).at? ≠ some (k, i) := by
  intro ht
  have hall := total_eq_zero.mp (h.refs.symm.trans h0) t
  rw [Phase.uses_eq_one ht] at hall
  cases hall

theorem Good.lock_none (h : Good s C i) (hno : ∀ t k, (s.phase t).at? ≠ some (k, i)) :
    (s.buf i).lock = none := by
  cases hl : (s.buf i).lock with
  | none => rfl
  | some t =>
    obtain ⟨k, hk⟩ := Phase.at_of_holds ((h.lock t).mp hl)
    exact absurd hk (hno t k)

/-- Two holders of a buffer are one. -/
theorem Good.holder_unique (h : Good s C i) {u : τ} (ht : (s.phase t).holds = some i)
    (hu : (s.phase u).holds = some i) : t = u :=
  Option.some.inj (((h.lock t).mpr ht).symm.trans ((h.lock u).mpr hu))

end Good

/-! ## The whole cache -/

section Inv

variable {τ : Type} [Fintype τ]

/-- What holds of all buffers together. -/
structure Inv (s : State τ) (C : Disk) : Prop where
  good : ∀ i, Good s C i
  ring : ∃ l, Ring.IsRing s.next s.prev none l ∧ ∀ i, some i ∈ l
  keys : ∀ i j, (s.buf i).block.dev ≠ 0 → (s.buf i).block = (s.buf j).block → i = j
  absent : ∀ k, k.dev ≠ 0 → (∀ i, (s.buf i).block = k → (s.buf i).valid = false) → s.disk k = C k

variable {s s' : State τ} {C C' : Disk} {i j : Fin NBUF} {t : τ} {k : Block}

omit [Fintype τ] in
theorem ring_length {next prev : Ptr → Ptr} {l : List Ptr} (h : Ring.IsRing next prev none l) :
    l.length < NBUF + 1 := by
  have hle := h.nodup.length_le_card
  rw [List.length_cons, Fintype.card_option, Fintype.card_fin] at hle
  omega

/-- **The first loop of `bget`** finds the buffer of the block, if there is one. -/
theorem Inv.cached_some (h : Inv s C) (hc : cached s k = some i) : (s.buf i).block = k := by
  obtain ⟨l, hr, -⟩ := h.ring
  rw [cached, hr.find_next _ (ring_length hr)] at hc
  cases hf : l.find? (caches s k) with
  | none => rw [hf] at hc; cases hc
  | some p =>
    rw [hf] at hc
    have hp : p = some i := hc
    have := List.find?_some hf
    rw [hp] at this
    exact of_decide_eq_true this

theorem Inv.cached_none (h : Inv s C) (hc : cached s k = none) (i : Fin NBUF) :
    (s.buf i).block ≠ k := by
  obtain ⟨l, hr, hall⟩ := h.ring
  rw [cached, hr.find_next _ (ring_length hr)] at hc
  intro hi
  cases hf : l.find? (caches s k) with
  | none => exact List.find?_eq_none.mp hf (some i) (hall i) (decide_eq_true hi)
  | some p =>
    rw [hf] at hc
    have hp : p = none := hc
    have := List.find?_some hf
    rw [hp] at this
    cases this

/-- **Its second loop** finds an unused buffer, if there is one. -/
theorem Inv.victim_some (h : Inv s C) (hv : victim s = some i) :
    (s.buf i).refcnt = 0 ∧ (s.buf i).dirty = false := by
  obtain ⟨l, hr, -⟩ := h.ring
  rw [victim, hr.find_prev _ (ring_length hr)] at hv
  cases hf : l.reverse.find? (unused s) with
  | none => rw [hf] at hv; cases hv
  | some p =>
    rw [hf] at hv
    have hp : p = some i := hv
    have := List.find?_some hf
    rw [hp] at this
    simpa only [unused, Bool.and_eq_true, decide_eq_true_eq, Bool.not_eq_true'] using this

theorem Inv.victim_none (h : Inv s C) (hv : victim s = none) (i : Fin NBUF) :
    0 < (s.buf i).refcnt ∨ (s.buf i).dirty = true := by
  obtain ⟨l, hr, hall⟩ := h.ring
  rw [victim, hr.find_prev _ (ring_length hr)] at hv
  cases hf : l.reverse.find? (unused s) with
  | none =>
    have hno := List.find?_eq_none.mp hf (some i) (List.mem_reverse.mpr (hall i))
    simp only [unused, Bool.and_eq_true, decide_eq_true_eq, Bool.not_eq_true', not_and,
      Bool.not_eq_false] at hno
    rcases Nat.eq_zero_or_pos (s.buf i).refcnt with h0 | hpos
    · exact .inr (hno h0)
    · exact .inl hpos
  | some p =>
    rw [hf] at hv
    have hp : p = none := hv
    have := List.find?_some hf
    rw [hp] at this
    cases this

variable [DecidableEq τ]

omit [Fintype τ] in
/-- Only `t` moves, and it is concerned with no buffer but `i`. -/
theorem phase_frame {p : Phase} (hold : ∀ k, (s.phase t).at? ≠ some (k, j))
    (hnew : ∀ k, p.at? ≠ some (k, j)) (u : τ) :
    Function.update s.phase t p u = s.phase u ∨
      (∀ k, (s.phase u).at? ≠ some (k, j)) ∧
        ∀ k, (Function.update s.phase t p u).at? ≠ some (k, j) := by
  by_cases hu : u = t
  · rw [hu, Function.update_self]
    exact .inr ⟨hold, hnew⟩
  · exact .inl (Function.update_of_ne hu _ _)

omit [Fintype τ] in
theorem at_ne {p : Phase} (hp : p.at? = none ∨ p.at? = some (k, i)) (hij : j ≠ i) (k' : Block) :
    p.at? ≠ some (k', j) := by
  rcases hp with hp | hp <;> rw [hp] <;> intro h <;> cases h
  exact hij rfl

/-- **A step of one client with one buffer**: what is left to show concerns that buffer. -/
theorem Inv.local (h : Inv s C) {b : Buf τ} {p : Phase} {disk : Disk} {next prev : Ptr → Ptr}
    (hold : ∀ j, j ≠ i → ∀ k, (s.phase t).at? ≠ some (k, j))
    (hnew : ∀ j, j ≠ i → ∀ k, p.at? ≠ some (k, j))
    (hdisk : ∀ j, j ≠ i → disk (s.buf j).block = s.disk (s.buf j).block)
    (hC : ∀ j, j ≠ i → C' (s.buf j).block = C (s.buf j).block)
    (hring : ∃ l, Ring.IsRing next prev none l ∧ ∀ i, some i ∈ l)
    (hkeys : b.block = (s.buf i).block ∨ ∀ j, (s.buf j).block ≠ b.block)
    (habsent : ∀ k, k.dev ≠ 0 → (∀ j, j ≠ i → (s.buf j).block = k → (s.buf j).valid = false) →
      (b.block = k → b.valid = false) → disk k = C' k)
    (hgood : Good ⟨disk, Function.update s.buf i b, next, prev, Function.update s.phase t p⟩ C' i) :
    Inv ⟨disk, Function.update s.buf i b, next, prev, Function.update s.phase t p⟩ C' where
  good j := by
    by_cases hji : j = i
    · rw [hji]
      exact hgood
    · exact (h.good j).frame (Function.update_of_ne hji _ _)
        (phase_frame (hold j hji) (hnew j hji)) (hdisk j hji) (hC j hji)
  ring := hring
  keys a c hdev heq := by
    have hblock : ∀ a, a ≠ i → Function.update s.buf i b a = s.buf a := fun a ha =>
      Function.update_of_ne ha _ _
    simp only at hdev heq
    by_cases ha : a = i
    · by_cases hc : c = i
      · rw [ha, hc]
      · rw [ha, Function.update_self] at hdev heq
        rw [hblock c hc] at heq
        rcases hkeys with hsame | hfresh
        · rw [hsame] at hdev heq
          rw [ha]
          exact h.keys i c hdev heq
        · exact absurd heq.symm (hfresh c)
    · by_cases hc : c = i
      · rw [hblock a ha] at hdev heq
        rw [hc, Function.update_self] at heq
        rcases hkeys with hsame | hfresh
        · rw [hsame] at heq
          rw [hc]
          exact h.keys a i hdev heq
        · exact absurd heq (hfresh a)
      · rw [hblock a ha] at hdev heq
        rw [hblock c hc] at heq
        exact h.keys a c hdev heq
  absent k hdev hno := by
    refine habsent k hdev (fun j hj hk => ?_) fun hk => ?_
    · have := hno j
      simp only [Function.update_of_ne hj] at this
      exact this hk
    · have := hno i
      simp only [Function.update_self] at this
      exact this hk

/-- The same where neither the block nor the disk changes. -/
theorem Inv.local_keep (h : Inv s C) {b : Buf τ} {p : Phase} {next prev : Ptr → Ptr}
    (hold : ∀ j, j ≠ i → ∀ k, (s.phase t).at? ≠ some (k, j))
    (hnew : ∀ j, j ≠ i → ∀ k, p.at? ≠ some (k, j))
    (hring : ∃ l, Ring.IsRing next prev none l ∧ ∀ i, some i ∈ l)
    (hblock : b.block = (s.buf i).block) (hvalid : b.valid = false → (s.buf i).valid = false)
    (hgood : Good ⟨s.disk, Function.update s.buf i b, next, prev, Function.update s.phase t p⟩ C i) :
    Inv ⟨s.disk, Function.update s.buf i b, next, prev, Function.update s.phase t p⟩ C := by
  refine h.local hold hnew (fun _ _ => rfl) (fun _ _ => rfl) hring (.inl hblock) ?_ hgood
  intro k hdev hj hi
  refine h.absent k hdev fun j hk => ?_
  by_cases hji : j = i
  · rw [hji] at hk ⊢
    exact hvalid (hi (hblock.trans hk))
  · exact hj j hji hk

omit [DecidableEq τ] in
/-- The other buffers are of other blocks. -/
theorem Inv.block_ne (h : Inv s C) (hdev : (s.buf i).block.dev ≠ 0) (hj : j ≠ i) :
    (s.buf j).block ≠ (s.buf i).block :=
  fun heq => hj (h.keys i j hdev heq.symm).symm

/-- **`bget` on a block that is cached.** -/
theorem Inv.hit (h : Inv s C) (ht : s.phase t = .out) (hk : k.dev ≠ 0)
    (hc : cached s k = some i) :
    Inv (setPhase (setBuf s i { s.buf i with refcnt := (s.buf i).refcnt + 1 }) t (.want k i)) C := by
  have hblock := h.cached_some hc
  have hg := h.good i
  have hphase : ∀ {u : τ} {q : Phase}, Function.update s.phase t (.want k i) u = q →
      q ≠ .want k i → s.phase u = q := by
    intro u q hu hq
    rcases update_eq_cases hu with ⟨-, rfl⟩ | ⟨-, hu⟩
    · exact absurd rfl hq
    · exact hu
  refine h.local_keep (fun j _ k => by rw [ht]; exact fun h => by cases h)
    (fun j hj k' => at_ne (.inr rfl) hj k') h.ring rfl id ?_
  · constructor <;> simp only [Function.update_self]
    case refs =>
      have := total_update (Phase.uses i) s.phase t (.want k i)
      rw [ht, show (Phase.out).uses i = 0 from rfl, Phase.uses_eq_one (k := k) rfl] at this
      rw [hg.refs]
      exact this.symm
    case block =>
      refine (Function.forall_update_iff _ fun u (q : Phase) => ∀ k', q.at? = some (k', i) →
        (s.buf i).block = k' ∧ k'.dev ≠ 0).mpr ⟨?_, fun u _ => hg.block u⟩
      rintro k' ⟨⟩
      exact ⟨hblock, hk⟩
    case lock =>
      intro u
      rw [hg.lock u]
      by_cases hu : u = t
      · rw [hu, Function.update_self, ht]
        constructor <;> exact fun h => by cases h
      · rw [Function.update_of_ne hu]
    case reading => exact fun u k' hu => hg.reading u k' (hphase hu fun hq => Phase.noConfusion hq)
    case having => exact fun u k' b hu => hg.having u k' b (hphase hu fun hq => Phase.noConfusion hq)
    case dirty => exact hg.dirty
    case dev => exact hg.dev
    case content => exact hg.content
    case clean =>
      refine fun hv hd hno => hg.clean hv hd fun u k' hu => hno u k' ?_
      rw [Function.update_of_ne, hu]
      rintro rfl
      rw [ht] at hu
      cases hu

/-- **`bget` on another block**: an unused buffer is recycled. -/
theorem Inv.miss (h : Inv s C) (ht : s.phase t = .out) (hk : k.dev ≠ 0)
    (hc : cached s k = none) (hv : victim s = some i) :
    Inv (setPhase (setBuf s i
      { s.buf i with block := k, valid := false, dirty := false, refcnt := 1 }) t (.want k i)) C := by
  have hnone := h.cached_none hc
  obtain ⟨href, hdirty⟩ := h.victim_some hv
  have hg := h.good i
  have hno := hg.no_client href
  have hphase : ∀ {u : τ} {q : Phase}, Function.update s.phase t (.want k i) u = q →
      q ≠ .want k i → s.phase u = q := by
    intro u q hu hq
    rcases update_eq_cases hu with ⟨-, rfl⟩ | ⟨-, hu⟩
    · exact absurd rfl hq
    · exact hu
  refine h.local (fun j _ k => by rw [ht]; exact fun h => by cases h)
    (fun j hj k' => at_ne (.inr rfl) hj k') (fun _ _ => rfl) (fun _ _ => rfl) h.ring (.inr hnone)
    (fun k' hdev hj _ => ?_) ?_
  · by_cases hold : (s.buf i).block = k' ∧ (s.buf i).valid = true
    · -- the block that is dropped is on the disk as it was last written
      obtain ⟨rfl, hvalid⟩ := hold
      rw [← hg.content hvalid, hg.clean hvalid hdirty fun u k' hu => hno u k' (by rw [hu]; rfl)]
      rfl
    · refine h.absent k' hdev fun j hk' => ?_
      by_cases hji : j = i
      · rw [hji] at hk' ⊢
        by_contra hvalid
        rw [Bool.not_eq_false] at hvalid
        exact hold ⟨hk', hvalid⟩
      · exact hj j hji hk'
  · constructor <;> simp only [Function.update_self]
    case refs =>
      have := total_update (Phase.uses i) s.phase t (.want k i)
      rw [ht, show (Phase.out).uses i = 0 from rfl, Phase.uses_eq_one (k := k) rfl,
        ← hg.refs, href] at this
      exact this.symm
    case block =>
      refine (Function.forall_update_iff _ fun u (q : Phase) => ∀ k', q.at? = some (k', i) →
        k = k' ∧ k'.dev ≠ 0).mpr ⟨?_, fun u _ k' hu => absurd hu (hno u k')⟩
      rintro k' ⟨⟩
      exact ⟨rfl, hk⟩
    case lock =>
      intro u
      rw [hg.lock_none hno]
      constructor
      · exact fun h => by cases h
      · intro hu
        obtain ⟨k', hk'⟩ := Phase.at_of_holds hu
        by_cases hut : u = t
        · rw [hut, Function.update_self] at hu
          cases hu
        · rw [Function.update_of_ne hut] at hk'
          exact absurd hk' (hno u k')
    case reading => exact fun _ _ _ => trivial
    case having =>
      exact fun u k' b hu => absurd (by rw [hphase hu fun hq => Phase.noConfusion hq]; rfl) (hno u k')
    case dirty => exact fun hd => hd
    case dev => exact fun hv => Bool.noConfusion hv
    case content => exact fun hv => Bool.noConfusion hv
    case clean => exact fun hv => Bool.noConfusion hv

omit [Fintype τ] [DecidableEq τ] in
/-- A client moves on with its buffer. -/
theorem hold_at {k : Block} (ht : (s.phase t).at? = some (k, i)) (j : Fin NBUF) (hj : j ≠ i)
    (k' : Block) : (s.phase t).at? ≠ some (k', j) :=
  at_ne (.inr ht) hj k'

/-- The references, where the client keeps the buffer. -/
theorem Good.refs_update (h : Good s C i) {p : Phase} (ht : (s.phase t).at? = some (k, i))
    (hp : p.at? = some (k, i)) :
    (s.buf i).refcnt = total (Phase.uses i) (Function.update s.phase t p) := by
  have := total_update (Phase.uses i) s.phase t p
  rw [Phase.uses_eq_one ht, Phase.uses_eq_one hp] at this
  rw [h.refs]
  exact (Nat.add_right_cancel this).symm

/-- The blocks that the clients asked for, likewise. -/
theorem Good.block_update (h : Good s C i) {p : Phase} (ht : (s.phase t).at? = some (k, i))
    (hp : p.at? = some (k, i)) (u : τ) (k' : Block)
    (hu : (Function.update s.phase t p u).at? = some (k', i)) :
    (s.buf i).block = k' ∧ k'.dev ≠ 0 := by
  refine (Function.forall_update_iff _ fun u (q : Phase) => ∀ k', q.at? = some (k', i) →
    (s.buf i).block = k' ∧ k'.dev ≠ 0).mpr ⟨?_, fun u _ => h.block u⟩ u k' hu
  intro k'' hk''
  rw [hp] at hk''
  exact h.block t k'' (ht.trans hk'')

/-- The lock, where the client keeps it. -/
theorem Good.lock_update (h : Good s C i) {p : Phase} (ht : (s.phase t).holds = some i)
    (hp : p.holds = some i) (u : τ) :
    (s.buf i).lock = some u ↔ (Function.update s.phase t p u).holds = some i := by
  rw [h.lock u]
  by_cases hu : u = t
  · rw [hu, Function.update_self, ht, hp]
  · rw [Function.update_of_ne hu]

/-- Nobody else is in `iderw` or has the buffer. -/
theorem Good.alone (h : Good s C i) {p q : Phase} (ht : (s.phase t).holds = some i)
    (hq : q.holds = some i) {u : τ} (hu : Function.update s.phase t p u = q) : u = t ∧ p = q := by
  rcases update_eq_cases hu with hx | ⟨hne, hu⟩
  · exact hx
  · exact absurd (h.holder_unique (by rw [hu]; exact hq) ht) hne

/-- **`acquiresleep`** gives a free buffer to the client, which reads the block in where it must. -/
theorem Inv.acquire (h : Inv s C) (ht : s.phase t = .want k i) (hl : (s.buf i).lock = none) :
    Inv (acquire s t k i) C := by
  have hg := h.good i
  have hat : (s.phase t).at? = some (k, i) := by rw [ht]; rfl
  have hnew : (if (s.buf i).valid then Phase.has k i false else .read k i).at? = some (k, i) := by
    split <;> rfl
  have hholds : (if (s.buf i).valid then Phase.has k i false else .read k i).holds = some i := by
    split <;> rfl
  have hfree : ∀ u, (s.phase u).holds ≠ some i := fun u hu => by
    rw [← hg.lock u, hl] at hu
    cases hu
  refine h.local_keep (hold_at hat) (fun j hj k' => at_ne (.inr hnew) hj k') h.ring rfl id ?_
  constructor <;> simp only [Function.update_self]
  case refs => exact hg.refs_update hat hnew
  case block => exact hg.block_update hat hnew
  case lock =>
    intro u
    constructor
    · intro hu
      obtain rfl : t = u := Option.some.inj hu
      rw [Function.update_self]
      exact hholds
    · intro hu
      by_cases hut : u = t
      · rw [hut]
      · rw [Function.update_of_ne hut] at hu
        exact absurd hu (hfree u)
  case reading =>
    intro u k' hu
    rcases update_eq_cases hu with ⟨-, hx⟩ | ⟨-, hu⟩
    · split at hx
      · cases hx
      · rename_i hv
        rwa [Bool.not_eq_true] at hv
    · exact absurd (by rw [hu]; rfl) (hfree u)
  case having =>
    intro u k' b hu
    rcases update_eq_cases hu with ⟨-, hx⟩ | ⟨-, hu⟩
    · split at hx
      · assumption
      · cases hx
    · exact absurd (by rw [hu]; rfl) (hfree u)
  case dirty => exact hg.dirty
  case dev => exact hg.dev
  case content => exact hg.content
  case clean => exact fun hv hd _ => hg.clean hv hd fun u k' hu => hfree u (by rw [hu]; rfl)

/-- **A step of the client that holds the lock**, after which its data are `C k`. -/
theorem Inv.holder (h : Inv s C) (hat : (s.phase t).at? = some (k, i))
    (hholds : (s.phase t).holds = some i) {b : Buf τ} {disk : Disk} {touched : Bool}
    (hblock : b.block = (s.buf i).block) (href : b.refcnt = (s.buf i).refcnt)
    (hlock : b.lock = (s.buf i).lock) (hvalid : b.valid = true)
    (hdisk : ∀ k', k' ≠ k → disk k' = s.disk k') (hC : ∀ k', k' ≠ k → C' k' = C k')
    (hcontent : b.data = C' k)
    (hclean : b.dirty = false → touched = false → b.data = disk k) :
    Inv ⟨disk, Function.update s.buf i b, s.next, s.prev,
      Function.update s.phase t (.has k i touched)⟩ C' := by
  have hg := h.good i
  obtain ⟨hbk, hdev⟩ := hg.block t k hat
  have hother : ∀ j, j ≠ i → (s.buf j).block ≠ k := fun j hj => by
    rw [← hbk]
    exact h.block_ne (by rw [hbk]; exact hdev) hj
  refine h.local (hold_at hat) (fun j hj k' => at_ne (.inr rfl) hj k')
    (fun j hj => hdisk _ (hother j hj)) (fun j hj => hC _ (hother j hj)) h.ring (.inl hblock) ?_ ?_
  · intro k' hdev' hj hi
    by_cases hk : k' = k
    · rw [hk] at hi
      exact absurd (hi (hblock.trans hbk)) (by rw [hvalid]; decide)
    · rw [hdisk k' hk, hC k' hk]
      refine h.absent k' hdev' fun j hjk => hj j ?_ hjk
      rintro rfl
      exact hk (hjk.symm.trans hbk)
  · constructor <;> simp only [Function.update_self]
    case refs => exact href.trans (hg.refs_update hat rfl)
    case block =>
      rw [hblock]
      exact hg.block_update hat rfl
    case lock =>
      rw [hlock]
      exact hg.lock_update hholds rfl
    case reading =>
      intro u k' hu
      have := (hg.alone hholds rfl hu).2
      cases this
    case having => exact fun _ _ _ _ => hvalid
    case dirty => exact fun _ => hvalid
    case dev =>
      rw [hblock, hbk]
      exact fun _ => hdev
    case content =>
      rw [hblock, hbk]
      exact fun _ => hcontent
    case clean =>
      rw [hblock, hbk]
      refine fun _ hd hno => hclean hd ?_
      have := hno t k
      rw [Function.update_self] at this
      by_contra ht
      rw [Bool.not_eq_false] at ht
      exact this (by rw [ht])

/-- **`bread` of a block that was not cached.** -/
theorem Inv.read (h : Inv s C) (ht : s.phase t = .read k i) :
    Inv (setPhase (iderw s i) t (.has k i false)) C := by
  have hg := h.good i
  have hat : (s.phase t).at? = some (k, i) := by rw [ht]; rfl
  obtain ⟨hbk, hdev⟩ := hg.block t k hat
  have hvalid := hg.reading t k ht
  have hdirty : (s.buf i).dirty = false := by
    by_contra hd
    rw [Bool.not_eq_false] at hd
    exact absurd (hg.dirty hd) (by rw [hvalid]; decide)
  have habsent : s.disk k = C k := by
    refine h.absent k hdev fun j hj => ?_
    rw [← h.keys i j (by rw [hbk]; exact hdev) (hbk.trans hj.symm)]
    exact hvalid
  have hio : iderw s i = setBuf s i
      { s.buf i with data := s.disk (s.buf i).block, valid := true } := by
    simp only [iderw, hdirty]
    rfl
  rw [hio, hbk]
  exact h.holder hat (by rw [ht]; rfl) rfl rfl rfl rfl (fun _ _ => rfl) (fun _ _ => rfl) habsent
    fun _ _ => rfl

/-- **The client writes into the buffer.** -/
theorem Inv.modify (h : Inv s C) {touched : Bool} (ht : s.phase t = .has k i touched) (v : Data) :
    Inv (setPhase (setBuf s i { s.buf i with data := v }) t (.has k i true))
      (Function.update C k v) :=
  h.holder (by rw [ht]; rfl) (by rw [ht]; rfl) rfl rfl rfl ((h.good i).having t k touched ht)
    (fun _ _ => rfl) (fun _ hk => Function.update_of_ne hk _ _)
    (by rw [Function.update_self]) fun _ htouched => Bool.noConfusion htouched

omit [DecidableEq τ] in
theorem Inv.content_at (h : Inv s C) {touched : Bool} (ht : s.phase t = .has k i touched) :
    (s.buf i).block = k ∧ (s.buf i).data = C k := by
  have hg := h.good i
  have hbk := (hg.block t k (by rw [ht]; rfl)).1
  have := hg.content (hg.having t k touched ht)
  rw [hbk] at this
  exact ⟨hbk, this⟩

/-- **`log_write`** pins the buffer. -/
theorem Inv.pin (h : Inv s C) {touched : Bool} (ht : s.phase t = .has k i touched) :
    Inv (setPhase (setBuf s i { s.buf i with dirty := true }) t (.has k i false)) C :=
  h.holder (by rw [ht]; rfl) (by rw [ht]; rfl) rfl rfl rfl ((h.good i).having t k touched ht)
    (fun _ _ => rfl) (fun _ _ => rfl) (h.content_at ht).2 fun hd => Bool.noConfusion hd

/-- **`bwrite`** makes the disk agree with the buffer. -/
theorem Inv.bwrite (h : Inv s C) {touched : Bool} (ht : s.phase t = .has k i touched) :
    Inv (setPhase (iderw (setBuf s i { s.buf i with dirty := true }) i) t (.has k i false)) C := by
  obtain ⟨hbk, hdata⟩ := h.content_at ht
  have hio : iderw (setBuf s i { s.buf i with dirty := true }) i =
      { setBuf s i { s.buf i with valid := true, dirty := false } with
        disk := Function.update s.disk k (s.buf i).data } := by
    simp only [iderw, setBuf, Function.update_self, if_true, Function.update_idem, hbk]
  have hself : Function.update s.disk k (s.buf i).data k = (s.buf i).data :=
    Function.update_self _ _ _
  rw [hio]
  exact h.holder (by rw [ht]; rfl) (by rw [ht]; rfl) rfl rfl rfl rfl
    (fun _ hk => Function.update_of_ne hk _ _) (fun _ _ => rfl) hdata
    fun _ _ => hself.symm

/-- **`releasesleep`** leaves a buffer whose data are safe, on the disk or pinned. -/
theorem Inv.release (h : Inv s C) (ht : s.phase t = .has k i false) :
    Inv (setPhase (setBuf s i { s.buf i with lock := none }) t (.released k i)) C := by
  have hg := h.good i
  have hat : (s.phase t).at? = some (k, i) := by rw [ht]; rfl
  have hholds : (s.phase t).holds = some i := by rw [ht]; rfl
  have hnone : ∀ u, (Function.update s.phase t (.released k i) u).holds ≠ some i := by
    intro u hu
    by_cases hut : u = t
    · rw [hut, Function.update_self] at hu
      cases hu
    · rw [Function.update_of_ne hut] at hu
      exact hut (hg.holder_unique hu hholds)
  refine h.local_keep (hold_at hat) (fun j hj k' => at_ne (.inr rfl) hj k') h.ring rfl id ?_
  constructor <;> simp only [Function.update_self]
  case refs => exact hg.refs_update hat rfl
  case block => exact hg.block_update hat rfl
  case lock => exact fun u => ⟨fun hu => (by cases hu), fun hu => absurd hu (hnone u)⟩
  case reading => exact fun u k' hu => absurd (by rw [hu]; rfl) (hnone u)
  case having => exact fun u k' b hu => absurd (by rw [hu]; rfl) (hnone u)
  case dirty => exact hg.dirty
  case dev => exact hg.dev
  case content => exact hg.content
  case clean =>
    refine fun hv hd _ => hg.clean hv hd fun u k' hu => ?_
    obtain rfl := hg.holder_unique (t := u) (by rw [hu]; rfl) hholds
    rw [ht] at hu
    cases hu

/-- **The rest of `brelse`**: the count goes down, and at 0 the buffer goes to the front. -/
theorem Inv.unref (h : Inv s C) (ht : s.phase t = .released k i) : Inv (unref s t i) C := by
  have hg := h.good i
  have hat : (s.phase t).at? = some (k, i) := by rw [ht]; rfl
  have hgood : ∀ next prev, Good ⟨s.disk, Function.update s.buf i
      { s.buf i with refcnt := (s.buf i).refcnt - 1 }, next, prev,
      Function.update s.phase t .out⟩ C i := by
    intro next prev
    have hphase : ∀ {u : τ} {q : Phase}, Function.update s.phase t .out u = q → q ≠ .out →
        s.phase u = q := by
      intro u q hu hq
      rcases update_eq_cases hu with ⟨-, rfl⟩ | ⟨-, hu⟩
      · exact absurd rfl hq
      · exact hu
    constructor <;> simp only [Function.update_self]
    case refs =>
      have := total_update (Phase.uses i) s.phase t .out
      rw [Phase.uses_eq_one hat, show (Phase.out).uses i = 0 from rfl, ← hg.refs] at this
      omega
    case block =>
      exact (Function.forall_update_iff _ fun u (q : Phase) => ∀ k', q.at? = some (k', i) →
        (s.buf i).block = k' ∧ k'.dev ≠ 0).mpr ⟨fun _ hk' => (by cases hk'), fun u _ => hg.block u⟩
    case lock =>
      intro u
      rw [hg.lock u]
      by_cases hu : u = t
      · rw [hu, Function.update_self, ht]
        constructor <;> exact fun h => by cases h
      · rw [Function.update_of_ne hu]
    case reading => exact fun u k' hu => hg.reading u k' (hphase hu fun hq => Phase.noConfusion hq)
    case having => exact fun u k' b hu => hg.having u k' b (hphase hu fun hq => Phase.noConfusion hq)
    case dirty => exact hg.dirty
    case dev => exact hg.dev
    case content => exact hg.content
    case clean =>
      refine fun hv hd hno => hg.clean hv hd fun u k' hu => hno u k' ?_
      rw [Function.update_of_ne, hu]
      rintro rfl
      rw [ht] at hu
      cases hu
  have hout : ∀ j, j ≠ i → ∀ k', Phase.out.at? ≠ some (k', j) := fun _ _ _ h => by cases h
  unfold Bio.unref
  split
  · -- the buffer goes to the front of the ring
    obtain ⟨l, hr, hall⟩ := h.ring
    exact h.local_keep (hold_at hat) hout ⟨_, hr.toFront (hall i), fun j => Ring.mem_toFront (hall j)⟩
      rfl id (hgood _ _)
  · exact h.local_keep (hold_at hat) hout h.ring rfl id (hgood _ _)

end Inv

/-! ## All runs -/

/-- What the clients have done: the contents that they last wrote to each block, and when each buffer
    was last released by all of its clients. -/
structure Record where
  written : Disk
  now : Nat
  last : Fin NBUF → Nat

section Runs

variable {τ : Type}

/-- `binit` links the buffers one after the other. -/
def Record.start (disk : Disk) : Record := ⟨disk, NBUF, fun i => i⟩

/-- What is to be remembered of a step: a changed buffer, and when a buffer was last let go. -/
def record (s : State τ) (g : Record) : Event τ → Record
  | .modify t v =>
    match s.phase t with
    | .has k _ _ => { g with written := Function.update g.written k v }
    | _ => g
  | .unref t =>
    match s.phase t with
    | .released _ i =>
      if (s.buf i).refcnt - 1 = 0 then
        { g with now := g.now + 1, last := Function.update g.last i g.now }
      else g
    | _ => g
  | _ => g

/-- The runs of polite clients with their record. -/
def recorded [DecidableEq τ] (disk : Disk) : Lts (State τ × Record) (Event τ) :=
  ((system disk).withGhost (.start disk) record).guard fun x e => polite x.1 e

/-- The state and the record behind an event of polite clients. -/
def recordedStep [DecidableEq τ] (x : State τ × Record) (e : Event τ) : Option (State τ × Record) :=
  if polite x.1 e then (apply x.1 e).map fun s => (s, record x.1 x.2 e) else none

/-- A computed run is one with its record. -/
theorem recorded_reach [DecidableEq τ] {disk : Disk} {l : List (Event τ)} {x : State τ × Record}
    (h : l.foldlM recordedStep (boot disk, .start disk) = some x) : (recorded disk).Reach x := by
  refine Lts.Reach.foldlM (fun e _ x x' hstep => ⟨e, ?_⟩)
    (.start (s := (boot disk, .start disk)) ⟨rfl, rfl⟩) h
  obtain ⟨hok, hstep⟩ := Option.ite_none_right_eq_some.mp hstep
  obtain ⟨s, hs, rfl⟩ := Option.map_eq_some_iff.mp hstep
  exact ⟨hok, hs, rfl⟩

/-- When a buffer was last released. -/
def Record.age (g : Record) : Ptr → Nat
  | some i => g.last i
  | none => 0

/-- The ring goes from the buffer released last to the one released first. -/
structure Ordered (s : State τ) (g : Record) : Prop where
  ring : ∃ l, Ring.IsRing s.next s.prev none l ∧ (∀ i, some i ∈ l) ∧
    l.Pairwise fun p q => g.age q < g.age p
  past : ∀ i, g.last i < g.now

theorem ring_foldl {is : List (Fin NBUF)} (hnodup : is.Nodup) :
    ∀ {x : (Ptr → Ptr) × (Ptr → Ptr)} {l : List Ptr}, Ring.IsRing x.1 x.2 none l →
      (∀ i ∈ is, some i ∉ l) →
      Ring.IsRing (is.foldl (fun l b => linkFront l.1 l.2 b) x).1
        (is.foldl (fun l b => linkFront l.1 l.2 b) x).2 none (is.reverse.map some ++ l) := by
  induction is with
  | nil => exact fun h _ => h
  | cons i is ih =>
    intro x l h hnew
    obtain ⟨hi, hnodup⟩ := List.nodup_cons.mp hnodup
    have hins := h.insert (b := some i) (fun h => by cases h) (hnew i List.mem_cons_self)
    have := ih hnodup (x := linkFront x.1 x.2 i) hins fun j hj hm => by
      rcases List.mem_cons.mp hm with heq | hm
      · exact hi (Option.some.inj heq ▸ hj)
      · exact hnew j (List.mem_cons_of_mem _ hj) hm
    rw [List.reverse_cons, List.map_append, List.append_assoc]
    exact this

/-- **`binit`** makes a ring of all buffers. -/
theorem ring_binit : Ring.IsRing binit.1 binit.2 none ((List.finRange NBUF).reverse.map some) := by
  have hempty : Ring.IsRing (fun _ => none) (fun _ => none) (none : Ptr) [] :=
    ⟨⟨rfl, rfl⟩, List.nodup_cons.mpr ⟨List.not_mem_nil, List.nodup_nil⟩⟩
  have := ring_foldl (List.nodup_finRange NBUF)
    (x := ((fun _ => none, fun _ => none) : (Ptr → Ptr) × (Ptr → Ptr))) hempty
    fun i _ => List.not_mem_nil
  rwa [List.append_nil] at this

theorem mem_binit (i : Fin NBUF) : some i ∈ (List.finRange NBUF).reverse.map some :=
  List.mem_map_of_mem (List.mem_reverse.mpr (List.mem_finRange i))

theorem ordered_boot (disk : Disk) : Ordered (boot disk : State τ) (.start disk) where
  ring := by
    refine ⟨_, ring_binit, mem_binit, List.pairwise_map.mpr (List.pairwise_reverse.mpr ?_)⟩
    exact (List.pairwise_lt_finRange NBUF).imp fun h => h
  past i := i.isLt

variable [Fintype τ]

theorem inv_boot (disk : Disk) : Inv (boot disk : State τ) disk where
  good i :=
    { refs := (total_eq_zero.mpr fun _ => rfl).symm
      block := fun _ _ h => by cases h
      lock := fun _ => ⟨fun h => (by cases h), fun h => (by cases h)⟩
      reading := fun _ _ h => by cases h
      having := fun _ _ _ h => by cases h
      dirty := fun h => by cases h
      dev := fun h => by cases h
      content := fun h => by cases h
      clean := fun h => by cases h }
  ring := ⟨_, ring_binit, mem_binit⟩
  keys _ _ h := absurd rfl h
  absent _ _ _ := rfl

variable [DecidableEq τ] {s s' : State τ} {g : Record} {t : τ} {k : Block}

/-- **Every step** of polite clients keeps the invariant, with the contents that were
    last written. -/
theorem Inv.step {e : Event τ} (h : Inv s g.written) (hok : polite s e) (hs : apply s e = some s') :
    Inv s' (record s g e).written := by
  cases e with
  | bget t k =>
    obtain ⟨ht, hs⟩ := apply_bget hs
    rcases bget_cases hs with ⟨i, hc, rfl⟩ | ⟨i, hc, hv, rfl⟩
    · exact h.hit ht hok hc
    · exact h.miss ht hok hc hv
  | acquire t =>
    obtain ⟨k, i, ht, hl, rfl⟩ := apply_acquire hs
    exact h.acquire ht hl
  | read t =>
    obtain ⟨k, i, ht, rfl⟩ := apply_read hs
    exact h.read ht
  | modify t v =>
    obtain ⟨k, i, touched, ht, rfl⟩ := apply_modify hs
    simp only [record, ht]
    exact h.modify ht v
  | pin t =>
    obtain ⟨k, i, touched, ht, rfl⟩ := apply_pin hs
    exact h.pin ht
  | bwrite t =>
    obtain ⟨k, i, touched, ht, rfl⟩ := apply_bwrite hs
    exact h.bwrite ht
  | release t =>
    obtain ⟨k, i, touched, ht, rfl⟩ := apply_release hs
    cases touched with
    | true => exact absurd ht (hok k i)
    | false => exact h.release ht
  | unref t =>
    obtain ⟨k, i, ht, rfl⟩ := apply_unref hs
    have hw : (record s g (.unref t)).written = g.written := by
      simp only [record, ht]
      split <;> rfl
    rw [hw]
    exact h.unref ht

omit [Fintype τ] in
/-- The links change in `brelse` only. -/
theorem links_step {e : Event τ} (hs : apply s e = some s') :
    (s'.next = s.next ∧ s'.prev = s.prev ∧ (record s g e).last = g.last ∧
        (record s g e).now = g.now) ∨
      ∃ t k i, e = .unref t ∧ s.phase t = .released k i ∧ (s.buf i).refcnt - 1 = 0 ∧
        s' = Bio.unref s t i := by
  cases e with
  | bget t k =>
    rcases bget_cases (apply_bget hs).2 with ⟨i, -, rfl⟩ | ⟨i, -, -, rfl⟩ <;>
      exact .inl ⟨rfl, rfl, rfl, rfl⟩
  | acquire t =>
    obtain ⟨k, i, -, -, rfl⟩ := apply_acquire hs
    exact .inl ⟨rfl, rfl, rfl, rfl⟩
  | read t =>
    obtain ⟨k, i, -, rfl⟩ := apply_read hs
    simp only [iderw]
    split <;> exact .inl ⟨rfl, rfl, rfl, rfl⟩
  | modify t v =>
    obtain ⟨k, i, touched, ht, rfl⟩ := apply_modify hs
    refine .inl ⟨rfl, rfl, ?_, ?_⟩ <;> simp only [record, ht]
  | pin t =>
    obtain ⟨k, i, touched, -, rfl⟩ := apply_pin hs
    exact .inl ⟨rfl, rfl, rfl, rfl⟩
  | bwrite t =>
    obtain ⟨k, i, touched, -, rfl⟩ := apply_bwrite hs
    simp only [iderw]
    split <;> exact .inl ⟨rfl, rfl, rfl, rfl⟩
  | release t =>
    obtain ⟨k, i, touched, -, rfl⟩ := apply_release hs
    exact .inl ⟨rfl, rfl, rfl, rfl⟩
  | unref t =>
    obtain ⟨k, i, ht, rfl⟩ := apply_unref hs
    by_cases hz : (s.buf i).refcnt - 1 = 0
    · exact .inr ⟨t, k, i, rfl, ht, hz, rfl⟩
    · simp only [Bio.unref, if_neg hz]
      refine .inl ⟨rfl, rfl, ?_, ?_⟩ <;> simp only [record, ht, if_neg hz]

omit [Fintype τ] in
/-- **Every step** keeps the list in the order of the last releases. -/
theorem Ordered.step {e : Event τ} (h : Ordered s g) (hs : apply s e = some s') :
    Ordered s' (record s g e) := by
  obtain ⟨l, hr, hall, hsorted⟩ := h.ring
  rcases links_step (g := g) hs with ⟨hn, hp, hlast, hnow⟩ | ⟨t, k, i, rfl, ht, hz, rfl⟩
  · have hage : (record s g e).age = g.age := by
      funext p
      cases p with
      | none => rfl
      | some i => exact congrFun hlast i
    refine ⟨⟨l, by rw [hn, hp]; exact hr, hall, by rw [hage]; exact hsorted⟩, ?_⟩
    rw [hlast, hnow]
    exact h.past
  · have hrec : record s g (.unref t) =
        { g with now := g.now + 1, last := Function.update g.last i g.now } := by
      simp only [record, ht, if_pos hz]
    have hother : ∀ p, p ≠ some i → p ≠ none →
        (record s g (.unref t)).age p = g.age p := by
      intro p hp hne
      cases p with
      | none => exact absurd rfl hne
      | some j =>
        rw [hrec]
        exact Function.update_of_ne (fun hj => hp (congrArg some hj)) _ _
    have hself : (record s g (.unref t)).age (some i) = g.now := by
      rw [hrec]
      exact Function.update_self _ _ _
    have hlt : ∀ p, p ∈ l → g.age p < g.now := by
      intro p hp
      cases p with
      | none => exact absurd hp hr.not_mem
      | some j => exact h.past j
    have hmem : ∀ p ∈ Ring.rest (some i) l, p ≠ some i ∧ p ≠ none ∧ p ∈ l := by
      intro p hp
      obtain ⟨hpi, hin⟩ := hr.mem_rest hp
      refine ⟨hpi, ?_, hin⟩
      rintro rfl
      exact hr.not_mem hin
    constructor
    · refine ⟨some i :: Ring.rest (some i) l, ?_, fun j => Ring.mem_toFront (hall j),
        List.pairwise_cons.mpr ⟨?_, ?_⟩⟩
      · unfold Bio.unref
        rw [if_pos hz]
        exact hr.toFront (hall i)
      · intro p hp
        obtain ⟨hpi, hpn, hin⟩ := hmem p hp
        rw [hself, hother p hpi hpn]
        exact hlt p hin
      · refine (hsorted.sublist Ring.rest_sublist).imp_of_mem fun {p q} hp hq hpq => ?_
        obtain ⟨hpi, hpn, -⟩ := hmem p hp
        obtain ⟨hqi, hqn, -⟩ := hmem q hq
        rw [hother p hpi hpn, hother q hqi hqn]
        exact hpq
    · rw [hrec]
      refine (Function.forall_update_iff _ fun _ (n : Nat) => n < g.now + 1).mpr
        ⟨Nat.lt_succ_self _, fun j _ => Nat.lt_succ_of_lt (h.past j)⟩

/-- **Every run** of polite clients keeps the invariant and the order of the list. -/
theorem reach_inv {disk : Disk} {x : State τ × Record} (h : (recorded disk).Reach x) :
    Inv x.1 x.2.written ∧ Ordered x.1 x.2 := by
  refine Lts.Reach.invariant
    (I := fun x : State τ × Record => Inv x.1 x.2.written ∧ Ordered x.1 x.2) ?_ ?_ h
  · rintro ⟨s, g⟩ ⟨hs, hg⟩
    obtain rfl : s = boot disk := hs
    obtain rfl : g = .start disk := hg
    exact ⟨inv_boot disk, ordered_boot disk⟩
  · rintro ⟨s, g⟩ e ⟨s', g'⟩ ⟨hinv, hord⟩ ⟨hok, hs, hg⟩
    obtain rfl : g' = record s g e := hg
    exact ⟨hinv.step hok hs, hord.step hs⟩

/-- **The cache is coherent.**  In every state that clients reach who write or pin what they change,
    a client that has a buffer from `bread(k)` has the only buffer of block `k`, alone, and the data
    that were last written to `k` by anyone; and what is written last to a block is on the disk, or
    in a buffer that is dirty or in the hands of the client that changed it. -/
theorem bread_coherent {disk : Disk} {x : State τ × Record} (h : (recorded disk).Reach x) :
    (∀ t k i touched, x.1.phase t = .has k i touched →
      (x.1.buf i).block = k ∧ (x.1.buf i).data = x.2.written k ∧
        (∀ j, (x.1.buf j).block = k → j = i) ∧ ∀ u j m, x.1.phase u = .has k j m → u = t) ∧
    ∀ k, k.dev ≠ 0 → x.1.disk k ≠ x.2.written k → ∃ i, (x.1.buf i).block = k ∧
      (x.1.buf i).data = x.2.written k ∧
        ((x.1.buf i).dirty = true ∨ ∃ t k', x.1.phase t = .has k' i true) := by
  obtain ⟨hinv, -⟩ := reach_inv h
  constructor
  · intro t k i touched ht
    obtain ⟨hblock, hdata⟩ := hinv.content_at ht
    have hdev := ((hinv.good i).block t k (by rw [ht]; rfl)).2
    have honly : ∀ j, (x.1.buf j).block = k → j = i := fun j hj =>
      (hinv.keys i j (by rw [hblock]; exact hdev) (hblock.trans hj.symm)).symm
    refine ⟨hblock, hdata, honly, fun u j m hu => ?_⟩
    obtain rfl := honly j (hinv.content_at hu).1
    exact (hinv.good j).holder_unique (by rw [hu]; rfl) (by rw [ht]; rfl)
  · intro k hdev hne
    obtain ⟨i, hi, hvalid⟩ : ∃ i, (x.1.buf i).block = k ∧ (x.1.buf i).valid = true := by
      by_contra hno
      refine hne (hinv.absent k hdev fun i hi => ?_)
      by_contra hv
      rw [Bool.not_eq_false] at hv
      exact hno ⟨i, hi, hv⟩
    have hg := hinv.good i
    have hdata := hg.content hvalid
    rw [hi] at hdata
    refine ⟨i, hi, hdata, ?_⟩
    by_contra hno
    rw [not_or, Bool.not_eq_true] at hno
    have hclean := hg.clean hvalid hno.1 fun t k' ht => hno.2 ⟨t, k', ht⟩
    rw [hi, hdata] at hclean
    exact hne hclean.symm

/-- A client's use of a block that it only reads: a buffer that is not valid is read in first. -/
def reads (t : Fin 2) (b : Nat) : List (Event (Fin 2)) :=
  [.bget t ⟨1, b⟩, .acquire t, .read t, .release t, .unref t]

/-- Client 1 writes block 5; then client 0 reads as many blocks as there are buffers, and block 5
    again, and changes it. -/
def rewritten : List (Event (Fin 2)) :=
  [.bget 1 ⟨1, 5⟩, .acquire 1, .read 1, .modify 1 fun _ => 7, .bwrite 1, .release 1, .unref 1] ++
  (List.range' 100 30).flatMap (reads 0) ++
  [.bget 0 ⟨1, 5⟩, .acquire 0, .read 0, .modify 0 fun _ => 8]

theorem rewritten_reach : ∃ x : State (Fin 2) × Record, (recorded fun _ _ => 0).Reach x ∧
    x.1.phase 0 = .has ⟨1, 5⟩ 1 true ∧
    [x.1.disk ⟨1, 5⟩ 0, (x.1.buf 1).data 0, x.2.written ⟨1, 5⟩ 0] = [7, 8, 8] := by
  have hrun : (rewritten.foldlM recordedStep (boot fun _ _ => 0, .start fun _ _ => 0)).map (fun x =>
      (x.1.phase 0, [x.1.disk ⟨1, 5⟩ 0, (x.1.buf 1).data 0, x.2.written ⟨1, 5⟩ 0])) =
      some (.has ⟨1, 5⟩ 1 true, [7, 8, 8]) := by decide +kernel
  obtain ⟨x, hx, hfacts⟩ := Option.map_eq_some_iff.mp hrun
  exact ⟨x, recorded_reach hx, Prod.mk.inj hfacts⟩

/-- The block that was written to has another buffer, with what was written last. -/
theorem bread_coherent_rewritten : ∃ x : State (Fin 2) × Record,
    x.1.phase 0 = .has ⟨1, 5⟩ 1 true ∧ x.1.disk ⟨1, 5⟩ ≠ x.2.written ⟨1, 5⟩ ∧
    (∀ t k i touched, x.1.phase t = .has k i touched →
      (x.1.buf i).block = k ∧ (x.1.buf i).data = x.2.written k ∧
        (∀ j, (x.1.buf j).block = k → j = i) ∧ ∀ u j m, x.1.phase u = .has k j m → u = t) ∧
    ∀ k, k.dev ≠ 0 → x.1.disk k ≠ x.2.written k → ∃ i, (x.1.buf i).block = k ∧
      (x.1.buf i).data = x.2.written k ∧
        ((x.1.buf i).dirty = true ∨ ∃ t k', x.1.phase t = .has k' i true) := by
  obtain ⟨x, h, hphase, hbytes⟩ := rewritten_reach
  refine ⟨x, hphase, fun heq => ?_, bread_coherent h⟩
  simp only [heq, List.cons.injEq] at hbytes
  exact absurd (hbytes.1.symm.trans hbytes.2.2.1) (by decide)

omit [DecidableEq τ] in
theorem refcnt_pos_iff {C : Disk} {i : Fin NBUF} (h : Good s C i) :
    0 < (s.buf i).refcnt ↔ ∃ u k, (s.phase u).at? = some (k, i) := by
  constructor
  · intro hpos
    by_contra hno
    have hzero : total (Phase.uses i) s.phase = 0 := total_eq_zero.mpr fun u =>
      Phase.uses_eq_zero fun k hk => hno ⟨u, k, hk⟩
    rw [← h.refs] at hzero
    omega
  · rintro ⟨u, k, hu⟩
    by_contra hpos
    exact h.no_client (Nat.eq_zero_of_not_pos hpos) u k hu

/-- A block without a buffer: `bget` panics where its second loop finds nothing. -/
theorem Inv.bget_none {C : Disk} (h : Inv s C) (hk : ∀ i, (s.buf i).block ≠ k) :
    bget s t k = none ↔ victim s = none := by
  have hcached : cached s k = none := by
    cases hc : cached s k with
    | none => rfl
    | some i => exact absurd (h.cached_some hc) (hk i)
  simp only [bget, hcached]
  cases victim s with
  | none => exact iff_of_true rfl rfl
  | some i => exact iff_of_false (fun hno => by cases hno) fun hno => by cases hno

omit [Fintype τ] [DecidableEq τ] in
/-- Its second loop finds the buffer that was released first. -/
theorem Ordered.victim_first {i j : Fin NBUF} (h : Ordered s g) (hv : victim s = some i)
    (hzero : (s.buf j).refcnt = 0) (hd : (s.buf j).dirty = false) : g.last i ≤ g.last j := by
  obtain ⟨l, hr, hall, hsorted⟩ := h.ring
  rw [victim, hr.find_prev _ (ring_length hr)] at hv
  cases hf : l.reverse.find? (unused s) with
  | none => rw [hf] at hv; cases hv
  | some p =>
    rw [hf] at hv
    obtain rfl : p = some i := hv
    have hunused : unused s (some j) = true := by
      simp only [unused, hzero, hd, decide_true, Bool.not_false, Bool.and_self]
    rcases Ring.after_of_find_reverse hsorted hf (hall j) hunused with heq | hlt
    · rw [Option.some.inj heq]
    · exact Nat.le_of_lt hlt

omit [Fintype τ] [DecidableEq τ] in
/-- **The list of buffers**: a ring of all of them, from the one released last to the one released
    first. -/
theorem Ordered.whole (h : Ordered s g) : ∃ l, Ring.IsRing s.next s.prev none l ∧
    (∀ p, p ∈ l ↔ p ≠ none) ∧ l.length = NBUF ∧ l.Pairwise fun p q => g.age q < g.age p := by
  obtain ⟨l, hr, hall, hsorted⟩ := h.ring
  have hmem : ∀ p, p ∈ l ↔ p ≠ none := by
    intro p
    cases p with
    | none => exact iff_of_false hr.not_mem fun hne => hne rfl
    | some i => exact iff_of_true (hall i) fun hno => by cases hno
  have hfull : (none :: l).toFinset = Finset.univ := by
    refine Finset.eq_univ_iff_forall.mpr fun p => ?_
    rw [List.mem_toFinset, List.mem_cons, hmem]
    exact Classical.em _
  have hcard := List.toFinset_card_of_nodup hr.nodup
  rw [hfull, Finset.card_univ, Fintype.card_option, Fintype.card_fin, List.length_cons] at hcard
  exact ⟨l, hr, hmem, (Nat.succ.inj hcard).symm, hsorted⟩

/-- **`bget` recycles the least recently used buffer.**  The list of buffers is a ring of all `NBUF` of
    them, and `refcnt` is 0 exactly where no client has the buffer.  For a block without a buffer
    `bget` panics only where every buffer is dirty or has a `refcnt` above 0; otherwise it takes a
    buffer that is neither, and of all those the one that its last client released first. -/
theorem bget_recycles {disk : Disk} {x : State τ × Record} (h : (recorded disk).Reach x) :
    (∃ l, Ring.IsRing x.1.next x.1.prev none l ∧ (∀ p, p ∈ l ↔ p ≠ none) ∧ l.length = NBUF ∧
      l.Pairwise fun p q => x.2.age q < x.2.age p) ∧
    (∀ i, (x.1.buf i).refcnt = 0 ↔ ∀ u k, (x.1.phase u).at? ≠ some (k, i)) ∧
    ∀ (t : τ) (k : Block), (∀ i, (x.1.buf i).block ≠ k) →
      (bget x.1 t k = none ↔ ∀ i, (x.1.buf i).refcnt = 0 → (x.1.buf i).dirty = true) ∧
      ∀ s', bget x.1 t k = some s' → ∃ i, s'.phase t = .want k i ∧ (s'.buf i).block = k ∧
        (x.1.buf i).refcnt = 0 ∧ (x.1.buf i).dirty = false ∧
        ∀ j, (x.1.buf j).refcnt = 0 → (x.1.buf j).dirty = false → x.2.last i ≤ x.2.last j := by
  obtain ⟨hinv, hord⟩ := reach_inv h
  refine ⟨hord.whole, fun i => ⟨(hinv.good i).no_client, fun hno => ?_⟩, fun t k hk => ⟨?_, ?_⟩⟩
  · by_contra hne
    obtain ⟨u, k, hu⟩ := (refcnt_pos_iff (hinv.good i)).mp (Nat.pos_of_ne_zero hne)
    exact hno u k hu
  · rw [hinv.bget_none hk]
    constructor
    · intro hnone i hzero
      exact (hinv.victim_none hnone i).resolve_left (by omega)
    · intro hall
      cases hv : victim x.1 with
      | none => rfl
      | some i =>
        obtain ⟨href, hdirty⟩ := hinv.victim_some hv
        rw [hall i href] at hdirty
        cases hdirty
  · intro s' hs'
    rcases bget_cases hs' with ⟨i, hc, -⟩ | ⟨i, -, hv, rfl⟩
    · exact absurd (hinv.cached_some hc) (hk i)
    · obtain ⟨href, hdirty⟩ := hinv.victim_some hv
      have hphase : Function.update x.1.phase t (.want k i) t = .want k i :=
        Function.update_self _ _ _
      exact ⟨i, hphase, by simp only [setPhase, setBuf, Function.update_self], href, hdirty,
        fun j hzero hd => hord.victim_first hv hzero hd⟩

/-- Client 0 reads 30 blocks one after the other.  Then client 1 uses block 0 again, and logs a change
    of block 1; client 0 has block 2. -/
def cycled : List (Event (Fin 2)) :=
  (List.range 30).flatMap (reads 0) ++ [.bget 1 ⟨1, 0⟩, .acquire 1, .release 1, .unref 1] ++
  [.bget 1 ⟨1, 1⟩, .acquire 1, .modify 1 fun _ => 7, .pin 1, .release 1, .unref 1] ++
  [.bget 0 ⟨1, 2⟩, .acquire 0]

/-- Of the first four buffers, one was used again, one is dirty and one is in use; the next block gets
    the fourth. -/
theorem bget_recycles_cycled : ∃ (x : State (Fin 2) × Record) (s' : State (Fin 2)),
    (recorded fun _ _ => 0).Reach x ∧ [(x.1.buf 1).dirty, (x.1.buf 3).dirty] = [true, false] ∧
    [(x.1.buf 1).refcnt, (x.1.buf 2).refcnt, (x.1.buf 3).refcnt] = [0, 1, 0] ∧
    bget x.1 1 ⟨1, 30⟩ = some s' ∧ s'.phase 1 = .want ⟨1, 30⟩ 3 ∧
    (∀ j, (x.1.buf j).refcnt = 0 → (x.1.buf j).dirty = false → x.2.last 3 ≤ x.2.last j) ∧
    ∃ l, Ring.IsRing x.1.next x.1.prev none l ∧ l.length = NBUF := by
  have hrun : (cycled.foldlM recordedStep (boot fun _ _ => 0, .start fun _ _ => 0)).map (fun x =>
      ([(x.1.buf 1).dirty, (x.1.buf 3).dirty, decide (∀ i, (x.1.buf i).block ≠ ⟨1, 30⟩)],
        [(x.1.buf 1).refcnt, (x.1.buf 2).refcnt, (x.1.buf 3).refcnt],
        (bget x.1 1 ⟨1, 30⟩).map fun s' => s'.phase 1)) =
      some ([true, false, true], [0, 1, 0], some (.want ⟨1, 30⟩ 3)) := by decide +kernel
  obtain ⟨x, hx, hfacts⟩ := Option.map_eq_some_iff.mp hrun
  obtain ⟨hflags, hfacts⟩ := Prod.mk.inj hfacts
  obtain ⟨hrefs, hnext⟩ := Prod.mk.inj hfacts
  simp only [List.cons.injEq, and_true, decide_eq_true_eq] at hflags
  obtain ⟨hdirty, hclean, hblock⟩ := hflags
  obtain ⟨s', hs', hphase⟩ := Option.map_eq_some_iff.mp hnext
  have hr := recorded_reach hx
  obtain ⟨⟨l, hring, -, hlen, -⟩, -, hmiss⟩ := bget_recycles hr
  obtain ⟨i, hwant, -, -, -, hfirst⟩ := (hmiss 1 ⟨1, 30⟩ hblock).2 s' hs'
  obtain ⟨-, rfl⟩ := Phase.want.inj (hwant.symm.trans hphase)
  exact ⟨x, s', hr, by rw [hdirty, hclean], hrefs, hs', hphase, hfirst, l, hring, hlen⟩

end Runs

end OsCodes.Bio
