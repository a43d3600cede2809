/-
  The children of a process: they run, end in any order, and are reaped by a `wait` that takes any
  of those that have ended.  The list has the youngest child first.

  `One r` is a step of one element of a list; ending and being reaped are two such steps.

  `One` is used for both steps, so that what holds of any single step of a list is proved once:
  where an element comes from, what becomes of it, and that counts and images change in one place.
  With all children but the youngest reaped, a `wait` takes the youngest (`Waits.young`); as long
  as a child is left to reap, one can end or a `wait` can return with one
  (`exists_step_of_pending`).
-/
import Mathlib.Tactic.Common

namespace OsCodes.Children

/-! ## A step of one element -/

section One

variable {β : Type} {r : β → β → Prop} {cs ds : List β} {c d : β}

/-- One element takes the step `r`. -/
inductive One (r : β → β → Prop) : List β → List β → Prop
  | here {c d : β} {cs : List β} : r c d → One r (c :: cs) (d :: cs)
  | there {c : β} {cs ds : List β} : One r cs ds → One r (c :: cs) (c :: ds)

/-- What becomes of an element: it is the one that changes, or is still there. -/
theorem One.fate (h : One r cs ds) (hc : c ∈ cs) : ∃ d ∈ ds, d = c ∨ r c d := by
  induction h with
  | here hr =>
    rcases List.mem_cons.1 hc with rfl | hc
    · exact ⟨_, List.mem_cons_self, .inr hr⟩
    · exact ⟨c, List.mem_cons_of_mem _ hc, .inl rfl⟩
  | there _ ih =>
    rcases List.mem_cons.1 hc with rfl | hc
    · exact ⟨_, List.mem_cons_self, .inl rfl⟩
    · obtain ⟨d, hd, h⟩ := ih hc
      exact ⟨d, List.mem_cons_of_mem _ hd, h⟩

/-- Where an element comes from: it is the one that has changed, or was there before. -/
theorem One.origin (h : One r cs ds) (hd : d ∈ ds) : ∃ c ∈ cs, d = c ∨ r c d := by
  induction h with
  | here hr =>
    rcases List.mem_cons.1 hd with rfl | hd
    · exact ⟨_, List.mem_cons_self, .inr hr⟩
    · exact ⟨d, List.mem_cons_of_mem _ hd, .inl rfl⟩
  | there _ ih =>
    rcases List.mem_cons.1 hd with rfl | hd
    · exact ⟨_, List.mem_cons_self, .inl rfl⟩
    · obtain ⟨c, hc, h⟩ := ih hd
      exact ⟨c, List.mem_cons_of_mem _ hc, h⟩

/-- An element that can take the step may be the one. -/
theorem One.exists_of_mem (hc : c ∈ cs) (hr : r c d) : ∃ ds, One r cs ds ∧ d ∈ ds := by
  induction cs with
  | nil => cases hc
  | cons b cs ih =>
    rcases List.mem_cons.1 hc with rfl | hc
    · exact ⟨_, .here hr, List.mem_cons_self⟩
    · obtain ⟨ds, h, hm⟩ := ih hc
      exact ⟨b :: ds, .there h, List.mem_cons_of_mem _ hm⟩

theorem not_one (h : ∀ c ∈ cs, ∀ d, ¬r c d) : ¬One r cs ds := by
  intro hm
  induction hm with
  | here hr => exact h _ List.mem_cons_self _ hr
  | there _ ih => exact ih fun c hc => h c (List.mem_cons_of_mem _ hc)

/-- Only the first can take the step where the others cannot. -/
theorem One.young (h : One r (c :: cs) ds) (hcs : ∀ c ∈ cs, ∀ d, ¬r c d) :
    ∃ d, r c d ∧ ds = d :: cs := by
  cases h with
  | here hr => exact ⟨_, hr, rfl⟩
  | there h => exact absurd h (not_one hcs)

/-- A step that keeps `p` keeps the number of elements with `p`. -/
theorem One.countP_eq {p : β → Bool} (h : One r cs ds) (hr : ∀ c ∈ cs, ∀ d, r c d → p c = p d) :
    ds.countP p = cs.countP p := by
  induction h with
  | here h => rw [List.countP_cons, List.countP_cons, hr _ List.mem_cons_self _ h]
  | there _ ih =>
    rw [List.countP_cons, List.countP_cons, ih fun c hc => hr c (List.mem_cons_of_mem _ hc)]

/-- A step out of `p` makes one element less. -/
theorem One.countP_lt {p : β → Bool} (h : One r cs ds)
    (hr : ∀ c ∈ cs, ∀ d, r c d → p c = true ∧ p d = false) :
    cs.countP p = ds.countP p + 1 := by
  induction h with
  | here h =>
    obtain ⟨hc, hd⟩ := hr _ List.mem_cons_self _ h
    simp [hc, hd]
  | there _ ih =>
    have := ih fun c hc => hr c (List.mem_cons_of_mem _ hc)
    rw [List.countP_cons, List.countP_cons]
    omega

/-- A step that keeps `f` keeps the list of its values. -/
theorem One.map_eq {γ : Type} {f : β → γ} (h : One r cs ds) (hr : ∀ c d, r c d → f d = f c) :
    ds.map f = cs.map f := by
  induction h with
  | here h => rw [List.map_cons, List.map_cons, hr _ _ h]
  | there _ ih => rw [List.map_cons, List.map_cons, ih]

theorem One.length_eq (h : One r cs ds) : ds.length = cs.length := by
  induction h with
  | here => rfl
  | there _ ih => rw [List.length_cons, List.length_cons, ih]

/-- A step of an image is the image of a step. -/
theorem One.of_map {γ : Type} {q : γ → γ → Prop} {f : β → γ} {es : List γ}
    (h : One q (cs.map f) es) (hq : ∀ c e, q (f c) e → ∃ d, r c d ∧ e = f d) :
    ∃ ds, One r cs ds ∧ es = ds.map f := by
  induction cs generalizing es with
  | nil => cases h
  | cons c cs ih =>
    rw [List.map_cons] at h
    cases h with
    | here h =>
      obtain ⟨d, hr, rfl⟩ := hq _ _ h
      exact ⟨d :: cs, .here hr, rfl⟩
    | there h =>
      obtain ⟨ds, hone, rfl⟩ := ih h
      exact ⟨c :: ds, .there hone, rfl⟩

end One

/-! ## Children -/

/-- A child runs, has ended and is still to be reaped, or has been reaped. -/
inductive Status
  | running
  | zombie
  | reaped
  deriving DecidableEq

/-- A child, with what its parent knows of it. -/
structure Child (α : Type) where
  what : α
  status : Status

variable {α : Type} {cs ds : List (Child α)} {c d : Child α}

/-- The step from status `f` to status `t`. -/
def Moves (f t : Status) (c d : Child α) : Prop := c.status = f ∧ d = { c with status := t }

/-- A child ends. -/
abbrev Ends (cs ds : List (Child α)) : Prop := One (Moves .running .zombie) cs ds

/-- `wait(NULL)` reaps a child that has ended, whichever it is. -/
abbrev Reaps (cs ds : List (Child α)) : Prop := One (Moves .zombie .reaped) cs ds

/-- `wait(NULL)` returns: it has reaped a child, or there is none left. -/
def Waits (cs ds : List (Child α)) : Prop :=
  Reaps cs ds ∨ ((∀ c ∈ cs, c.status = .reaped) ∧ ds = cs)

/-- A wait with all children but the youngest reaped takes the youngest. -/
theorem Waits.young (h : Waits (c :: cs) ds) (hcs : ∀ c ∈ cs, c.status = .reaped) :
    ds = { c with status := .reaped } :: cs := by
  rcases h with h | ⟨hall, rfl⟩
  · obtain ⟨d, ⟨-, rfl⟩, hds⟩ := One.young h fun b hb d hd => by simp [Moves, hcs b hb] at hd
    exact hds
  · have hc := hall c List.mem_cons_self
    cases c
    cases hc
    rfl

theorem Moves.what_eq {f t : Status} (h : d = c ∨ Moves f t c d) : d.what = c.what := by
  rcases h with rfl | ⟨-, rfl⟩ <;> rfl

/-- A child that has ended stays so. -/
theorem ended_of_one {f t : Status} (ht : t ≠ .running) (h : One (Moves f t) cs ds) (hc : c ∈ cs)
    (hn : c.status ≠ .running) : ∃ d ∈ ds, d.what = c.what ∧ d.status ≠ .running := by
  obtain ⟨d, hd, hs⟩ := h.fate hc
  refine ⟨d, hd, Moves.what_eq hs, ?_⟩
  rcases hs with rfl | ⟨-, rfl⟩
  · exact hn
  · exact ht

theorem Waits.ended (h : Waits cs ds) (hc : c ∈ cs) (hn : c.status ≠ .running) :
    ∃ d ∈ ds, d.what = c.what ∧ d.status ≠ .running := by
  rcases h with h | ⟨-, rfl⟩
  · exact ended_of_one (by decide) h hc hn
  · exact ⟨c, hc, rfl, hn⟩

theorem Waits.origin (h : Waits cs ds) (hd : d ∈ ds) : ∃ c ∈ cs, d.what = c.what := by
  rcases h with h | ⟨-, rfl⟩
  · obtain ⟨c, hc, hs⟩ := One.origin h hd
    exact ⟨c, hc, Moves.what_eq hs⟩
  · exact ⟨d, hd, rfl⟩

/-! ## Other descriptions of the same children -/

section Describe

variable {β : Type} {f : α → β} {es : List (Child β)}

/-- The child, described otherwise. -/
def Child.describe (f : α → β) (c : Child α) : Child β := ⟨f c.what, c.status⟩

theorem Moves.of_describe {t u : Status} (h : One (Moves t u) (cs.map (Child.describe f)) es) :
    ∃ ds, One (Moves t u) cs ds ∧ es = ds.map (Child.describe f) := by
  refine h.of_map fun c e ⟨hs, he⟩ => ⟨{ c with status := u }, ⟨hs, rfl⟩, ?_⟩
  rw [he]
  rfl

theorem Waits.of_describe (h : Waits (cs.map (Child.describe f)) es) :
    ∃ ds, Waits cs ds ∧ es = ds.map (Child.describe f) := by
  rcases h with h | ⟨hall, rfl⟩
  · obtain ⟨ds, hone, hes⟩ := Moves.of_describe h
    exact ⟨ds, .inl hone, hes⟩
  · refine ⟨cs, .inr ⟨fun c hc => ?_, rfl⟩, rfl⟩
    exact hall _ (List.mem_map_of_mem hc)

end Describe

/-! ## How many are left -/

/-- The children that run. -/
def running (cs : List (Child α)) : Nat := cs.countP fun c => c.status = .running

/-- The children that still have to be reaped. -/
def pending (cs : List (Child α)) : Nat := cs.countP fun c => c.status ≠ .reaped

theorem Moves.map_what {f t : Status} (h : One (Moves f t) cs ds) :
    ds.map Child.what = cs.map Child.what :=
  h.map_eq fun _ _ hm => Moves.what_eq (.inr hm)

theorem running_of_ends (h : Ends cs ds) : running cs = running ds + 1 := by
  refine h.countP_lt fun c _ d ⟨hc, hd⟩ => ?_
  subst hd
  exact ⟨decide_eq_true hc, rfl⟩

theorem running_of_reaps (h : Reaps cs ds) : running ds = running cs := by
  refine h.countP_eq fun c _ d ⟨hc, hd⟩ => ?_
  subst hd
  rw [hc]
  rfl

theorem pending_of_ends (h : Ends cs ds) : pending ds = pending cs := by
  refine h.countP_eq fun c _ d ⟨hc, hd⟩ => ?_
  subst hd
  rw [hc]
  rfl

theorem pending_of_reaps (h : Reaps cs ds) : pending cs = pending ds + 1 := by
  refine h.countP_lt fun c _ d ⟨hc, hd⟩ => ?_
  subst hd
  rw [hc]
  exact ⟨rfl, rfl⟩

theorem reaped_of_pending (h : pending cs = 0) : ∀ c ∈ cs, c.status = .reaped := by
  intro c hc
  simpa using List.countP_eq_zero.mp h c hc

/-- With a child left, a wait reaps one. -/
theorem Waits.reaps (h : Waits cs ds) (hp : 0 < pending cs) : Reaps cs ds := by
  rcases h with h | ⟨hall, -⟩
  · exact h
  · obtain ⟨c, hc, hne⟩ := List.countP_pos_iff.mp hp
    simp [hall c hc] at hne

/-- With a child left, one can end or a wait can reap one. -/
theorem exists_step_of_pending (hp : 0 < pending cs) :
    (∃ ds, Ends cs ds) ∨ ∃ ds, Waits cs ds := by
  obtain ⟨c, hc, hne⟩ := List.countP_pos_iff.mp hp
  cases hs : c.status with
  | running =>
    obtain ⟨ds, h, -⟩ := One.exists_of_mem (r := Moves .running .zombie) hc ⟨hs, rfl⟩
    exact .inl ⟨ds, h⟩
  | zombie =>
    obtain ⟨ds, h, -⟩ := One.exists_of_mem (r := Moves .zombie .reaped) hc ⟨hs, rfl⟩
    exact .inr ⟨ds, .inl h⟩
  | reaped => simp [hs] at hne

end OsCodes.Children
