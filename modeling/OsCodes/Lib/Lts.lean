/-
  Labelled transition systems, their reachable states, and the two ways this development
  builds one from another: recording history in a ghost component, and restricting the
  events a client may issue.

  An invariant is proved once per system: it holds of the start states and every step from a
  reachable state keeps it (`Reach.invariant`).

  The rules of this module are the only inductions over runs that a development needs:

  1. `Reach.invariant` is the run rule, `Reach.simulated` the simulation rule for two systems, and
     `Run.length_le` the termination rule: where every step makes a measure smaller, runs end;
  2. `withGhost` records what happened on the way.  A ghost changes no step, so every run has its
     record (`Reach.exists_ghost`), and `Reach.forget` takes it away again;
  3. `guard` restricts the events of the environment.  A law about well-behaved clients is an
     invariant of the guarded system, and a run under a guard is a run (`Reach.of_guard`);
  4. `foldlM` and `answers` compute runs of systems whose steps are computable, and `Reach.foldlM`
     and `Run.of_answers` turn the result into a state that is reached.

  Steps are relations, so that a system may be nondeterministic: an interleaving of parties is a
  system whose events say who moves.
-/
import Mathlib.Tactic.Common

namespace OsCodes

/-- A transition system with states `σ` and events `ε`. -/
structure Lts (σ ε : Type) where
  start : σ → Prop
  step : σ → ε → σ → Prop

namespace Lts

variable {σ γ ε : Type}

/-- The states some run leads to. -/
inductive Reach (L : Lts σ ε) : σ → Prop
  | start {s : σ} : L.start s → Reach L s
  | step {s s' : σ} {e : ε} : Reach L s → L.step s e s' → Reach L s'

/-- **The run rule.**  What holds at the start and survives every step holds throughout. -/
theorem Reach.invariant {L : Lts σ ε} {I : σ → Prop} (h0 : ∀ s, L.start s → I s)
    (hs : ∀ s e s', I s → L.step s e s' → I s') {s : σ} (h : L.Reach s) : I s := by
  induction h with
  | start hs0 => exact h0 _ hs0
  | step _ hst ih => exact hs _ _ _ ih hst

/-- **A computed run.**  Where each call of a list is answered by a step, the state behind the last
    one is reachable. -/
theorem Reach.foldlM {α : Type} {L : Lts σ ε} {next : σ → α → Option σ} {l : List α} :
    (∀ a ∈ l, ∀ s s', next s a = some s' → ∃ e, L.step s e s') → ∀ {s s' : σ}, L.Reach s →
      l.foldlM next s = some s' → L.Reach s' := by
  induction l with
  | nil =>
    intro _ s s' h hrun
    rw [← Option.some.inj hrun]
    exact h
  | cons a l ih =>
    intro hnext s s' h hrun
    rw [List.foldlM_cons, Option.bind_eq_bind, Option.bind_eq_some_iff] at hrun
    obtain ⟨s₁, h₁, hrun⟩ := hrun
    obtain ⟨e, hst⟩ := hnext a List.mem_cons_self s s₁ h₁
    exact ih (fun b hb => hnext b (List.mem_cons_of_mem a hb)) (.step h hst) hrun

/-- **The simulation rule.**  Where related states have related starts and steps, every state that
    one system reaches is related to one that the other reaches. -/
theorem Reach.simulated {τ : Type} {L : Lts σ ε} {M : Lts τ ε} {R : σ → τ → Prop}
    (h0 : ∀ s, L.start s → ∃ t, M.start t ∧ R s t)
    (hs : ∀ s t e s', R s t → L.step s e s' → ∃ t', M.step t e t' ∧ R s' t') {s : σ}
    (h : L.Reach s) : ∃ t, M.Reach t ∧ R s t := by
  induction h with
  | start hs0 =>
    obtain ⟨t, ht, hR⟩ := h0 _ hs0
    exact ⟨t, .start ht, hR⟩
  | step _ hst ih =>
    obtain ⟨t, ht, hR⟩ := ih
    obtain ⟨t', ht', hR'⟩ := hs _ t _ _ hR hst
    exact ⟨t', .step ht ht', hR'⟩

/-- The transitions of a run, in order. -/
inductive Run (L : Lts σ ε) : σ → List (σ × ε × σ) → σ → Prop
  | nil (s : σ) : Run L s [] s
  | cons {s s₁ s' : σ} {e : ε} {trs : List (σ × ε × σ)} :
      L.step s e s₁ → Run L s₁ trs s' → Run L s ((s, e, s₁) :: trs) s'

/-- A run leads from a reachable state to a reachable one. -/
theorem Reach.run {L : Lts σ ε} {s s' : σ} {trs : List (σ × ε × σ)} (h : L.Reach s)
    (hrun : L.Run s trs s') : L.Reach s' := by
  induction hrun with
  | nil => exact h
  | cons hst _ ih => exact ih (.step h hst)

/-- One run after another. -/
theorem Run.append {L : Lts σ ε} {s s₁ s' : σ} {trs trs' : List (σ × ε × σ)}
    (h : L.Run s trs s₁) (h' : L.Run s₁ trs' s') : L.Run s (trs ++ trs') s' := by
  induction h with
  | nil => exact h'
  | cons hst _ ih => exact .cons hst (ih h')

/-- What a list of calls is answered, one after the other, and the state behind the last. -/
def answers {α β : Type} (next : σ → α → Option (β × σ)) : List α → σ → Option (List β × σ)
  | [], s => some ([], s)
  | a :: l, s => do
    let r ← next s a
    let r' ← answers next l r.2
    return (r.1 :: r'.1, r'.2)

/-- **A run whose answers are computed.**  Where a call with its answer is a step, calls with their
    answers are a run. -/
theorem Run.of_answers {α β : Type} {L : Lts σ (α × β)} {next : σ → α → Option (β × σ)}
    (hnext : ∀ s a b s', next s a = some (b, s') → L.step s (a, b) s') {l : List α} :
    ∀ {s s' : σ} {bs : List β}, answers next l s = some (bs, s') →
      ∃ trs, L.Run s trs s' ∧ trs.map (fun t => t.2.1) = l.zip bs := by
  induction l with
  | nil =>
    intro s s' bs h
    cases h
    exact ⟨[], .nil s, rfl⟩
  | cons a l ih =>
    intro s s' bs h
    simp only [answers, Option.bind_eq_bind, Option.bind_eq_some_iff] at h
    obtain ⟨⟨b, s₁⟩, hb, ⟨bs₁, s₂⟩, hbs, heq⟩ := h
    cases heq
    obtain ⟨trs, hrun, htrs⟩ := ih hbs
    refine ⟨(s, (a, b), s₁) :: trs, .cons (hnext s a b s₁ hb) hrun, ?_⟩
    rw [List.map_cons, List.zip_cons_cons, htrs]

/-- **Runs end.**  Where every step makes a measure smaller, no run has more steps than that. -/
theorem Run.length_le {L : Lts σ ε} {I : σ → Prop} {μ : σ → Nat}
    (hs : ∀ s e s', I s → L.step s e s' → I s' ∧ μ s' < μ s) {s s' : σ}
    {trs : List (σ × ε × σ)} (h : L.Run s trs s') (hi : I s) : trs.length ≤ μ s := by
  induction h with
  | nil => exact Nat.zero_le _
  | cons hst _ ih =>
    obtain ⟨hi', hlt⟩ := hs _ _ _ hi hst
    have hle := ih hi'
    rw [List.length_cons]
    omega

/-- The system that also records history: `upd` computes the new record from the old one, the
    state it was made in and the event. -/
def withGhost (L : Lts σ ε) (g₀ : γ) (upd : σ → γ → ε → γ) : Lts (σ × γ) ε where
  start s := L.start s.1 ∧ s.2 = g₀
  step s e s' := L.step s.1 e s'.1 ∧ s'.2 = upd s.1 s.2 e

/-- A step with its record. -/
theorem Reach.ghost {L : Lts σ ε} {g₀ g : γ} {upd : σ → γ → ε → γ} {s s' : σ} {e : ε}
    (h : (L.withGhost g₀ upd).Reach (s, g)) (hs : L.step s e s') :
    (L.withGhost g₀ upd).Reach (s', upd s g e) :=
  .step h ⟨hs, rfl⟩

/-- The system whose clients issue only events that `ok` allows. -/
def guard (L : Lts σ ε) (ok : σ → ε → Prop) : Lts σ ε where
  start := L.start
  step s e s' := ok s e ∧ L.step s e s'

/-- A step that the guard allows. -/
theorem Reach.guarded {L : Lts σ ε} {ok : σ → ε → Prop} {s s' : σ} {e : ε}
    (h : (L.guard ok).Reach s) (hs : L.step s e s') (hok : ok s e) : (L.guard ok).Reach s' :=
  .step h ⟨hok, hs⟩

/-- A guarded run is a run. -/
theorem Reach.of_guard {L : Lts σ ε} {ok : σ → ε → Prop} {s : σ} (hr : (L.guard ok).Reach s) :
    L.Reach s := by
  induction hr with
  | start h0 => exact .start h0
  | step _ hst ih => exact .step ih hst.2

/-- A run under a guard is one under a weaker guard. -/
theorem Reach.guard_mono {L : Lts σ ε} {ok ok' : σ → ε → Prop} (hok : ∀ s e, ok s e → ok' s e)
    {s : σ} (hr : (L.guard ok).Reach s) : (L.guard ok').Reach s := by
  induction hr with
  | start h0 => exact .start h0
  | step _ hst ih => exact .step ih ⟨hok _ _ hst.1, hst.2⟩

/-- Every guarded run has a record. -/
theorem Reach.exists_ghost {L : Lts σ ε} {ok : σ → ε → Prop} (g₀ : γ) (upd : σ → γ → ε → γ) {s : σ}
    (h : (L.guard ok).Reach s) :
    ∃ g, ((L.withGhost g₀ upd).guard fun x e => ok x.1 e).Reach (s, g) := by
  induction h with
  | start h0 => exact ⟨g₀, .start ⟨h0, rfl⟩⟩
  | @step s s' e _ hst ih =>
    obtain ⟨g, hg⟩ := ih
    exact ⟨upd s g e, .step (s := (s, g)) (e := e) hg ⟨hst.1, hst.2, rfl⟩⟩

/-- Without its record, a guarded run is a run of the system below, guarded as far as that sees. -/
theorem Reach.forget {L : Lts σ ε} {g₀ : γ} {upd : σ → γ → ε → γ} {ok : σ × γ → ε → Prop}
    {ok' : σ → ε → Prop} (hok : ∀ s e, ok s e → ok' s.1 e) {s : σ × γ}
    (h : ((L.withGhost g₀ upd).guard ok).Reach s) : (L.guard ok').Reach s.1 := by
  induction h with
  | start h0 => exact .start h0.1
  | step _ hst ih => exact .step ih ⟨hok _ _ hst.1, hst.2.1⟩

end Lts

end OsCodes
