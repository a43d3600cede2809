/-
  The loop over `&&` and `&&&` that soln.c and my_shell.c have in common, run by the process that
  the shell forks for a line.

  Each operator and the end of the line fork the command that goes before; a `&&` also waits, for
  any child.  While no `&&&` has been seen the only child it can wait for is that command; after
  one, a parallel command that ends lets the wait return instead.

  A child is the pair of token places between which its command lies; what it executes is in
  `Splitter`, where the array is modelled.  When a child ends is up to the environment: a step of
  `subshell` is a turn of the loop, a child that ends, or a `wait` that returns with any child
  that has ended.

  The question is in which lines every command behind a `&&` is forked after the one before it has
  ended (`Ordered`, over all runs), and the answer is a property of the line alone (`Mixed`):

  1. without a `&&` behind a `&&&`, the invariant `Inv` says that the command of a `&&` is the
     only child that can be unreaped, so the `wait` takes it;
  2. with one, `at_token` leads a run to the `&&&` by letting every command end as soon as it is
     forked, `at_parallel` leaves the command before the `&&&` running, and `late_of_mixed` lets
     it end when the loop waits for the command of the `&&`;
  3. `ordered_iff` is the equivalence.
-/
import Mathlib.Data.Nat.Find
import OsCodes.Lib.Children
import OsCodes.Lib.Lts

namespace OsCodes.Shell

open Children

/-! ## The code -/

def MAX_NUM_TOKENS : Nat := 64

/-- Where the process is: in the loop, in the `wait` of a `&&`, or with so many of the last waits
    to go. -/
inductive Phase
  | loop
  | seq
  | last (n : Nat)

/-- The variables of the loop and the children; a child is the tokens from `prev` to `i` that it
    executes. -/
structure Sub where
  phase : Phase
  i : Nat
  prev : Nat
  co : Nat
  children : List (Child (Nat × Nat))

/-- `fork`, and `execvp` in the child. -/
def Sub.fork (s : Sub) : Sub :=
  { s with children := ⟨(s.prev, s.i), .running⟩ :: s.children }

/-- The last command, after the loop. -/
def Sub.final (s : Sub) : Sub := { s.fork with phase := .last s.co }

/-- A turn of the loop, to its end or to a `wait`. -/
def Sub.visit (tokens : List String) (s : Sub) : Sub :=
  if s.i < MAX_NUM_TOKENS then
    match tokens[s.i]? with
    | none => s.final
    | some t =>
      if t = "&&" then { s.fork with phase := .seq }
      else if t = "&&&" then { s.fork with co := s.co + 1, prev := s.i + 1, i := s.i + 1 }
      else { s with i := s.i + 1 }
  else s.final

/-- A turn of the loop, the end of a child, or a `wait` that returns. -/
inductive Step (tokens : List String) : Sub → Unit → Sub → Prop
  | visit {s : Sub} : s.phase = .loop → Step tokens s () (s.visit tokens)
  | seq {s : Sub} {cs : List (Child (Nat × Nat))} : s.phase = .seq → Waits s.children cs →
      Step tokens s ()
        { s with phase := .loop, prev := s.i + 1, i := s.i + 1, children := cs }
  | last {s : Sub} {n : Nat} {cs : List (Child (Nat × Nat))} : s.phase = .last (n + 1) →
      Waits s.children cs → Step tokens s () { s with phase := .last n, children := cs }
  | ends {s : Sub} {cs : List (Child (Nat × Nat))} : Ends s.children cs →
      Step tokens s () { s with children := cs }

/-- The process that the shell forks for a line. -/
def subshell (tokens : List String) : Lts Sub Unit where
  start s := s = ⟨.loop, 0, 0, 1, []⟩
  step := Step tokens

/-- Wherever the command after a `&&` has been forked, the one before it has ended. -/
def Ordered (tokens : List String) (s : Sub) : Prop :=
  ∀ k, tokens[k]? = some "&&" → ∀ c ∈ s.children, c.what.1 = k + 1 →
    ∃ b ∈ s.children, b.what.2 = k ∧ b.status ≠ .running

/-- A `&&` comes after a `&&&`. -/
def Mixed (tokens : List String) : Prop :=
  ∃ i j, i < j ∧ j < MAX_NUM_TOKENS ∧ tokens[i]? = some "&&&" ∧ tokens[j]? = some "&&"

section Turn

variable {tokens : List String} {s : Sub}

/-- What a turn of the loop does. -/
theorem visit_cases (tokens : List String) (s : Sub) :
    ((s.i < MAX_NUM_TOKENS → tokens[s.i]? = none) ∧ s.visit tokens = s.final) ∨
    (s.i < MAX_NUM_TOKENS ∧ tokens[s.i]? = some "&&" ∧
      s.visit tokens = { s.fork with phase := .seq }) ∨
    (s.i < MAX_NUM_TOKENS ∧ tokens[s.i]? = some "&&&" ∧
      s.visit tokens = { s.fork with co := s.co + 1, prev := s.i + 1, i := s.i + 1 }) ∨
    (s.i < MAX_NUM_TOKENS ∧ tokens[s.i]? ≠ some "&&" ∧ tokens[s.i]? ≠ some "&&&" ∧
      s.visit tokens = { s with i := s.i + 1 }) := by
  unfold Sub.visit
  by_cases hi : s.i < MAX_NUM_TOKENS
  · rw [if_pos hi]
    cases htok : tokens[s.i]? with
    | none => exact .inl ⟨fun _ => rfl, rfl⟩
    | some t =>
      by_cases h2 : t = "&&"
      · subst h2
        exact .inr (.inl ⟨hi, rfl, by simp⟩)
      · by_cases h3 : t = "&&&"
        · subst h3
          exact .inr (.inr (.inl ⟨hi, rfl, by simp⟩))
        · exact .inr (.inr (.inr ⟨hi, by simpa using h2, by simpa using h3, by simp [h2, h3]⟩))
  · rw [if_neg hi]
    exact .inl ⟨fun h => absurd h hi, rfl⟩

end Turn

/-! ## Without a `&&` after a `&&&` -/

section Unmixed

variable {tokens : List String} {s s' : Sub} {cs ds : List (Child (Nat × Nat))} {k : Nat}

/-- The command before the operator at `k` has ended. -/
def Past (cs : List (Child (Nat × Nat))) (k : Nat) : Prop :=
  ∃ b ∈ cs, b.what.2 = k ∧ b.status ≠ .running

theorem Past.cons {c : Child (Nat × Nat)} (h : Past cs k) : Past (c :: cs) k := by
  obtain ⟨b, hb, hk⟩ := h
  exact ⟨b, List.mem_cons_of_mem _ hb, hk⟩

theorem Past.ends (h : Past cs k) (he : Ends cs ds) : Past ds k := by
  obtain ⟨b, hb, hk, hn⟩ := h
  obtain ⟨d, hd, hw, hn'⟩ := ended_of_one (by decide) he hb hn
  exact ⟨d, hd, by rw [hw, hk], hn'⟩

theorem Past.waits (h : Past cs k) (hw : Waits cs ds) : Past ds k := by
  obtain ⟨b, hb, hk, hn⟩ := h
  obtain ⟨d, hd, hw, hn'⟩ := hw.ended hb hn
  exact ⟨d, hd, by rw [hw, hk], hn'⟩

/-- What carries the order along: the command that comes next waits for nothing, and before the
    first `&&&` only the command of a `&&` can be unreaped. -/
structure Inv (tokens : List String) (s : Sub) : Prop where
  forked : Ordered tokens s
  next : ∀ k, tokens[k]? = some "&&" → s.prev = k + 1 → Past s.children k
  idle : s.phase = .loop → (∀ k, k < s.i → tokens[k]? ≠ some "&&&") →
    ∀ c ∈ s.children, c.status = .reaped
  seq : s.phase = .seq → (∀ k, k < s.i → tokens[k]? ≠ some "&&&") ∧
    ∃ c cs, s.children = c :: cs ∧ c.what.2 = s.i ∧ ∀ b ∈ cs, b.status = .reaped

/-- A fork keeps the order. -/
theorem Inv.ordered_fork (h : Inv tokens s) : Ordered tokens s.fork := by
  intro k hk c hc hfirst
  rcases List.mem_cons.1 hc with rfl | hc
  · exact (h.next k hk hfirst).cons
  · exact Past.cons (h.forked k hk c hc hfirst)

theorem Inv.next_fork (h : Inv tokens s) (hk : tokens[k]? = some "&&") (hp : s.prev = k + 1) :
    Past s.fork.children k := (h.next k hk hp).cons

theorem Inv.visit (hno : ¬Mixed tokens) (h : Inv tokens s) (hloop : s.phase = .loop) :
    Inv tokens (s.visit tokens) := by
  obtain ⟨-, hv⟩ | ⟨hi, htok, hv⟩ | ⟨hi, htok, hv⟩ | ⟨hi, h2, h3, hv⟩ := visit_cases tokens s <;>
    rw [hv]
  · exact ⟨h.ordered_fork, fun k hk hp => h.next_fork hk hp, fun hl => (by cases hl),
      fun hl => (by cases hl)⟩
  · have hpar : ∀ k, k < s.i → tokens[k]? ≠ some "&&&" := fun k hk htok' =>
      hno ⟨k, s.i, hk, hi, htok', htok⟩
    exact ⟨h.ordered_fork, fun k hk hp => h.next_fork hk hp, fun hl => (by cases hl),
      fun _ => ⟨hpar, _, s.children, rfl, rfl, h.idle hloop hpar⟩⟩
  · refine ⟨h.ordered_fork, fun k hk hp => ?_, fun _ hpar => ?_, fun hl => ?_⟩
    · have hp : s.i + 1 = k + 1 := hp
      obtain rfl : s.i = k := by omega
      rw [htok] at hk
      exact absurd (Option.some.inj hk) (by decide)
    · exact absurd htok (hpar s.i (Nat.lt_succ_self _))
    · have hl : s.phase = .seq := hl
      rw [hloop] at hl
      cases hl
  · refine ⟨h.forked, h.next, fun _ hpar => ?_, fun hl => ?_⟩
    · exact h.idle hloop fun k hk => hpar k (Nat.lt_succ_of_lt hk)
    · have hl : s.phase = .seq := hl
      rw [hloop] at hl
      cases hl

/-- Every step keeps the invariant: a turn of the loop, the end of a child, a `wait`
    that returns. -/
theorem Inv.step (hno : ¬Mixed tokens) (h : Inv tokens s) {e : Unit} (hs : Step tokens s e s') :
    Inv tokens s' := by
  cases hs with
  | visit hloop => exact h.visit hno hloop
  | @seq cs hseq hw =>
    obtain ⟨hpar, c, bs, hc, hstop, hbs⟩ := h.seq hseq
    have hcs := (hc ▸ hw).young hbs
    refine ⟨fun k hk d hd hfirst => ?_, fun k hk hp => ?_, fun _ _ d hd => ?_,
      fun hl => (by cases hl)⟩
    · obtain ⟨d', hd', hwhat⟩ := hw.origin hd
      exact Past.waits (h.forked k hk d' hd' (hwhat ▸ hfirst)) hw
    · have hp : s.i + 1 = k + 1 := hp
      refine ⟨{ c with status := .reaped }, by simp [hcs], ?_, by simp⟩
      show c.what.2 = k
      omega
    · have hd : d ∈ cs := hd
      rw [hcs] at hd
      rcases List.mem_cons.1 hd with rfl | hd
      · rfl
      · exact hbs d hd
  | @last n cs hlast hw =>
    refine ⟨fun k hk d hd hfirst => ?_, fun k hk hp => (h.next k hk hp).waits hw,
      fun hl => (by cases hl), fun hl => (by cases hl)⟩
    obtain ⟨d', hd', hwhat⟩ := hw.origin hd
    exact Past.waits (h.forked k hk d' hd' (hwhat ▸ hfirst)) hw
  | @ends cs he =>
    refine ⟨fun k hk d hd hfirst => ?_, fun k hk hp => (h.next k hk hp).ends he,
      fun hl hpar => ?_, fun hl => ?_⟩
    · obtain ⟨d', hd', hs⟩ := he.origin hd
      exact Past.ends (h.forked k hk d' hd' (Moves.what_eq hs ▸ hfirst)) he
    · exact absurd he (not_one fun c hc d hd => by simp [Moves, h.idle hl hpar c hc] at hd)
    · obtain ⟨hpar, c, bs, hc, hstop, hbs⟩ := h.seq hl
      obtain ⟨d, ⟨-, rfl⟩, hcs⟩ := (hc ▸ he).young fun b hb d hd => by simp [Moves, hbs b hb] at hd
      exact ⟨hpar, _, bs, hcs, hstop, hbs⟩

theorem ordered_of_unmixed (hno : ¬Mixed tokens) (hr : (subshell tokens).Reach s) :
    Ordered tokens s := by
  refine (Lts.Reach.invariant (I := Inv tokens) ?_ (fun _ _ _ hi hs => hi.step hno hs) hr).forked
  rintro s rfl
  refine ⟨fun k _ c hc => ?_, fun k _ hp => ?_, fun _ _ c hc => ?_, fun hl => (by cases hl)⟩
  · cases hc
  · cases hp
  · cases hc

end Unmixed

/-! ## With a `&&` after a `&&&` -/

section Mixed

variable {tokens : List String} {s : Sub} {i j n : Nat}

/-- The loop has come to token `n`, and the operators seen so far have ended the commands. -/
structure At (tokens : List String) (n : Nat) (s : Sub) : Prop where
  reach : (subshell tokens).Reach s
  loop : s.phase = .loop
  i : s.i = n
  stop : ∀ c ∈ s.children, c.what.2 < n

theorem At.visit (h : At tokens n s) : (subshell tokens).Reach (s.visit tokens) :=
  .step h.reach (Step.visit h.loop)

theorem At.stop_fork (h : At tokens n s) : ∀ c ∈ s.fork.children, c.what.2 < n + 1 := by
  intro c hc
  rcases List.mem_cons.1 hc with rfl | hc
  · show s.i < n + 1
    rw [h.i]
    exact Nat.lt_succ_self n
  · exact Nat.lt_succ_of_lt (h.stop c hc)

/-- At a `&&` a command ends and the wait takes it. -/
theorem At.seq {ds es : List (Child (Nat × Nat))} (h : At tokens n s) (hn : n < MAX_NUM_TOKENS)
    (htok : tokens[n]? = some "&&") (hends : Ends s.fork.children ds) (hreaps : Reaps ds es) :
    At tokens (n + 1) { s with prev := n + 1, i := n + 1, children := es } := by
  have hi := h.i
  subst hi
  have hv : s.visit tokens = { s.fork with phase := .seq } := by simp [Sub.visit, hn, htok]
  have h1 := h.visit
  rw [hv] at h1
  have h2 : (subshell tokens).Reach { s.fork with phase := .seq, children := ds } :=
    .step h1 (Step.ends hends)
  have h3 := Lts.Reach.step h2 (Step.seq rfl (.inl hreaps))
  refine ⟨?_, h.loop, rfl, fun e he => ?_⟩
  · rw [h.loop]
    exact h3
  · obtain ⟨d, hd, hs⟩ := hreaps.origin he
    obtain ⟨c, hc, hs'⟩ := hends.origin hd
    rw [Moves.what_eq hs, Moves.what_eq hs']
    exact h.stop_fork c hc

/-- At any other token the loop goes on, and no child ends. -/
theorem At.other (h : At tokens n s) (hn : n < MAX_NUM_TOKENS) (hlen : n < tokens.length)
    (htok : tokens[n]? ≠ some "&&") :
    ∃ s', At tokens (n + 1) s' ∧ ∀ c ∈ s.children, c ∈ s'.children := by
  have hi := h.i
  subst hi
  have hv := h.visit
  obtain ⟨hc, -⟩ | ⟨-, hc, -⟩ | ⟨-, -, hc⟩ | ⟨-, -, -, hc⟩ := visit_cases tokens s
  · have := hc hn
    simp [hlen] at this
  · exact absurd hc htok
  · rw [hc] at hv
    exact ⟨_, ⟨hv, h.loop, rfl, h.stop_fork⟩, fun c hc => List.mem_cons_of_mem _ hc⟩
  · rw [hc] at hv
    exact ⟨_, ⟨hv, h.loop, rfl, fun c hc => Nat.lt_succ_of_lt (h.stop c hc)⟩, fun c hc => hc⟩

/-- Commands may end as soon as they are forked, so the loop can come to every token. -/
theorem at_token (tokens : List String) (hn : n ≤ MAX_NUM_TOKENS) (hlen : n ≤ tokens.length) :
    ∃ s, At tokens n s := by
  induction n with
  | zero => exact ⟨⟨.loop, 0, 0, 1, []⟩, .start rfl, rfl, rfl, fun c hc => by cases hc⟩
  | succ n ih =>
    obtain ⟨s, h⟩ := ih (by omega) (by omega)
    by_cases htok : tokens[n]? = some "&&"
    · exact ⟨_, h.seq (by omega) htok (.here ⟨rfl, rfl⟩) (.here ⟨rfl, rfl⟩)⟩
    · obtain ⟨s', h', -⟩ := h.other (by omega) (by omega) htok
      exact ⟨s', h'⟩

/-- The command before a `&&&` may run on until the next `&&`. -/
theorem at_parallel (htok : tokens[i]? = some "&&&") (hj : j < MAX_NUM_TOKENS)
    (hlen : j < tokens.length) (hij : i < n) (hnj : n ≤ j)
    (hfirst : ∀ k, i < k → k < j → tokens[k]? ≠ some "&&") :
    ∃ s, At tokens n s ∧ ∃ c ∈ s.children, c.what.2 = i ∧ c.status = .running := by
  induction n with
  | zero => omega
  | succ n ih =>
    by_cases hin : n = i
    · subst hin
      obtain ⟨s, h⟩ := at_token (n := n) tokens (by omega) (by omega)
      have hv := h.visit
      have hi := h.i
      subst hi
      obtain ⟨hc, -⟩ | ⟨-, hc, -⟩ | ⟨-, -, hc⟩ | ⟨-, -, hc, -⟩ := visit_cases tokens s
      · have := hc (by omega)
        rw [htok] at this
        cases this
      · rw [htok] at hc
        exact absurd (Option.some.inj hc) (by decide)
      · rw [hc] at hv
        exact ⟨_, ⟨hv, h.loop, rfl, h.stop_fork⟩, _, List.mem_cons_self, rfl, rfl⟩
      · exact absurd htok hc
    · obtain ⟨s, h, c, hc, hrun⟩ := ih (by omega) (by omega)
      obtain ⟨s', h', hkeep⟩ := h.other (by omega) (by omega) (hfirst n (by omega) (by omega))
      exact ⟨s', h', c, hkeep c hc, hrun⟩

/-- The loop has gone past the `&&` at `j` while the command before it runs. -/
structure Late (tokens : List String) (j : Nat) (s : Sub) : Prop where
  reach : (subshell tokens).Reach s
  loop : s.phase = .loop
  prev : s.prev = j + 1
  i : j < s.i
  late : ∀ c ∈ s.children, c.what.2 = j → c.status = .running

theorem Late.stop_fork (h : Late tokens j s) :
    ∀ c ∈ s.fork.children, c.what.2 = j → c.status = .running := by
  intro c hc hcj
  rcases List.mem_cons.1 hc with rfl | hc
  · rfl
  · exact h.late c hc hcj

/-- A wait that takes a parallel command leaves the sequential one behind. -/
theorem late_of_mixed (hmix : Mixed tokens) : ∃ j s, tokens[j]? = some "&&" ∧ Late tokens j s := by
  obtain ⟨i, j₀, hij₀, hj₀, hi, hj₀tok⟩ := hmix
  have hex : ∃ j, i < j ∧ tokens[j]? = some "&&" := ⟨j₀, hij₀, hj₀tok⟩
  classical
  obtain ⟨hij, hjtok⟩ := Nat.find_spec hex
  have hfirst : ∀ k, i < k → k < Nat.find hex → tokens[k]? ≠ some "&&" := fun k hik hk htok =>
    Nat.find_min hex hk ⟨hik, htok⟩
  have hle : Nat.find hex ≤ j₀ := Nat.find_min' hex ⟨hij₀, hj₀tok⟩
  generalize Nat.find hex = j at hij hjtok hfirst hle
  have hlen : j < tokens.length := by
    by_contra hge
    rw [List.getElem?_eq_none (by omega)] at hjtok
    cases hjtok
  obtain ⟨s, h, c, hc, -, hrun⟩ := at_parallel hi (by omega) hlen hij (Nat.le_refl j) hfirst
  obtain ⟨ds, hends, hd⟩ := One.exists_of_mem (r := Moves .running .zombie) hc ⟨hrun, rfl⟩
  obtain ⟨es, hreaps, -⟩ := One.exists_of_mem (r := Moves .zombie .reaped) hd ⟨rfl, rfl⟩
  have h' := h.seq (by omega) hjtok (.there hends) (.there hreaps)
  refine ⟨j, _, hjtok, h'.reach, h'.loop, rfl, Nat.lt_succ_self j, fun e he hej => ?_⟩
  rcases List.mem_cons.1 he with rfl | he
  · rfl
  · obtain ⟨d, hd, hs⟩ := hreaps.origin he
    obtain ⟨c, hc, hs'⟩ := hends.origin hd
    have := h.stop c hc
    rw [Moves.what_eq hs, Moves.what_eq hs'] at hej
    omega

/-- The next command is forked then. -/
theorem Late.forks (h : Late tokens j s) : ∃ s', (subshell tokens).Reach s' ∧
    (∃ c ∈ s'.children, c.what.1 = j + 1) ∧ ∀ c ∈ s'.children, c.what.2 = j →
      c.status = .running := by
  generalize hm : MAX_NUM_TOKENS - s.i = m
  induction m generalizing s with
  | zero =>
    have hv := Lts.Reach.step h.reach (Step.visit h.loop)
    have hi : ¬s.i < MAX_NUM_TOKENS := by omega
    rw [show s.visit tokens = s.final by simp [Sub.visit, hi]] at hv
    exact ⟨_, hv, ⟨_, List.mem_cons_self, h.prev⟩, h.stop_fork⟩
  | succ m ih =>
    have hv := Lts.Reach.step h.reach (Step.visit h.loop)
    obtain ⟨-, hc⟩ | ⟨-, -, hc⟩ | ⟨-, -, hc⟩ | ⟨-, -, -, hc⟩ := visit_cases tokens s <;>
      rw [hc] at hv
    · exact ⟨_, hv, ⟨_, List.mem_cons_self, h.prev⟩, h.stop_fork⟩
    · exact ⟨_, hv, ⟨_, List.mem_cons_self, h.prev⟩, h.stop_fork⟩
    · exact ⟨_, hv, ⟨_, List.mem_cons_self, h.prev⟩, h.stop_fork⟩
    · have h' : Late tokens j { s with i := s.i + 1 } :=
        ⟨hv, h.loop, h.prev, Nat.lt_succ_of_lt h.i, h.late⟩
      exact ih h' (by simp only; omega)

end Mixed

theorem not_ordered_of_mixed {tokens : List String} (hmix : Mixed tokens) :
    ¬∀ s, (subshell tokens).Reach s → Ordered tokens s := by
  intro hall
  obtain ⟨j, s, hj, hlate⟩ := late_of_mixed hmix
  obtain ⟨s', hr, ⟨c, hc, hfirst⟩, hrun⟩ := hlate.forks
  obtain ⟨b, hb, hbj, hn⟩ := hall s' hr j hj c hc hfirst
  exact hn (hrun b hb hbj)

/-- **Exactly which lines are in order**: those with no `&&` after a `&&&`. -/
theorem ordered_iff (tokens : List String) :
    (∀ s, (subshell tokens).Reach s → Ordered tokens s) ↔ ¬Mixed tokens :=
  ⟨fun hall hmix => not_ordered_of_mixed hmix hall, fun hno _ hr => ordered_of_unmixed hno hr⟩

theorem not_ordered_mixed : ¬∀ tokens s, (subshell tokens).Reach s → Ordered tokens s := fun hall =>
  not_ordered_of_mixed ⟨1, 3, by decide, by decide, rfl, rfl⟩ (hall ["a", "&&&", "b", "&&", "c"])

end OsCodes.Shell
