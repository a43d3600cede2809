/-
  Every command of a line is forked and every fork is waited for.

  A `&&` is paid for by its own `wait` and a `&&&` by one more of the last waits, so the children that
  are left to reap are always as many as the waits that are left to make.

  Two invariants do it.  `Cuts` is about the line: the segments that were forked, the one in work
  and those to come are the segments between the operators.  `Counts` is about the children: as
  many are left to reap as the process will still wait for.  That every run comes to the exit is a
  rank: what is left to do gets less with every step, and before the exit there always is a step,
  since a `wait` has a child to wait for, and a child that runs can end (`Counts.progress`).
-/
import OsCodes.Shell.Splitter

namespace OsCodes.Shell

open Children

section Turn

variable {ws seg rest : List String} {s s' : Splitter} {t : String}

/-- The segments that are forked and those to come are the segments of the line. -/
structure Cuts (ws : List String) (s : Splitter) : Prop where
  loop : s.phase = .loop → ∃ seg rest, Scans s seg rest ∧
    ws.splitOnP isOperator = s.argvs ++ (seg ++ rest).splitOnP isOperator
  seq : s.phase = .seq → ∃ rest, Row (s.tokens.toList.drop (s.i + 1)) rest ∧
    ws.splitOnP isOperator = s.argvs ++ rest.splitOnP isOperator
  last : ∀ n, s.phase = .last n → ws.splitOnP isOperator = s.argvs

/-- As many children are left to reap as the process still waits for: those of the `&&&` so far, the
    one of a `&&` that it has come to, and after the loop the last command too. -/
structure Counts (s : Splitter) : Prop where
  loop : s.phase = .loop → s.co = pending s.children + 1
  seq : s.phase = .seq → s.co = pending s.children ∧ 0 < s.co ∧ s.i < MAX_NUM_TOKENS
  last : ∀ n, s.phase = .last n → pending s.children = n
  waits : s.waits + pending s.children = s.children.length

theorem pending_fork (s : Splitter) : pending s.fork.children = pending s.children + 1 :=
  List.countP_cons_of_pos rfl

/-- The segment that an operator ends, and what comes behind it. -/
theorem Scans.pieces {op : String} (h : Scans s seg (op :: rest)) (hop : isOperator op = true)
    (hcut : ws.splitOnP isOperator = s.argvs ++ (seg ++ op :: rest).splitOnP isOperator) :
    ws.splitOnP isOperator = s.cut.fork.argvs ++ rest.splitOnP isOperator := by
  have hfork : s.cut.fork.argvs = s.argvs ++ [seg] := argvs_fork h.cut.1
  rw [hcut, List.splitOnP_append_cons_of_forall_mem h.plain op hop, hfork, List.append_assoc]
  rfl

theorem Cuts.visit (h : Cuts ws s) (hloop : s.phase = .loop) : Cuts ws s.visit := by
  obtain ⟨seg, rest, hs, hcut⟩ := h.loop hloop
  have hseq : s.phase ≠ .seq := by rw [hloop]; exact Phase.noConfusion
  have hlast : ∀ n, s.phase ≠ .last n := by rw [hloop]; exact fun n => Phase.noConfusion
  rcases hs.visit_cases with ⟨rfl, hv⟩ | ⟨rest, rfl, hv⟩ | ⟨rest, rfl, hv⟩ | ⟨t, rest, rfl, ht, hv⟩ <;>
    rw [hv] <;> constructor
  case inl.loop => exact fun hl => by cases hl
  case inl.seq => exact fun hl => by cases hl
  case inl.last =>
    intro _ _
    have hrow := hs.row
    rw [List.append_nil] at hrow hcut
    rw [hcut, List.splitOnP_eq_singleton hs.plain]
    exact (argvs_fork hrow).symm
  case inr.inl.loop => exact fun hl => by cases hl
  case inr.inl.seq => exact fun _ => ⟨rest, hs.cut.2, hs.pieces (by decide) hcut⟩
  case inr.inl.last => exact fun _ hl => by cases hl
  case inr.inr.inl.loop =>
    intro _
    refine ⟨[], rest, ⟨hs.cut.2, rfl, fun t ht => by cases ht⟩, ?_⟩
    exact hs.pieces (by decide) hcut
  case inr.inr.inl.seq => exact fun hl => absurd hl hseq
  case inr.inr.inl.last => exact fun n hl => absurd hl (hlast n)
  case inr.inr.inr.loop =>
    intro _
    refine ⟨seg ++ [t], rest, hs.skip ht, ?_⟩
    rw [← List.append_cons]
    exact hcut
  case inr.inr.inr.seq => exact fun hl => absurd hl hseq
  case inr.inr.inr.last => exact fun n hl => absurd hl (hlast n)

theorem Counts.visit (hc : Cuts ws s) (h : Counts s) (hloop : s.phase = .loop) :
    Counts s.visit := by
  obtain ⟨seg, rest, hs, -⟩ := hc.loop hloop
  obtain ⟨hi, -⟩ := hs.get
  have hco := h.loop hloop
  have hwaits := h.waits
  have hseq : s.phase ≠ .seq := by rw [hloop]; exact Phase.noConfusion
  have hlast : ∀ n, s.phase ≠ .last n := by rw [hloop]; exact fun n => Phase.noConfusion
  have hfork : pending s.cut.fork.children = pending s.children + 1 := pending_fork s.cut
  have hlen : s.cut.fork.children.length = s.children.length + 1 := rfl
  rcases hs.visit_cases with ⟨-, hv⟩ | ⟨rest, -, hv⟩ | ⟨rest, -, hv⟩ | ⟨t, rest, -, -, hv⟩ <;>
    rw [hv] <;> constructor
  case inl.loop => exact fun hl => by cases hl
  case inl.seq => exact fun hl => by cases hl
  case inl.last =>
    intro n hl
    obtain rfl : s.co = n := Phase.last.inj hl
    rw [hco]
    exact pending_fork s
  case inl.waits =>
    show s.waits + pending s.fork.children = s.children.length + 1
    rw [pending_fork]
    omega
  case inr.inl.loop => exact fun hl => by cases hl
  case inr.inl.seq =>
    intro _
    show s.co = pending s.cut.fork.children ∧ 0 < s.co ∧ s.i < MAX_NUM_TOKENS
    omega
  case inr.inl.last => exact fun _ hl => by cases hl
  case inr.inl.waits =>
    show s.waits + pending s.cut.fork.children = s.cut.fork.children.length
    omega
  case inr.inr.inl.loop =>
    intro _
    show s.co + 1 = pending s.cut.fork.children + 1
    omega
  case inr.inr.inl.seq => exact fun hl => absurd hl hseq
  case inr.inr.inl.last => exact fun n hl => absurd hl (hlast n)
  case inr.inr.inl.waits =>
    show s.waits + pending s.cut.fork.children = s.cut.fork.children.length
    omega
  case inr.inr.inr.loop => exact fun _ => hco
  case inr.inr.inr.seq => exact fun hl => absurd hl hseq
  case inr.inr.inr.last => exact fun n hl => absurd hl (hlast n)
  case inr.inr.inr.waits => exact hwaits

/-- A step of a child changes nothing of what the children execute. -/
theorem Cuts.children {cs : List (Child (List String))} (h : Cuts ws s)
    (hw : cs.map Child.what = s.children.map Child.what) : Cuts ws { s with children := cs } := by
  have hargvs : Splitter.argvs { s with children := cs } = s.argvs := congrArg List.reverse hw
  constructor
  case loop =>
    intro hl
    obtain ⟨seg, rest, hs, hcut⟩ := h.loop hl
    exact ⟨seg, rest, ⟨hs.row, hs.i, hs.plain⟩, hargvs ▸ hcut⟩
  case seq =>
    intro hl
    obtain ⟨rest, hrow, hcut⟩ := h.seq hl
    exact ⟨rest, hrow, hargvs ▸ hcut⟩
  case last => exact fun n hl => hargvs ▸ h.last n hl

theorem Cuts.step {e : Unit} (h : Cuts ws s) (hc : Counts s) (hs : SplitterStep s e s') :
    Cuts ws s' := by
  cases hs with
  | visit hloop => exact h.visit hloop
  | @seq cs hseq hw =>
    obtain ⟨hco, hpos, -⟩ := hc.seq hseq
    -- the command just forked is not reaped yet, so the wait takes a child, if not always that one
    have hmap := Moves.map_what (hw.reaps (by omega))
    obtain ⟨rest, hrow, hcut⟩ := (h.children hmap).seq hseq
    constructor
    case loop => exact fun _ => ⟨[], rest, ⟨hrow, rfl, fun t ht => by cases ht⟩, hcut⟩
    case seq => exact fun hl => by cases hl
    case last => exact fun _ hl => by cases hl
  | @last n cs hlast hw =>
    have hmap := Moves.map_what (hw.reaps (by rw [hc.last _ hlast]; omega))
    constructor
    case loop => exact fun hl => by cases hl
    case seq => exact fun hl => by cases hl
    case last => exact fun _ _ => (h.children hmap).last _ hlast
  | ends he => exact h.children (Moves.map_what he)

theorem Counts.step {e : Unit} (hcuts : Cuts ws s) (h : Counts s) (hs : SplitterStep s e s') :
    Counts s' := by
  have hwaits := h.waits
  cases hs with
  | visit hloop => exact h.visit hcuts hloop
  | @seq cs hseq hw =>
    obtain ⟨hco, hpos, hi⟩ := h.seq hseq
    have hr := hw.reaps (by omega)
    have hp := pending_of_reaps hr
    have hlen := hr.length_eq
    constructor
    case loop => exact fun _ => hco.trans hp
    case seq => exact fun hl => by cases hl
    case last => exact fun _ hl => by cases hl
    case waits => show s.waits + 1 + pending cs = cs.length; omega
  | @last n cs hlast hw =>
    have hn := h.last _ hlast
    have hr := hw.reaps (by omega)
    have hp := pending_of_reaps hr
    have hlen := hr.length_eq
    constructor
    case loop => exact fun hl => by cases hl
    case seq => exact fun hl => by cases hl
    case last =>
      intro m hl
      obtain rfl : n = m := Phase.last.inj hl
      show pending cs = n
      omega
    case waits => show s.waits + 1 + pending cs = cs.length; omega
  | @ends cs he =>
    have hp := pending_of_ends he
    have hlen := he.length_eq
    constructor
    case loop => exact fun hl => hp.symm ▸ h.loop hl
    case seq => exact fun hl => hp.symm ▸ h.seq hl
    case last => exact fun n hl => hp.trans (h.last n hl)
    case waits => show s.waits + pending cs = cs.length; omega

/-- Both invariants hold in every run. -/
theorem cuts_counts_of_reach (hr : (splitter ws).Reach s) : Cuts ws s ∧ Counts s := by
  refine Lts.Reach.invariant (I := fun s : Splitter => Cuts ws s ∧ Counts s) ?_
    (fun s e s' h hs => ⟨h.1.step h.2 hs, h.2.step h.1 hs⟩) hr
  rintro s ⟨tokens, hrow, rfl⟩
  constructor
  · constructor
    case loop => exact fun _ => ⟨[], ws, ⟨hrow, rfl, fun t ht => by cases ht⟩, rfl⟩
    case seq => exact fun hl => by cases hl
    case last => exact fun _ hl => by cases hl
  · constructor
    case loop => exact fun _ => rfl
    case seq => exact fun hl => by cases hl
    case last => exact fun _ hl => by cases hl
    case waits => rfl

/-! ## To the exit -/

/-- Before the exit the process goes on, or one of its children can end. -/
theorem Counts.progress (h : Counts s) (hexit : s.phase ≠ .last 0) :
    ∃ s', SplitterStep s () s' := by
  cases hphase : s.phase with
  | loop => exact ⟨_, .visit hphase⟩
  | seq =>
    -- `wait` returns when a child has ended, and one can
    obtain ⟨hco, hpos, -⟩ := h.seq hphase
    have hpending : 0 < pending s.children := by omega
    rcases exists_step_of_pending hpending with ⟨cs, he⟩ | ⟨cs, hw⟩
    · exact ⟨_, .ends he⟩
    · exact ⟨_, .seq hphase hw⟩
  | last n =>
    cases n with
    | zero => exact absurd hphase hexit
    | succ n =>
      have hpending : 0 < pending s.children := by
        rw [h.last _ hphase]
        exact Nat.succ_pos n
      rcases exists_step_of_pending hpending with ⟨cs, he⟩ | ⟨cs, hw⟩
      · exact ⟨_, .ends he⟩
      · exact ⟨_, .last hphase hw⟩

/-- What is left to do: three steps for a token, a wait for a child that is left, and the end of
    those that run. -/
def Splitter.rank (s : Splitter) : Nat :=
  match s.phase with
  | .loop => 3 * (MAX_NUM_TOKENS - s.i) + s.co + 2 + running s.children
  | .seq => 3 * (MAX_NUM_TOKENS - s.i) + s.co + running s.children
  | .last n => n + running s.children

theorem Splitter.rank_loop (hs : s.phase = .loop) :
    s.rank = 3 * (MAX_NUM_TOKENS - s.i) + s.co + 2 + running s.children := by
  rw [Splitter.rank, hs]

theorem Splitter.rank_seq (hs : s.phase = .seq) :
    s.rank = 3 * (MAX_NUM_TOKENS - s.i) + s.co + running s.children := by
  rw [Splitter.rank, hs]

theorem Splitter.rank_last {n : Nat} (hs : s.phase = .last n) :
    s.rank = n + running s.children := by
  rw [Splitter.rank, hs]

theorem running_fork (s : Splitter) : running s.fork.children = running s.children + 1 :=
  List.countP_cons_of_pos rfl

theorem rank_visit (hc : Cuts ws s) (hloop : s.phase = .loop) : s.visit.rank < s.rank := by
  obtain ⟨seg, rest, hs, -⟩ := hc.loop hloop
  obtain ⟨hi, -⟩ := hs.get
  have hfork := running_fork s
  have hcut : running s.cut.fork.children = running s.children + 1 := running_fork s.cut
  rw [Splitter.rank_loop hloop]
  rcases hs.visit_cases with ⟨-, hv⟩ | ⟨rest, -, hv⟩ | ⟨rest, -, hv⟩ | ⟨t, rest, -, -, hv⟩ <;> rw [hv]
  · rw [Splitter.rank_last rfl]
    show s.co + running s.fork.children < _
    omega
  · rw [Splitter.rank_seq rfl]
    show 3 * (MAX_NUM_TOKENS - s.i) + s.co + running s.cut.fork.children < _
    omega
  · refine lt_of_eq_of_lt (Splitter.rank_loop hloop) ?_
    show 3 * (MAX_NUM_TOKENS - (s.i + 1)) + (s.co + 1) + 2 + running s.cut.fork.children < _
    omega
  · refine lt_of_eq_of_lt (Splitter.rank_loop hloop) ?_
    show 3 * (MAX_NUM_TOKENS - (s.i + 1)) + s.co + 2 + running s.children < _
    omega

theorem rank_step {e : Unit} (hc : Cuts ws s) (h : Counts s) (hs : SplitterStep s e s') :
    s'.rank < s.rank := by
  cases hs with
  | visit hloop => exact rank_visit hc hloop
  | @seq cs hseq hw =>
    obtain ⟨hco, hpos, hi⟩ := h.seq hseq
    have hrun := running_of_reaps (hw.reaps (by omega))
    rw [Splitter.rank_seq hseq, Splitter.rank_loop rfl]
    show 3 * (MAX_NUM_TOKENS - (s.i + 1)) + s.co + 2 + running cs < _
    omega
  | @last n cs hlast hw =>
    have hn := h.last _ hlast
    have hrun := running_of_reaps (hw.reaps (by omega))
    rw [Splitter.rank_last hlast, Splitter.rank_last rfl]
    show n + running cs < _
    omega
  | @ends cs he =>
    have hrun := running_of_ends he
    cases hphase : s.phase with
    | loop =>
      rw [Splitter.rank_loop hphase, Splitter.rank_loop rfl]
      show 3 * (MAX_NUM_TOKENS - s.i) + s.co + 2 + running cs < _
      omega
    | seq =>
      rw [Splitter.rank_seq hphase, Splitter.rank_seq rfl]
      show 3 * (MAX_NUM_TOKENS - s.i) + s.co + running cs < _
      omega
    | last n =>
      rw [Splitter.rank_last hphase, Splitter.rank_last rfl]
      show n + running cs < _
      omega

/-- So every run can be led to the exit. -/
theorem exit_of_reach (hr : (splitter ws).Reach s) :
    ∃ s', (splitter ws).Reach s' ∧ s'.phase = .last 0 := by
  induction hm : s.rank using Nat.strong_induction_on generalizing s with
  | _ m ih =>
    subst hm
    by_cases hexit : s.phase = .last 0
    · exact ⟨s, hr, hexit⟩
    · obtain ⟨hcuts, hcounts⟩ := cuts_counts_of_reach hr
      obtain ⟨s', hs⟩ := hcounts.progress hexit
      exact ih _ (rank_step hcuts hcounts hs) (.step hr hs) rfl

end Turn

/-- There is room for the words and a `NULL`. -/
theorem exists_start {ws : List String} (hlen : ws.length ≤ 63) : ∃ s, (splitter ws).start s := by
  let row : List (Option String) :=
    ws.map some ++ [none] ++ List.replicate (MAX_NUM_TOKENS - (ws.length + 1)) none
  have hrow : row.length = MAX_NUM_TOKENS := by
    simp only [row, List.length_append, List.length_map, List.length_singleton,
      List.length_replicate, MAX_NUM_TOKENS]
    omega
  exact ⟨_, ⟨row.toArray, hrow⟩, List.prefix_append _ _, rfl⟩

/-- **Every operator's segment is forked and every fork is waited for**, in whatever order the
    children end, and every run comes to the exit. -/
theorem splitter_balance (ws : List String) (hlen : ws.length ≤ 63) :
    (∃ s, (splitter ws).Reach s ∧ s.phase = .last 0) ∧ ∀ s, (splitter ws).Reach s →
      (s.phase = .last 0 → s.argvs = ws.splitOnP isOperator ∧
        s.children.length = ws.countP isOperator + 1 ∧ s.waits = ws.countP isOperator + 1 ∧
        ∀ c ∈ s.children, c.status = .reaped) ∧
      (s.phase ≠ .last 0 → ∃ s', (splitter ws).step s () s') ∧
      ∃ b, ∀ trs s', (splitter ws).Run s trs s' → trs.length ≤ b := by
  constructor
  · obtain ⟨s, h0⟩ := exists_start hlen
    exact exit_of_reach (.start h0)
  · intro s hr
    obtain ⟨hcuts, hcounts⟩ := cuts_counts_of_reach hr
    refine ⟨fun hexit => ?_, fun hexit => hcounts.progress hexit, s.rank, fun trs s' hrun => ?_⟩
    · have hargvs := hcuts.last 0 hexit
      have hpending := hcounts.last 0 hexit
      have hlength : s.children.length = ws.countP isOperator + 1 := by
        rw [← length_splitOnP, hargvs, Splitter.argvs, List.length_reverse, List.length_map]
      have hwaits := hcounts.waits
      exact ⟨hargvs.symm, hlength, by omega, reaped_of_pending hpending⟩
    · refine hrun.length_le (I := fun s : Splitter => Cuts ws s ∧ Counts s) ?_ ⟨hcuts, hcounts⟩
      exact fun s e s' h hs => ⟨⟨h.1.step h.2 hs, h.2.step h.1 hs⟩, rank_step h.1 h.2 hs⟩

/-- The line `a && b &&& c`. -/
theorem splitter_balance_three : ∃ s, (splitter ["a", "&&", "b", "&&&", "c"]).Reach s ∧
    s.phase = .last 0 ∧ s.argvs = [["a"], ["b"], ["c"]] ∧ s.waits = 3 := by
  obtain ⟨⟨s, hr, hexit⟩, hall⟩ := splitter_balance ["a", "&&", "b", "&&&", "c"] (by decide)
  obtain ⟨hargvs, -, hwaits, -⟩ := (hall s hr).1 hexit
  exact ⟨s, hr, hexit, hargvs.trans (by decide), hwaits⟩

end OsCodes.Shell
