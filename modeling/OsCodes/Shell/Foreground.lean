/-
  Foreground commands of `my_shell.c`.

  The shell forks a child for every line, and waits for it where the last token is not `&`, with a
  `wait(NULL)` that takes whichever child has ended first.  So a background child that ends during
  the wait is taken in place of the command (`wait_takes_job`); without one the command is reaped
  before the next prompt (`foreground_completes`).

  `signal` installs a handler that restarts `wait` and `scanf`.  What the children run, the
  directory that `cd` changes and the texts that are printed are left out.

  The children are those of `Lib.Children`, and `sigint` may come at any time.  The record beside
  the shell keeps the last foreground command, so that the law can be stated about it: during the
  wait `foregroundProcess` is its id, and at the next prompt it has been reaped (`Completed`).

  1. `Inv` is the invariant of all sessions: the child that the shell waits for is its youngest;
  2. `run_cases` splits a line behind the polls into the lines that are waited for and the others;
  3. `Completed.waited` is the step that matters: a wait that has nobody else to take reaps the
     youngest child.  `Alone` is this condition, on the state before the wait returns;
  4. `foreground_completes` has both directions: sessions whose waits are alone are right, and at
     a wait that is not alone the command may be left running.
-/
import OsCodes.Lib.Children
import OsCodes.Lib.Lts

namespace OsCodes.Foreground

open Children

/-! ## The code -/

/-- Where the shell is in its loop; `reaping` has so many of its 64 polls left. -/
inductive Prompt
  | reading
  | reaping (tokens : List String) (polls : Nat)
  | waiting (pid : Int)
  | exited

/-- The shell, with its children under their process ids. -/
structure Shell where
  prompt : Prompt
  foregroundProcess : Int
  children : List (Child Int)

/-- `tokens[0] && strcmp(tokens[len-1], "&")`: the shell waits for the line. -/
def foreground (tokens : List String) : Bool := tokens ≠ [] && tokens.getLast? ≠ some "&"

/-- The line after the polls; `rc` is what `fork` returns, `none` where it fails. -/
def Shell.run (tokens : List String) (rc : Option Int) (s : Shell) : Shell :=
  match rc with
  | none => { s with prompt := .reading }
  | some rc =>
    if tokens = [] then { s with prompt := .reading }
    else if foreground tokens then
      { prompt := .waiting rc
        foregroundProcess := rc
        children := ⟨rc, .running⟩ :: s.children }
    else { s with prompt := .reading, children := ⟨rc, .running⟩ :: s.children }

/-- The handler.  The `kill` in it may end the process, as anything may. -/
def Shell.sigintHandler (s : Shell) : Shell :=
  if 0 < s.foregroundProcess then { s with foregroundProcess := -1 } else s

/-- What happens next: a line is read, a poll reaps a child or finds none, the line is run with what
    `fork` returns, the wait returns, a child ends, or Ctrl+C comes. -/
inductive Event
  | read (tokens : List String)
  | poll
  | run (rc : Option Int)
  | waited
  | ends
  | sigint

/-- A step of the shell or of one of its children. -/
inductive Session : Shell → Event → Shell → Prop
  | exit {s : Shell} {tokens : List String} : s.prompt = .reading → tokens.head? = some "exit" →
      Session s (.read tokens) { s with prompt := .exited }
  | read {s : Shell} {tokens : List String} : s.prompt = .reading → tokens.head? ≠ some "exit" →
      Session s (.read tokens) { s with prompt := .reaping tokens 64 }
  /-- `waitpid(-1, NULL, WNOHANG)` reaps a child. -/
  | pollReaps {s : Shell} {tokens : List String} {polls : Nat} {cs : List (Child Int)} :
      s.prompt = .reaping tokens (polls + 1) → Reaps s.children cs →
      Session s .poll { s with prompt := .reaping tokens polls, children := cs }
  /-- No child has ended. -/
  | pollFails {s : Shell} {tokens : List String} {polls : Nat} :
      s.prompt = .reaping tokens (polls + 1) → (∀ c ∈ s.children, c.status ≠ .zombie) →
      Session s .poll { s with prompt := .reaping tokens polls }
  | run {s : Shell} {tokens : List String} {rc : Option Int} : s.prompt = .reaping tokens 0 →
      (∀ p, rc = some p → 0 < p ∧ ∀ c ∈ s.children, c.status ≠ .reaped → c.what ≠ p) →
      Session s (.run rc) (s.run tokens rc)
  /-- `wait(NULL)` returns. -/
  | waited {s : Shell} {pid : Int} {cs : List (Child Int)} : s.prompt = .waiting pid →
      Waits s.children cs →
      Session s .waited { prompt := .reading, foregroundProcess := -1, children := cs }
  | ends {s : Shell} {cs : List (Child Int)} : Ends s.children cs →
      Session s .ends { s with children := cs }
  | sigint {s : Shell} : Session s .sigint s.sigintHandler

/-! ## The last command -/

/-- A foreground command: its child, and whether Ctrl+C came since the fork. -/
structure Command where
  pid : Int
  interrupted : Bool

/-- The foreground command of the line that is in work, or, at the prompt, of the last line. -/
def record (s : Shell) (last : Option Command) : Event → Option Command
  | .read _ => none
  | .run rc =>
    match s.prompt with
    | .reaping tokens _ => if foreground tokens then rc.map fun p => ⟨p, false⟩ else none
    | _ => none
  | .sigint => last.map fun c => { c with interrupted := true }
  | _ => last

/-- The shell from its start, with its last command. -/
def myShell : Lts (Shell × Option Command) Event :=
  Lts.withGhost ⟨fun s => s = ⟨.reading, -1, []⟩, Session⟩ none record

/-- During the wait `foregroundProcess` is the command, unless Ctrl+C came; at the prompt behind
    it the command, which is the youngest child, has ended and is reaped. -/
structure Completed (s : Shell × Option Command) : Prop where
  held : ∀ pid, s.1.prompt = .waiting pid → ∃ c, s.2 = some c ∧ c.pid = pid ∧
    (s.1.foregroundProcess = pid ∨ c.interrupted = true)
  reaped : s.1.prompt = .reading → ∀ c, s.2 = some c → ∃ child cs, s.1.children = child :: cs ∧
    child.what = c.pid ∧ child.status = .reaped

/-- Where the wait returns, no child but the youngest has ended without being reaped. -/
def Alone (s : Shell × Option Command) : Event → Prop
  | .waited => ∀ c ∈ s.1.children.tail, c.status ≠ .zombie
  | _ => True

/-! ## The invariant -/

/-- The child that the shell waits for is its youngest, and still to be reaped. -/
structure Inv (s : Shell × Option Command) : Prop where
  held : ∀ pid, s.1.prompt = .waiting pid → ∃ c, s.2 = some c ∧ c.pid = pid ∧
    (s.1.foregroundProcess = pid ∨ c.interrupted = true)
  young : ∀ pid, s.1.prompt = .waiting pid → ∃ child cs, s.1.children = child :: cs ∧
    child.what = pid ∧ child.status ≠ .reaped

section Steps

variable {s s' : Shell × Option Command} {e : Event}

/-- The youngest child when some child has ended. -/
theorem ends_young {child : Child Int} {cs ds : List (Child Int)} (h : Ends (child :: cs) ds) :
    ∃ d ds', ds = d :: ds' ∧ d.what = child.what ∧
      (d.status = .reaped ↔ child.status = .reaped) := by
  cases h with
  | here hr =>
    obtain ⟨hrun, rfl⟩ := hr
    refine ⟨_, _, rfl, rfl, ?_⟩
    simp [hrun]
  | there h => exact ⟨child, _, rfl, rfl, Iff.rfl⟩

/-- Ctrl+C changes neither the prompt nor the children. -/
theorem sigintHandler_cases (s : Shell) : s.sigintHandler.prompt = s.prompt ∧
    s.sigintHandler.children = s.children := by
  unfold Shell.sigintHandler
  split
  · exact ⟨rfl, rfl⟩
  · exact ⟨rfl, rfl⟩

/-- **A line behind its polls** either is waited for, with a child of its own, or leaves no
    command. -/
theorem run_cases (s : Shell) (last : Option Command) {tokens : List String} (rc : Option Int)
    (hp : s.prompt = .reaping tokens 0) :
    (∃ p, s.run tokens rc = ⟨.waiting p, p, ⟨p, .running⟩ :: s.children⟩ ∧
      record s last (.run rc) = some ⟨p, false⟩) ∨
    (s.run tokens rc).prompt = .reading ∧ record s last (.run rc) = none := by
  simp only [record, hp]
  cases rc with
  | none => exact .inr ⟨rfl, by split <;> rfl⟩
  | some p =>
    by_cases hf : foreground tokens = true
    · have hne : tokens ≠ [] := by
        rintro rfl
        cases hf
      refine .inl ⟨p, ?_, if_pos hf⟩
      simp only [Shell.run, if_neg hne, if_pos hf]
    · refine .inr ⟨?_, if_neg hf⟩
      simp only [Shell.run, if_neg hf]
      split
      · rfl
      · rfl

/-- A prompt that is not the one waited at. -/
theorem Inv.of_not_waiting (h : ∀ pid, s.1.prompt ≠ .waiting pid) : Inv s where
  held pid hp := absurd hp (h pid)
  young pid hp := absurd hp (h pid)

/-- **The step lemma** of every run. -/
theorem Inv.session {s s' : Shell} {last : Option Command} (h : Inv (s, last))
    (hst : Session s e s') : Inv (s', record s last e) := by
  cases hst with
  | exit => exact Inv.of_not_waiting fun pid hp => by cases hp
  | read => exact Inv.of_not_waiting fun pid hp => by cases hp
  | pollReaps => exact Inv.of_not_waiting fun pid hp => by cases hp
  | pollFails => exact Inv.of_not_waiting fun pid hp => by cases hp
  | @run tokens rc hp _ =>
    rcases run_cases s last rc hp with ⟨p, hrun, hrec⟩ | ⟨hread, -⟩
    · rw [hrun, hrec]
      constructor
      · intro pid hw
        cases hw
        exact ⟨_, rfl, rfl, .inl rfl⟩
      · intro pid hw
        cases hw
        exact ⟨_, _, rfl, rfl, fun hr => by cases hr⟩
    · refine Inv.of_not_waiting fun pid hw => ?_
      rw [hread] at hw
      cases hw
  | waited => exact Inv.of_not_waiting fun pid hp => by cases hp
  | @ends ds hends =>
    refine ⟨h.held, fun pid hp => ?_⟩
    obtain ⟨child, cs, hcs, hpid, hne⟩ := h.young pid hp
    have hcs : s.children = child :: cs := hcs
    rw [hcs] at hends
    obtain ⟨d, ds', rfl, hwhat, hst⟩ := ends_young hends
    exact ⟨d, ds', rfl, hwhat.trans hpid, fun hr => hne (hst.1 hr)⟩
  | sigint =>
    obtain ⟨hprompt, hchildren⟩ := sigintHandler_cases s
    constructor
    · intro pid hp
      obtain ⟨c, hc, hpid, -⟩ := h.held pid (hprompt.symm.trans hp)
      have hc : last = some c := hc
      exact ⟨{ c with interrupted := true }, by simp [record, hc], hpid, .inr rfl⟩
    · intro pid hp
      obtain ⟨child, cs, hcs, hchild⟩ := h.young pid (hprompt.symm.trans hp)
      exact ⟨child, cs, hchildren.trans hcs, hchild⟩

theorem Inv.step (h : Inv s) (hst : myShell.step s e s') : Inv s' := by
  obtain ⟨s', last'⟩ := s'
  obtain ⟨hst, hlast⟩ := hst
  have hlast : last' = record s.1 s.2 e := hlast
  rw [hlast]
  exact h.session hst

theorem Inv.of_reach (h : myShell.Reach s) : Inv s := by
  refine h.invariant ?_ fun s e s' hs hst => hs.step hst
  rintro ⟨s, last⟩ ⟨hs, -⟩
  have hs : s = ⟨.reading, -1, []⟩ := hs
  rw [hs]
  exact Inv.of_not_waiting fun pid hp => by cases hp

/-! ## The wait -/

/-- A wait with nobody else to take reaps the youngest. -/
theorem takes_young {child : Child Int} {cs ds : List (Child Int)}
    (h : Waits (child :: cs) ds) (hne : child.status ≠ .reaped)
    (halone : ∀ c ∈ cs, c.status ≠ .zombie) : ds = { child with status := .reaped } :: cs := by
  rcases h with h | ⟨hall, -⟩
  · obtain ⟨d, ⟨-, rfl⟩, hds⟩ := One.young h fun c hc d hd => halone c hc hd.1
    exact hds
  · exact absurd (hall child List.mem_cons_self) hne

/-- The command of a line is reaped when the wait returns alone. -/
theorem Completed.waited (h : Inv s) {pid : Int} {cs : List (Child Int)}
    (hp : s.1.prompt = .waiting pid) (hwaits : Waits s.1.children cs) (hok : Alone s .waited) :
    Completed (⟨.reading, -1, cs⟩, s.2) := by
  obtain ⟨child, cs', hcs, hpid, hne⟩ := h.young pid hp
  obtain ⟨c, hc, hcpid, -⟩ := h.held pid hp
  have hok : ∀ b ∈ s.1.children.tail, b.status ≠ .zombie := hok
  rw [hcs] at hwaits hok
  constructor
  · intro pid' hw
    cases hw
  · intro _ c' hc'
    obtain rfl : c = c' := Option.some.inj (hc.symm.trans hc')
    exact ⟨_, _, takes_young hwaits hne hok, hpid.trans hcpid.symm, rfl⟩

/-- **The step lemma** of the runs with every wait alone. -/
theorem Completed.session {s s' : Shell} {last : Option Command} (h : Completed (s, last))
    (hinv : Inv (s, last)) (hok : Alone (s, last) e) (hst : Session s e s') :
    Completed (s', record s last e) := by
  refine ⟨(hinv.session hst).held, ?_⟩
  cases hst with
  | exit => exact fun hp => by cases hp
  | read => exact fun hp => by cases hp
  | pollReaps => exact fun hp => by cases hp
  | pollFails => exact fun hp => by cases hp
  | @run tokens rc hp _ =>
    intro hread c hc
    rcases run_cases s last rc hp with ⟨p, hrun, -⟩ | ⟨-, hnone⟩
    · rw [hrun] at hread
      cases hread
    · have hc : record s last (.run rc) = some c := hc
      rw [hnone] at hc
      cases hc
  | waited hp hwaits => exact (Completed.waited hinv hp hwaits hok).reaped
  | @ends ds hends =>
    intro hp c hc
    obtain ⟨child, cs, hcs, hpid, hreaped⟩ := h.reaped hp c hc
    have hcs : s.children = child :: cs := hcs
    rw [hcs] at hends
    obtain ⟨d, ds', rfl, hwhat, hst⟩ := ends_young hends
    exact ⟨d, ds', rfl, hwhat.trans hpid, hst.2 hreaped⟩
  | sigint =>
    obtain ⟨hprompt, hchildren⟩ := sigintHandler_cases s
    intro hp c hc
    obtain ⟨c₀, hc₀, rfl⟩ := Option.map_eq_some_iff.mp hc
    obtain ⟨child, cs, hcs, hchild⟩ := h.reaped (hprompt.symm.trans hp) c₀ hc₀
    exact ⟨child, cs, hchildren.trans hcs, hchild⟩

theorem Completed.step (h : Completed s) (hinv : Inv s) (hok : Alone s e)
    (hst : myShell.step s e s') : Completed s' := by
  obtain ⟨s', last'⟩ := s'
  obtain ⟨hst, hlast⟩ := hst
  have hlast : last' = record s.1 s.2 e := hlast
  rw [hlast]
  exact h.session hinv hok hst

/-- Where another child can be taken, the command may be left. -/
theorem Alone.of_completed (h : Inv s) {pid : Int} (hp : s.1.prompt = .waiting pid)
    (hall : ∀ s', myShell.step s .waited s' → Completed s') : Alone s .waited := by
  intro c hc hzombie
  obtain ⟨child, cs, hcs, -, hne⟩ := h.young pid hp
  obtain ⟨cmd, hcmd, -⟩ := h.held pid hp
  rw [hcs] at hc
  obtain ⟨ds, hreaps, -⟩ := One.exists_of_mem (r := Moves .zombie .reaped) hc ⟨hzombie, rfl⟩
  have hwaits : Waits s.1.children (child :: ds) := by
    rw [hcs]
    exact .inl (.there hreaps)
  have hdone := hall (⟨.reading, -1, child :: ds⟩, s.2) ⟨.waited hp hwaits, rfl⟩
  obtain ⟨child', cs', hcs', -, hreaped⟩ := hdone.reaped rfl cmd hcmd
  cases hcs'
  exact hne hreaped

end Steps

/-! ## Sessions -/

section Lines

variable {tokens : List String} {fg : Int} {cs : List (Child Int)} {last : Option Command}

/-- The polls find nobody. -/
theorem polls_reach (hquiet : ∀ c ∈ cs, c.status ≠ .zombie) : ∀ polls,
    (myShell.guard Alone).Reach (⟨.reaping tokens polls, fg, cs⟩, last) →
    (myShell.guard Alone).Reach (⟨.reaping tokens 0, fg, cs⟩, last) := by
  intro polls
  induction polls with
  | zero => exact id
  | succ polls ih =>
    intro h
    exact ih (.step (e := .poll) h ⟨trivial, .pollFails rfl hquiet, rfl⟩)

/-- A line whose child gets the id `p`. -/
theorem line_reach (tokens : List String) (p : Int)
    (h : (myShell.guard Alone).Reach (⟨.reading, fg, cs⟩, last))
    (hquiet : ∀ c ∈ cs, c.status ≠ .zombie) (hexit : tokens.head? ≠ some "exit")
    (hp : 0 < p ∧ ∀ c ∈ cs, c.what ≠ p) :
    (myShell.guard Alone).Reach ((Shell.mk (.reaping tokens 0) fg cs).run tokens (some p),
      record ⟨.reaping tokens 0, fg, cs⟩ none (.run (some p))) := by
  have hread : (myShell.guard Alone).Reach (⟨.reaping tokens 64, fg, cs⟩, none) :=
    .step (e := .read tokens) h ⟨trivial, .read rfl hexit, rfl⟩
  refine .step (e := .run (some p)) (polls_reach hquiet 64 hread) ⟨trivial, .run rfl ?_, rfl⟩
  intro p' hp'
  obtain rfl := Option.some.inj hp'
  exact ⟨hp.1, fun c hc _ => hp.2 c hc⟩

/-- `sleep &` runs as process 2, and the shell waits for `ls`, which is process 3. -/
theorem lsBesideSleep : (myShell.guard Alone).Reach
    (⟨.waiting 3, 3, [⟨3, .running⟩, ⟨2, .running⟩]⟩, some ⟨3, false⟩) := by
  have hsleep := line_reach ["sleep", "&"] 2 (.start ⟨rfl, rfl⟩)
    (fun _ hc => absurd hc List.not_mem_nil) (by decide)
    ⟨by decide, fun _ hc => absurd hc List.not_mem_nil⟩
  refine line_reach ["ls"] 3 hsleep ?_ (by decide) ⟨by decide, ?_⟩
  · intro c hc
    obtain rfl := List.mem_singleton.mp hc
    decide
  · intro c hc
    obtain rfl := List.mem_singleton.mp hc
    decide

end Lines

/-- **Foreground completion.**  In a session in which no background child has ended unreaped when
    the wait for a command returns, the shell holds the command's id during the wait, but for
    Ctrl+C, and has reaped the command at the next prompt; and a wait in any session returns so,
    whatever child it takes, exactly where no other child has ended unreaped. -/
theorem foreground_completes (s : Shell × Option Command) :
    ((myShell.guard Alone).Reach s → Completed s) ∧
    ∀ pid, myShell.Reach s → s.1.prompt = .waiting pid →
      ((∀ s', myShell.step s .waited s' → Completed s') ↔ Alone s .waited) := by
  constructor
  · intro h
    refine (h.invariant (I := fun s => Inv s ∧ Completed s) ?_ ?_).2
    · rintro s hs
      have hinv := Inv.of_reach (.start hs)
      obtain ⟨-, hlast⟩ := hs
      refine ⟨hinv, hinv.held, fun _ c hc => ?_⟩
      rw [hlast] at hc
      cases hc
    · rintro s e s' ⟨hinv, hs⟩ ⟨hok, hst⟩
      exact ⟨hinv.step hst, hs.step hinv hok hst⟩
  · intro pid h hp
    have hinv := Inv.of_reach h
    refine ⟨Alone.of_completed hinv hp, fun hok s' hst => ?_⟩
    obtain ⟨s', last'⟩ := s'
    obtain ⟨hst, hlast⟩ := hst
    have hlast : last' = s.2 := hlast
    rw [hlast]
    have hst : Session s.1 .waited s' := hst
    cases hst with
    | waited _ hwaits => exact Completed.waited hinv hp hwaits hok

/-- `ls` ends and is reaped, with `sleep` in the background. -/
theorem foreground_completes_ls :
    Completed (⟨.reading, -1, [⟨3, .reaped⟩, ⟨2, .running⟩]⟩, some ⟨3, false⟩) := by
  have hends : (myShell.guard Alone).Reach
      (⟨.waiting 3, 3, [⟨3, .zombie⟩, ⟨2, .running⟩]⟩, some ⟨3, false⟩) :=
    .step (e := .ends) lsBesideSleep ⟨trivial, .ends (.here ⟨rfl, rfl⟩), rfl⟩
  refine (foreground_completes _).1 (.step (e := .waited) hends
    ⟨?_, .waited rfl (.inl (.here ⟨rfl, rfl⟩)), rfl⟩)
  intro c hc
  obtain rfl := List.mem_singleton.mp hc
  decide

/-- **The wait takes a background job.**  `sleep &` ends while the shell waits for `ls`, and the
    next prompt comes with `ls` still running. -/
theorem wait_takes_job : ¬ ∀ s, myShell.Reach s → Completed s := by
  intro h
  have hends : myShell.Reach
      (⟨.waiting 3, 3, [⟨3, .running⟩, ⟨2, .zombie⟩]⟩, some ⟨3, false⟩) :=
    .step (e := .ends) lsBesideSleep.of_guard ⟨.ends (.there (.here ⟨rfl, rfl⟩)), rfl⟩
  have hprompt : myShell.Reach
      (⟨.reading, -1, [⟨3, .running⟩, ⟨2, .reaped⟩]⟩, some ⟨3, false⟩) :=
    .step (e := .waited) hends ⟨.waited rfl (.inl (.there (.here ⟨rfl, rfl⟩))), rfl⟩
  obtain ⟨child, cs, hcs, -, hreaped⟩ := (h _ hprompt).reaped rfl _ rfl
  cases hcs
  cases hreaped

end OsCodes.Foreground
