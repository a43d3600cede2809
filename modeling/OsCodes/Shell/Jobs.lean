/-
  The background jobs of soln.c: the shell counts them, puts them in one process group, and reaps
  them before it looks at the next line.

  A child puts itself into its group, at a time of its own.  `Orderly` says what a session has to
  be like for the count and the group to be right: no line is a single `&`, whose position the
  shell takes for no background job at all; `fork` succeeds where a job depends on it; and a job
  has called `setpgid` when the shell next has reaped, while its group was still there.

  The position of `&` that the shell keeps in `background` doubles as a flag, so a line that is
  just `&` counts as a foreground line in one place and as a background job in another
  (`not_accounts_ampersand`).  The promise is `Accounts`: whenever the shell has reaped, the
  number it keeps is that of the background jobs still to be reaped, and they are in its process
  group.

  The proof has one lemma for each kind of event of a session: a child calls `setpgid`, ends or is
  reaped by a poll, the polls are over, the foreground child is reaped, and the next line is run,
  in the foreground or not.  `Joins` is what the invariant says of a job that has been forked and
  has not called `setpgid` yet: it will be in the group once it has.
-/
import OsCodes.Shell.Sequence

namespace OsCodes.Jobs

open Children
open Shell (MAX_NUM_TOKENS)

/-! ## The code -/

/-- Which token is the first `&`. -/
def ampersand (tokens : List String) : Option Nat :=
  (tokens.take MAX_NUM_TOKENS).findIdx? (· = "&")

/-- `background`: -1 for a line in the foreground, -2 for an error, and else the place of `&`. -/
def background (tokens : List String) : Int :=
  match ampersand tokens with
  | none => -1
  | some i =>
    if tokens[i + 1]? = none then
      if 0 < i ∧ (tokens.take MAX_NUM_TOKENS).any fun t => t = "&&" || t = "&&&" then -2 else i
    else -2

/-- A child of the shell: what it runs, whether the shell goes on without it, the group that it
    asks `setpgid` for (0 for its own), whether it has, and the group it is in (`none` for that of
    the shell). -/
structure Job where
  pid : Int
  tokens : List String
  background : Bool
  want : Int
  called : Bool
  pgid : Option Int

/-- Where the shell is in its loop. -/
inductive Prompt
  | reading
  | reaping (tokens : List String)
  | checked (tokens : List String)
  | waiting (pid : Int)
  | waitingAny
  | exited

/-- The shell between two steps: its prompt, the number of its background jobs, their process group
    (-1 for none), and its children. -/
structure Shell where
  prompt : Prompt
  backNum : Int
  backPgid : Int
  children : List (Child Job)

/-- `fork`, with the child up to its `setpgid`. -/
def Shell.fork (tokens : List String) (pid : Int) (s : Shell) : Shell :=
  let bg := background tokens
  { s with children :=
      ⟨{ pid := pid
         tokens := if 0 < bg then tokens.take bg.toNat else tokens
         background := bg ≠ -1
         want := if 0 < bg ∧ s.backNum ≠ 1 then s.backPgid else 0
         called := false
         pgid := none }, .running⟩ :: s.children }

/-- The parent after `fork`, which gave `pid`, or -1 if it failed. -/
def Shell.parent (tokens : List String) (pid : Int) (s : Shell) : Shell :=
  if background tokens = -1 then
    { s with prompt := if pid = -1 then .waitingAny else .waiting pid }
  else if s.backNum = 1 then { s with prompt := .reading, backPgid := pid }
  else { s with prompt := .reading }

/-- The line is one for which the shell forks. -/
def forks (tokens : List String) : Bool :=
  tokens ≠ [] && background tokens ≠ -2 && tokens[0]? ≠ some "cd"

/-- The line after the reaping, given what `fork` returns. -/
def Shell.run (tokens : List String) (pid : Option Int) (s : Shell) : Shell :=
  if forks tokens then
    let s := if 0 < background tokens then { s with backNum := s.backNum + 1 } else s
    match pid with
    | some pid => (s.fork tokens pid).parent tokens pid
    | none => s.parent tokens (-1)
  else { s with prompt := .reading }

/-! ## Sessions -/

/-- The child still has to be reaped. -/
def Unreaped (c : Child Job) : Prop := c.status ≠ .reaped

/-- The child is a background job that still has to be reaped. -/
def isJob (c : Child Job) : Bool := c.what.background && c.status ≠ .reaped

/-- A child of the shell is in group `g`. -/
def Member (cs : List (Child Job)) (g : Int) : Prop := ∃ c ∈ cs, Unreaped c ∧ c.what.pgid = some g

/-- The child calls `setpgid`, which succeeds for its own group and for one that exists. -/
inductive Setpgid (cs : List (Child Job)) (extra : Prop) (c d : Child Job) : Prop
  | own : c.what.called = false → c.what.want = 0 →
      d = { c with what := { c.what with called := true, pgid := some c.what.pid } } →
      Setpgid cs extra c d
  | joins : c.what.called = false → c.what.want ≠ 0 → Member cs c.what.want ∨ extra →
      d = { c with what := { c.what with called := true, pgid := some c.what.want } } →
      Setpgid cs extra c d
  | fails : c.what.called = false → c.what.want ≠ 0 → ¬(Member cs c.what.want ∨ extra) →
      d = { c with what := { c.what with called := true } } → Setpgid cs extra c d

/-- What happens next: a line is read, a poll reaps a background job, the polls are over, the line
    is run with what `fork` returns, a `waitpid` returns, a child ends, or one calls `setpgid`. -/
inductive Event
  | read (tokens : List String)
  | reap
  | check
  | run (pid : Option Int)
  | waited
  | ends
  /-- The child with this record calls `setpgid`; `extra` says whether a process that is no child
      of the shell is in the group. -/
  | setpgid (j : Job) (extra : Prop)

/-- A step of the shell or of one of its children. -/
inductive Session : Shell → Event → Shell → Prop
  | exit {s : Shell} : s.prompt = .reading →
      Session s (.read ["exit"]) { s with prompt := .exited }
  | read {s : Shell} {tokens : List String} : s.prompt = .reading → tokens ≠ ["exit"] →
      Session s (.read tokens) { s with prompt := .reaping tokens }
  /-- `waitpid(-1, NULL, WNOHANG)` reaps a child. -/
  | reap {s : Shell} {tokens : List String} {cs : List (Child Job)} :
      s.prompt = .reaping tokens → Reaps s.children cs →
      Session s .reap { s with backNum := s.backNum - 1, children := cs }
  /-- No child is left that has ended. -/
  | check {s : Shell} {tokens : List String} :
      s.prompt = .reaping tokens → (∀ c ∈ s.children, c.status ≠ .zombie) →
      Session s .check
        { s with prompt := .checked tokens
                 backPgid := if s.backNum = 0 then -1 else s.backPgid }
  | run {s : Shell} {tokens : List String} {pid : Option Int} :
      s.prompt = .checked tokens →
      (∀ p, pid = some p → 0 < p ∧ ∀ c ∈ s.children, Unreaped c → c.what.pid ≠ p) →
      Session s (.run pid) (s.run tokens pid)
  /-- `waitpid(pid, NULL, 0)` returns. -/
  | waited {s : Shell} {pid : Int} {cs : List (Child Job)} : s.prompt = .waiting pid →
      One (fun c d => c.what.pid = pid ∧ Moves .zombie .reaped c d) s.children cs →
      Session s .waited { s with prompt := .reading, children := cs }
  /-- `waitpid(-1, NULL, 0)`, which the shell calls where `fork` has failed, returns. -/
  | waitedAny {s : Shell} {cs : List (Child Job)} : s.prompt = .waitingAny →
      Waits s.children cs → Session s .waited { s with prompt := .reading, children := cs }
  | ends {s : Shell} {cs : List (Child Job)} : Ends s.children cs →
      Session s .ends { s with children := cs }
  | setpgid {s : Shell} {j : Job} {extra : Prop} {cs : List (Child Job)} :
      One (fun c d => c.what = j ∧ c.status = .running ∧ Setpgid s.children extra c d)
        s.children cs → Session s (.setpgid j extra) { s with children := cs }

/-- The shell from its start, with every way in which its children may go on. -/
def soln : Lts Shell Event := ⟨fun s => s = ⟨.reading, 0, -1, []⟩, Session⟩

/-- The count and the group are those of the jobs. -/
structure Accounts (s : Shell) : Prop where
  num : s.backNum = (s.children.countP isJob : Nat)
  nonneg : 0 ≤ s.backNum
  none : s.backPgid = -1 ↔ s.backNum = 0
  group : ∀ c ∈ s.children, isJob c = true → c.what.pgid = some s.backPgid

/-- What a step must be like. -/
def Orderly (s : Shell) : Event → Prop
  | .check => ∀ c ∈ s.children, isJob c = true → c.what.called = true
  | .run pid => ∀ tokens, s.prompt = .checked tokens → forks tokens = true →
      match pid with
      | some _ => tokens ≠ ["&"]
      | none => background tokens = -1 ∧ s.backNum = 0 ∨ tokens = ["&"] ∧ s.backNum ≠ 1
  | .setpgid j extra => j.want = 0 ∨ Member s.children j.want ∨ extra
  | _ => True

/-! ## The invariant -/

/-- The job is in group `g`, or will be once it has called `setpgid`. -/
structure Joins (g : Int) (j : Job) : Prop where
  called : j.called = true → j.pgid = some g
  wants : j.called = false → j.want = 0 ∧ j.pid = g ∨ j.want = g

/-- What holds in every orderly session: the count is right at every place of the loop, and every
    background job that is left has the group of the others, or will have it. -/
structure Inv (s : Shell) : Prop where
  num : s.backNum = (s.children.countP isJob : Nat)
  /-- Only the child that the shell waits for is in the foreground. -/
  apart : (∀ pid, s.prompt ≠ .waiting pid) → ∀ c ∈ s.children, Unreaped c →
    c.what.background = true
  waiting : ∀ pid, s.prompt = .waiting pid → ∃ c cs, s.children = c :: cs ∧ c.what.pid = pid ∧
    c.what.background = false ∧ ∀ b ∈ cs, Unreaped b →
      b.what.background = true ∧ b.what.pid ≠ pid
  any : s.prompt = .waitingAny → s.children.countP isJob = 0
  group : ∀ c ∈ s.children, isJob c = true → Joins s.backPgid c.what
  pos : 0 < s.children.countP isJob → 0 < s.backPgid
  empty : (∀ tokens, s.prompt ≠ .reaping tokens) → s.children.countP isJob = 0 → s.backPgid = -1
  ready : ∀ tokens, s.prompt = .checked tokens → ∀ c ∈ s.children, isJob c = true →
    c.what.called = true

section Steps

variable {s s' : Shell} {cs : List (Child Job)} {c d : Child Job} {tokens : List String} {e : Event}

theorem isJob_iff : isJob c = true ↔ c.what.background = true ∧ Unreaped c := by
  simp [isJob, Unreaped]

/-- Where there is no job, there is nobody to reap but the child that the shell waits for. -/
theorem Inv.reaped (h : Inv s) (hw : ∀ pid, s.prompt ≠ .waiting pid)
    (h0 : s.children.countP isJob = 0) : ∀ c ∈ s.children, c.status = .reaped := by
  intro c hc
  by_contra hne
  exact List.countP_eq_zero.1 h0 c hc (isJob_iff.2 ⟨h.apart hw c hc hne, hne⟩)

/-- The step reaps nobody, and leaves it alone what a child is. -/
structure Keeps (r : Child Job → Child Job → Prop) : Prop where
  unreaped : ∀ c d, r c d → (Unreaped d ↔ Unreaped c)
  pid : ∀ c d, r c d → d.what.pid = c.what.pid
  background : ∀ c d, r c d → d.what.background = c.what.background

theorem Keeps.isJob_eq {r : Child Job → Child Job → Prop} (hk : Keeps r) (hr : r c d) :
    isJob c = isJob d := by
  rw [Bool.eq_iff_iff, isJob_iff, isJob_iff, hk.background c d hr, hk.unreaped c d hr]

/-- A child does something for itself. -/
theorem Inv.keeps {r : Child Job → Child Job → Prop} (h : Inv s) (hk : Keeps r)
    (hone : One r s.children cs)
    (hjoins : ∀ c ∈ s.children, ∀ d, r c d → isJob c = true → Joins s.backPgid c.what →
      Joins s.backPgid d.what ∧ (c.what.called = true → d.what.called = true)) :
    Inv { s with children := cs } := by
  have hcount : cs.countP isJob = s.children.countP isJob :=
    hone.countP_eq fun c _ d hr => hk.isJob_eq hr
  -- what holds of the unreaped children goes over to the new ones
  have hback : ∀ d ∈ cs, ∃ c ∈ s.children, (Unreaped d ↔ Unreaped c) ∧
      d.what.pid = c.what.pid ∧ d.what.background = c.what.background := by
    intro d hd
    obtain ⟨c, hc, rfl | hr⟩ := hone.origin hd
    · exact ⟨d, hc, .rfl, rfl, rfl⟩
    · exact ⟨c, hc, hk.unreaped c d hr, hk.pid c d hr, hk.background c d hr⟩
  exact
    { num := by
        show s.backNum = (cs.countP isJob : Nat)
        rw [hcount]
        exact h.num
      apart := by
        intro hw d hd hu
        obtain ⟨c, hc, hcu, -, hcb⟩ := hback d hd
        rw [hcb]
        exact h.apart hw c hc (hcu.1 hu)
      waiting := by
        intro pid hp
        obtain ⟨c, bs, hch, hpid, hbg, hbs⟩ := h.waiting pid hp
        rw [hch] at hone
        cases hone with
        | @here _ d _ hr =>
          exact ⟨d, bs, rfl, (hk.pid c d hr).trans hpid, (hk.background c d hr).trans hbg, hbs⟩
        | @there _ _ ds hone =>
          refine ⟨c, ds, rfl, hpid, hbg, fun d hd hu => ?_⟩
          obtain ⟨b, hb, rfl | hr⟩ := hone.origin hd
          · exact hbs d hb hu
          · rw [hk.pid b d hr, hk.background b d hr]
            exact hbs b hb ((hk.unreaped b d hr).1 hu)
      any := fun hp => hcount.trans (h.any hp)
      group := by
        intro d hd hjob
        obtain ⟨c, hc, rfl | hr⟩ := hone.origin hd
        · exact h.group d hc hjob
        · have hjob' : isJob c = true := (hk.isJob_eq hr).trans hjob
          exact (hjoins c hc d hr hjob' (h.group c hc hjob')).1
      pos := fun hpos => h.pos (hcount ▸ hpos)
      empty := fun hp h0 => h.empty hp (hcount.symm.trans h0)
      ready := by
        intro tokens hp d hd hjob
        obtain ⟨c, hc, rfl | hr⟩ := hone.origin hd
        · exact h.ready tokens hp d hc hjob
        · have hjob' : isJob c = true := (hk.isJob_eq hr).trans hjob
          exact (hjoins c hc d hr hjob' (h.group c hc hjob')).2 (h.ready tokens hp c hc hjob') }

theorem Inv.ends (h : Inv s) (hone : Ends s.children cs) : Inv { s with children := cs } := by
  refine h.keeps ⟨?_, ?_, ?_⟩ hone ?_
  · rintro c d ⟨hc, rfl⟩
    simp [Unreaped, hc]
  · rintro c d ⟨-, rfl⟩
    rfl
  · rintro c d ⟨-, rfl⟩
    rfl
  · rintro c - d ⟨-, rfl⟩ - hj
    exact ⟨hj, id⟩

theorem Setpgid.keeps {extra : Prop} (h : Setpgid cs extra c d) :
    d.status = c.status ∧ d.what.pid = c.what.pid ∧ d.what.background = c.what.background := by
  cases h with
  | own _ _ hd => exact hd ▸ ⟨rfl, rfl, rfl⟩
  | joins _ _ _ hd => exact hd ▸ ⟨rfl, rfl, rfl⟩
  | fails _ _ _ hd => exact hd ▸ ⟨rfl, rfl, rfl⟩

theorem Inv.setpgid {j : Job} {extra : Prop} (h : Inv s)
    (hok : j.want = 0 ∨ Member s.children j.want ∨ extra)
    (hone : One (fun c d => c.what = j ∧ c.status = .running ∧ Setpgid s.children extra c d)
      s.children cs) : Inv { s with children := cs } := by
  refine h.keeps ⟨?_, ?_, ?_⟩ hone ?_
  · rintro c d ⟨-, -, hset⟩
    unfold Unreaped
    rw [hset.keeps.1]
  · exact fun c d ⟨_, _, hset⟩ => hset.keeps.2.1
  · exact fun c d ⟨_, _, hset⟩ => hset.keeps.2.2
  · rintro c hc d ⟨rfl, -, hset⟩ hjob hj
    have hpos := h.pos (List.countP_pos_iff.2 ⟨c, hc, hjob⟩)
    cases hset with
    | own hcall hwant hd =>
      subst hd
      refine ⟨⟨fun _ => ?_, fun hf => by cases hf⟩, fun _ => rfl⟩
      rcases hj.wants hcall with ⟨-, hpid⟩ | hg
      · exact congrArg _ hpid
      · omega
    | joins hcall hwant _ hd =>
      subst hd
      refine ⟨⟨fun _ => ?_, fun hf => by cases hf⟩, fun _ => rfl⟩
      rcases hj.wants hcall with ⟨hzero, -⟩ | hg
      · exact absurd hzero hwant
      · exact congrArg _ hg
    | fails hcall hwant hno hd =>
      rcases hok with hzero | hex
      · exact absurd hzero hwant
      · exact absurd hex hno

/-- A `&` is at place 0 of a whole line only where it is the line. -/
theorem background_cases (tokens : List String) : background tokens = -1 ∨
    background tokens = -2 ∨ 0 < background tokens ∨
      background tokens = 0 ∧ tokens = ["&"] := by
  unfold background
  cases ha : ampersand tokens with
  | none => exact .inl rfl
  | some i =>
    dsimp only
    by_cases hnext : tokens[i + 1]? = none
    · rw [if_pos hnext]
      split
      · exact .inr (.inl rfl)
      · rcases Nat.eq_zero_or_pos i with rfl | hpos
        · refine .inr (.inr (.inr ⟨rfl, ?_⟩))
          obtain ⟨hlt, hamp, -⟩ := List.findIdx?_eq_some_iff_getElem.1 ha
          match tokens, hnext, hlt, hamp with
          | [t], _, _, hamp => simpa [MAX_NUM_TOKENS] using hamp
        · exact .inr (.inr (.inl (by omega)))
    · rw [if_neg hnext]
      exact .inr (.inl rfl)

/-- The shell goes on, and not to a `waitpid`. -/
theorem Inv.goes {p : Prompt} (h : Inv s) (hw : ∀ pid, s.prompt ≠ .waiting pid)
    (hp : (∀ pid, p ≠ .waiting pid) ∧ p ≠ .waitingAny ∧ ∀ tokens, p ≠ .checked tokens)
    (hr : (∀ tokens, s.prompt ≠ .reaping tokens) ∨ ∃ tokens, p = .reaping tokens) :
    Inv { s with prompt := p } where
  num := h.num
  apart _ := h.apart hw
  waiting pid hpid := absurd hpid (hp.1 pid)
  any hany := absurd hany hp.2.1
  group := h.group
  pos := h.pos
  empty hn h0 := by
    rcases hr with hr | ⟨tokens, hr⟩
    · exact h.empty hr h0
    · exact absurd hr (hn tokens)
  ready tokens hc := absurd hc (hp.2.2 tokens)

/-- A background job is reaped, and counted off. -/
theorem Inv.reap (h : Inv s) (hp : s.prompt = .reaping tokens) (hone : Reaps s.children cs) :
    Inv { s with backNum := s.backNum - 1, children := cs } := by
  have hw : ∀ pid, s.prompt ≠ .waiting pid := by simp [hp]
  have hcount : s.children.countP isJob = cs.countP isJob + 1 := by
    refine hone.countP_lt fun c hc d hr => ?_
    obtain ⟨hz, rfl⟩ := hr
    have hu : Unreaped c := by simp [Unreaped, hz]
    exact ⟨isJob_iff.2 ⟨h.apart hw c hc hu, hu⟩, by simp [isJob]⟩
  have hback : ∀ d ∈ cs, Unreaped d → d ∈ s.children := by
    intro d hd hu
    obtain ⟨c, hc, rfl | ⟨-, rfl⟩⟩ := hone.origin hd
    · exact hc
    · exact absurd rfl hu
  exact
    { num := by
        have := h.num
        show s.backNum - 1 = (cs.countP isJob : Nat)
        omega
      apart := fun _ d hd hu => h.apart hw d (hback d hd hu) hu
      waiting := fun pid hpid => absurd hpid (hw pid)
      any := fun hany => absurd hany (by simp [hp])
      group := fun d hd hjob => h.group d (hback d hd (isJob_iff.1 hjob).2) hjob
      pos := fun _ => h.pos (by omega)
      empty := fun hn _ => absurd hp (hn tokens)
      ready := fun t ht => absurd ht (by simp [hp]) }

/-- The reaping is over: without a job left there is no group of theirs. -/
theorem Inv.check (h : Inv s) (hp : s.prompt = .reaping tokens)
    (hready : ∀ c ∈ s.children, isJob c = true → c.what.called = true) :
    Inv { s with prompt := .checked tokens
                 backPgid := if s.backNum = 0 then -1 else s.backPgid } := by
  have hw : ∀ pid, s.prompt ≠ .waiting pid := by simp [hp]
  have hnum := h.num
  have hpgid : 0 < s.children.countP isJob →
      (if s.backNum = 0 then -1 else s.backPgid) = s.backPgid := fun hpos => if_neg (by omega)
  exact
    { num := hnum
      apart := fun _ => h.apart hw
      waiting := fun pid hpid => by cases hpid
      any := fun hany => by cases hany
      group := by
        intro c hc hjob
        show Joins (if s.backNum = 0 then -1 else s.backPgid) c.what
        rw [hpgid (List.countP_pos_iff.2 ⟨c, hc, hjob⟩)]
        exact h.group c hc hjob
      pos := by
        intro hpos
        show 0 < if s.backNum = 0 then -1 else s.backPgid
        rw [hpgid hpos]
        exact h.pos hpos
      empty := by
        intro _ h0
        have h0 : s.children.countP isJob = 0 := h0
        show (if s.backNum = 0 then -1 else s.backPgid) = -1
        rw [if_pos (by omega)]
      ready := fun _ _ => hready }

/-- The child in the foreground is reaped. -/
theorem Inv.waited {pid : Int} (h : Inv s) (hp : s.prompt = .waiting pid)
    (hone : One (fun c d => c.what.pid = pid ∧ Moves .zombie .reaped c d) s.children cs) :
    Inv { s with prompt := .reading, children := cs } := by
  obtain ⟨c, bs, hch, hpid, hbg, hbs⟩ := h.waiting pid hp
  rw [hch] at hone
  obtain ⟨d, ⟨-, hz, rfl⟩, rfl⟩ := hone.young fun b hb d ⟨hbpid, hz, _⟩ =>
    (hbs b hb (by simp [Unreaped, hz])).2 hbpid
  have hcount : List.countP isJob ({ c with status := .reaped } :: bs)
      = s.children.countP isJob := by
    simp [hch, isJob, hbg]
  have hback : ∀ b ∈ ({ c with status := .reaped } :: bs : List (Child Job)), Unreaped b →
      b ∈ bs := by
    intro b hb hu
    rcases List.mem_cons.1 hb with rfl | hb
    · exact absurd rfl hu
    · exact hb
  exact
    { num := by
        show s.backNum = (List.countP isJob ({ c with status := .reaped } :: bs) : Nat)
        rw [hcount]
        exact h.num
      apart := fun _ b hb hu => (hbs b (hback b hb hu) hu).1
      waiting := fun q hq => by cases hq
      any := fun hany => by cases hany
      group := by
        intro b hb hjob
        have := hback b hb (isJob_iff.1 hjob).2
        exact h.group b (hch ▸ List.mem_cons_of_mem _ this) hjob
      pos := fun hpos => h.pos (hcount ▸ hpos)
      empty := fun _ h0 => h.empty (by simp [hp]) (hcount ▸ h0)
      ready := fun t ht => by cases ht }

/-- A command starts in the foreground. -/
theorem Inv.foreground {pid : Int} (h : Inv s) (hp : s.prompt = .checked tokens)
    (hfresh : ∀ c ∈ s.children, Unreaped c → c.what.pid ≠ pid) (hpid : c.what.pid = pid)
    (hbg : c.what.background = false) :
    Inv { s with prompt := .waiting pid, children := c :: s.children } := by
  have hw : ∀ pid, s.prompt ≠ .waiting pid := by simp [hp]
  have hcount : (c :: s.children).countP isJob = s.children.countP isJob := by simp [isJob, hbg]
  have hold : ∀ b ∈ c :: s.children, isJob b = true → b ∈ s.children := by
    intro b hb hjob
    rcases List.mem_cons.1 hb with rfl | hb
    · rw [(isJob_iff.1 hjob).1] at hbg
      cases hbg
    · exact hb
  exact
    { num := by
        show s.backNum = ((c :: s.children).countP isJob : Nat)
        rw [hcount]
        exact h.num
      apart := fun hne => absurd rfl (hne pid)
      waiting := by
        intro q hq
        obtain rfl : pid = q := by simpa using hq
        exact ⟨c, s.children, rfl, hpid, hbg, fun b hb hu => ⟨h.apart hw b hb hu, hfresh b hb hu⟩⟩
      any := fun hany => by cases hany
      group := fun b hb hjob => h.group b (hold b hb hjob) hjob
      pos := fun hpos => h.pos (hcount ▸ hpos)
      empty := fun _ h0 => h.empty (by simp [hp]) (hcount ▸ h0)
      ready := fun t ht => by cases ht }

/-- A background job starts: it is counted, and has the group of the others or a new one. -/
theorem Inv.starts {pid : Int} (h : Inv s) (hp : s.prompt = .checked tokens) (hpid : 0 < pid)
    (hc : c.what.pid = pid ∧ c.what.background = true ∧ c.what.called = false ∧
      c.what.want = if s.backNum = 0 then 0 else s.backPgid) (hu : Unreaped c) :
    Inv { s with prompt := .reading, backNum := s.backNum + 1
                 backPgid := if s.backNum = 0 then pid else s.backPgid
                 children := c :: s.children } := by
  have hw : ∀ pid, s.prompt ≠ .waiting pid := by simp [hp]
  have hjob : isJob c = true := isJob_iff.2 ⟨hc.2.1, hu⟩
  have hcount : (c :: s.children).countP isJob = s.children.countP isJob + 1 := by simp [hjob]
  have hnum := h.num
  have hold : 0 < s.children.countP isJob →
      (if s.backNum = 0 then pid else s.backPgid) = s.backPgid := fun hpos => if_neg (by omega)
  exact
    { num := by
        show s.backNum + 1 = ((c :: s.children).countP isJob : Nat)
        omega
      apart := by
        intro _ b hb hub
        rcases List.mem_cons.1 hb with rfl | hb
        · exact hc.2.1
        · exact h.apart hw b hb hub
      waiting := fun q hq => by cases hq
      any := fun hany => by cases hany
      group := by
        intro b hb hjb
        show Joins (if s.backNum = 0 then pid else s.backPgid) b.what
        rcases List.mem_cons.1 hb with rfl | hb
        · refine ⟨fun hcall => absurd hcall (by simp [hc.2.2.1]), fun _ => ?_⟩
          rw [hc.2.2.2, hc.1]
          by_cases h0 : s.backNum = 0
          · simp [h0]
          · simp [h0]
        · rw [hold (List.countP_pos_iff.2 ⟨b, hb, hjb⟩)]
          exact h.group b hb hjb
      pos := by
        intro _
        show 0 < if s.backNum = 0 then pid else s.backPgid
        split
        · exact hpid
        · exact h.pos (by omega)
      empty := fun _ h0 => absurd h0 (by simp [hcount])
      ready := fun t ht => by cases ht }

/-- The line is run. -/
theorem Inv.run {pid : Option Int} (h : Inv s) (hp : s.prompt = .checked tokens)
    (hfresh : ∀ p, pid = some p → 0 < p ∧ ∀ c ∈ s.children, Unreaped c → c.what.pid ≠ p)
    (hok : Orderly s (.run pid)) : Inv (s.run tokens pid) := by
  have hgoes : Inv { s with prompt := .reading } :=
    h.goes (by simp [hp]) ⟨by simp, by simp, by simp⟩ (.inl (by simp [hp]))
  unfold Shell.run
  by_cases hf : forks tokens = true
  · rw [if_pos hf]
    have hok := hok tokens hp hf
    have hne2 : background tokens ≠ -2 := by
      intro h2
      simp [forks, h2] at hf
    cases pid with
    | none =>
      rcases hok with ⟨hbg, h0⟩ | ⟨rfl, hne⟩
      · -- the shell waits for any child, and there is none
        have hcount : s.children.countP isJob = 0 := by
          have := h.num
          omega
        have hrun :
            (if 0 < background tokens then { s with backNum := s.backNum + 1 } else s) = s :=
          if_neg (by omega)
        rw [hrun]
        simp only [Shell.parent, hbg, if_true]
        exact
          { num := h.num
            apart := fun _ => h.apart (by simp [hp])
            waiting := fun q hq => by cases hq
            any := fun _ => hcount
            group := h.group
            pos := h.pos
            empty := fun _ => h.empty (by simp [hp])
            ready := fun t ht => by cases ht }
      · have hrun : (if 0 < background ["&"] then { s with backNum := s.backNum + 1 } else s) = s :=
          if_neg (by decide)
        rw [hrun]
        have hbg : background ["&"] ≠ -1 := by decide
        simp only [Shell.parent, if_neg hbg, if_neg hne]
        exact hgoes
    | some pid =>
      obtain ⟨hpos, hfresh⟩ := hfresh pid rfl
      obtain hbg | hbg | hbg | ⟨-, hbg⟩ := background_cases tokens
      · have hrun :
            (if 0 < background tokens then { s with backNum := s.backNum + 1 } else s) = s :=
          if_neg (by omega)
        have hne : pid ≠ -1 := by omega
        rw [hrun]
        simp only [Shell.parent, hbg, if_true, if_neg hne]
        exact h.foreground hp hfresh rfl (by simp [hbg])
      · exact absurd hbg hne2
      · have hne : background tokens ≠ -1 := by omega
        simp only [if_pos hbg, Shell.parent, if_neg hne]
        have hone : s.backNum + 1 = 1 ↔ s.backNum = 0 := by omega
        have hstart := h.starts hp hpos
          (c := ⟨⟨pid, tokens.take (background tokens).toNat, true,
            if s.backNum = 0 then 0 else s.backPgid, false, none⟩, .running⟩)
          ⟨rfl, rfl, rfl, rfl⟩ (by simp [Unreaped])
        by_cases h0 : s.backNum = 0
        · simpa [Shell.fork, hbg, hne, h0] using hstart
        · simpa [Shell.fork, hbg, hne, h0, hone] using hstart
      · exact absurd hbg hok
  · rw [if_neg hf]
    exact hgoes

/-- Every orderly step keeps the invariant. -/
theorem Inv.step (h : Inv s) (hok : Orderly s e) (hs : Session s e s') : Inv s' := by
  cases hs with
  | exit hp => exact h.goes (by simp [hp]) ⟨by simp, by simp, by simp⟩ (.inl (by simp [hp]))
  | read hp => exact h.goes (by simp [hp]) ⟨by simp, by simp, by simp⟩ (.inr ⟨_, rfl⟩)
  | reap hp hone => exact h.reap hp hone
  | check hp => exact h.check hp hok
  | run hp hfresh => exact h.run hp hfresh hok
  | waited hp hone => exact h.waited hp hone
  | @waitedAny cs hp hw =>
    have hall := h.reaped (by simp [hp]) (h.any hp)
    obtain rfl : cs = s.children := by
      rcases hw with hw | ⟨-, rfl⟩
      · exact absurd hw (not_one fun c hc d hr => by simp [Moves, hall c hc] at hr)
      · rfl
    exact h.goes (by simp [hp]) ⟨by simp, by simp, by simp⟩ (.inl (by simp [hp]))
  | ends hone => exact h.ends hone
  | setpgid hone => exact h.setpgid hok hone

end Steps

theorem Inv.start : Inv ⟨.reading, 0, -1, []⟩ where
  num := rfl
  apart _ c hc := by cases hc
  waiting pid hp := by cases hp
  any hp := by cases hp
  group c hc := by cases hc
  pos h0 := by simp at h0
  empty _ _ := rfl
  ready tokens hp := by cases hp

theorem Inv.accounts {s : Shell} {tokens : List String} (h : Inv s)
    (hp : s.prompt = .checked tokens) : Accounts s := by
  have hnum := h.num
  refine ⟨hnum, by omega, ⟨fun hm => ?_, fun h0 => ?_⟩, fun c hc hjob => ?_⟩
  · by_contra hne
    have := h.pos (by omega)
    omega
  · exact h.empty (by simp [hp]) (by omega)
  · exact (h.group c hc hjob).called (h.ready tokens hp c hc hjob)

/-- **The accounts are right** whenever the shell has reaped, in every orderly session. -/
theorem accounts_of_orderly {s : Shell} (hr : (soln.guard Orderly).Reach s)
    {tokens : List String} (hp : s.prompt = .checked tokens) : Accounts s := by
  refine Inv.accounts (Lts.Reach.invariant (I := Inv) ?_ ?_ hr) hp
  · rintro s rfl
    exact Inv.start
  · exact fun s e s' h ⟨hok, hs⟩ => h.step hok hs

/-- One background job, and an empty line after it. -/
theorem accounts_of_orderly_sleep : ∃ s, (soln.guard Orderly).Reach s ∧ s.backNum = 1 ∧
    Accounts s := by
  have hfresh : ∀ p, some 7 = some p → 0 < p ∧
      ∀ c ∈ ([] : List (Child Job)), Unreaped c → c.what.pid ≠ p := by
    intro p hp
    obtain rfl : 7 = p := by simpa using hp
    exact ⟨by decide, fun c hc => by cases hc⟩
  have h0 : (soln.guard Orderly).Reach ⟨.reading, 0, -1, []⟩ := .start rfl
  have h1 := h0.guarded (@Session.read _ ["sleep", "&"] rfl (by decide)) trivial
  have h2 := h1.guarded (Session.check rfl fun c hc => by cases hc) fun c hc => by cases hc
  have h3 := h2.guarded (@Session.run _ ["sleep", "&"] (some 7) rfl hfresh) (by
    rintro tokens ⟨⟩ -
    decide)
  have h4 := h3.guarded (@Session.setpgid _ ⟨7, ["sleep"], true, 0, false, none⟩ False _
    (.here ⟨rfl, rfl, .own rfl rfl rfl⟩)) (.inl rfl)
  have h5 := h4.guarded (@Session.read _ [] rfl (by decide)) trivial
  have h6 := h5.guarded (Session.check rfl fun c hc => by
    obtain rfl := List.mem_singleton.1 hc
    decide) fun c hc _ => by
      obtain rfl := List.mem_singleton.1 hc
      rfl
  exact ⟨_, h6, rfl, accounts_of_orderly h6 rfl⟩

/-- A line that is just `&` makes the count negative. -/
theorem not_accounts_ampersand : ¬∀ s tokens, soln.Reach s → s.prompt = .checked tokens →
    Accounts s := by
  intro hall
  have hfresh : ∀ p, some 7 = some p → 0 < p ∧
      ∀ c ∈ ([] : List (Child Job)), Unreaped c → c.what.pid ≠ p := by
    intro p hp
    obtain rfl : 7 = p := by simpa using hp
    exact ⟨by decide, fun c hc => by cases hc⟩
  have h0 : soln.Reach ⟨.reading, 0, -1, []⟩ := .start rfl
  have h1 := h0.step (@Session.read _ ["&"] rfl (by decide))
  have h2 := h1.step (Session.check rfl fun c hc => by cases hc)
  have h3 := h2.step (@Session.run _ ["&"] (some 7) rfl hfresh)
  have h4 := h3.step (Session.ends (.here ⟨rfl, rfl⟩))
  have h5 := h4.step (@Session.read _ [] rfl (by decide))
  have h6 := h5.step (Session.reap rfl (.here ⟨rfl, rfl⟩))
  have h7 := h6.step (Session.check rfl fun c hc => by
    obtain rfl := List.mem_singleton.1 hc
    decide)
  exact absurd (hall _ [] h7 rfl).nonneg (by decide)

end OsCodes.Jobs
