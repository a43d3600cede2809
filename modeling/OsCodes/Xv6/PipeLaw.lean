/-
  What holds of a pipe in every run: who may still use it, and when its page is freed.

  `Ends` follows the two ends from an open file to the `pipeclose` of the last reference, and says
  that the page is freed when both are closed, no sooner and not twice.  What goes through the
  pipe and who sleeps at it is in `PipeRun`.

  1. `copyIn_spec` and `copyOut_spec` are the two loops, in terms of the queue that the buffer
     stands for;
  2. `pipewrite_cases` and `piperead_cases` list how a stretch can end, and `Move` what a step can
     be; the later proofs split by these and unfold nothing;
  3. `Life` follows one end: open, then closed by its last user but not yet by `pipeclose`, then
     closed.  `Ends` has it for both ends, with the descriptors counted;
  4. `pipe_freed_once`: the page is freed at most once, and it has been freed exactly when no
     process has anything to do with the pipe any more; and no `panic` of file.c is met.
-/
import OsCodes.Xv6.Pipe
import Mathlib.Data.List.DropRight

namespace OsCodes.Pipes

open Monitor

/-! ## The loops -/

namespace Pipe

variable {p : Pipe}

theorem copyIn_full (h : p.isFull = true) (bs : List UInt8) : p.copyIn bs = (p, bs) := by
  cases bs with
  | nil => rfl
  | cons b bs => rw [copyIn, if_pos h]

theorem copyIn_isOpen (bs : List UInt8) : ∀ p : Pipe, (p.copyIn bs).1.isOpen = p.isOpen := by
  induction bs with
  | nil => exact fun _ => rfl
  | cons b bs ih =>
    intro p
    rw [copyIn]
    split
    · rfl
    · rw [ih]
      rfl

/-- `pipewrite` stops at a full pipe. -/
theorem copyIn_stop (bs : List UInt8) : ∀ p : Pipe, (p.copyIn bs).2 ≠ [] →
    (p.copyIn bs).1.isFull = true := by
  induction bs with
  | nil => exact fun _ h => absurd rfl h
  | cons b bs ih =>
    intro p
    rw [copyIn]
    split
    · rename_i hfull
      exact fun _ => hfull
    · exact ih _

/-- **What `pipewrite` stores** goes to the end of the queue. -/
theorem copyIn_spec (bs : List UInt8) : ∀ p : Pipe, p.Fits →
    ∃ stored, bs = stored ++ (p.copyIn bs).2 ∧
      (p.copyIn bs).1.contents = p.contents ++ stored ∧ (p.copyIn bs).1.Fits := by
  induction bs with
  | nil => exact fun p hfits => ⟨[], rfl, (List.append_nil _).symm, hfits⟩
  | cons b bs ih =>
    intro p hfits
    rw [copyIn]
    split
    · exact ⟨[], rfl, (List.append_nil _).symm, hfits⟩
    · rename_i hfull
      have hfull : p.isFull = false := Bool.eq_false_of_not_eq_true hfull
      have hlt : PIPESIZE < 2 ^ 32 := by decide
      have hdvd : PIPESIZE ∣ 2 ^ 32 := ⟨2 ^ 23, by decide⟩
      obtain ⟨stored, hbs, hcontents, hfits'⟩ :=
        ih { p with toRingBuffer := p.put b } (RingBuffer.put_fits hlt hfits hfull b)
      refine ⟨b :: stored, congrArg (b :: ·) hbs, ?_, hfits'⟩
      rw [hcontents]
      show (p.put b).contents ++ stored = _
      rw [RingBuffer.contents_put hlt hdvd hfits hfull, List.append_assoc, List.singleton_append]

theorem copyOut_isOpen (n : Nat) : ∀ p : Pipe, (p.copyOut n).1.isOpen = p.isOpen := by
  induction n with
  | zero => exact fun _ => rfl
  | succ n ih =>
    intro p
    rw [copyOut]
    split
    · rfl
    · show (copyOut _ n).1.isOpen = _
      rw [ih]
      rfl

theorem copyOut_empty (h : p.isEmpty = true) (n : Nat) : p.copyOut n = (p, []) := by
  cases n with
  | zero => rfl
  | succ n => rw [copyOut, if_pos h]

/-- **What `piperead` takes** is the front of the queue, as much as was asked for and is there. -/
theorem copyOut_spec (n : Nat) : ∀ p : Pipe, p.Fits →
    p.contents = (p.copyOut n).2 ++ (p.copyOut n).1.contents ∧ (p.copyOut n).1.Fits ∧
      (p.copyOut n).2.length = min n p.contents.length := by
  induction n with
  | zero => exact fun p hfits => ⟨rfl, hfits, (Nat.zero_min _).symm⟩
  | succ n ih =>
    intro p hfits
    rw [copyOut]
    split
    · rename_i hempty
      have hnil := RingBuffer.contents_eq_nil_iff.mpr hempty
      exact ⟨rfl, hfits, by rw [hnil]; rfl⟩
    · rename_i hempty
      have hempty : p.isEmpty = false := Bool.eq_false_of_not_eq_true hempty
      obtain ⟨hcontents, hfits', hlength⟩ :=
        ih { p with toRingBuffer := p.next } (RingBuffer.next_fits hfits hempty)
      have hfront := RingBuffer.contents_next hempty
      refine ⟨?_, hfits', ?_⟩
      · rw [hfront]
        exact congrArg (p.front :: ·) hcontents
      · rw [hfront, List.length_cons, List.length_cons, hlength]
        exact (Nat.succ_min_succ _ _).symm

end Pipe

/-! ## The stretches -/

section Code

variable {τ : Type}

/-- **What `pipewrite` does.** -/
theorem pipewrite_cases (n : Nat) (rest : List UInt8) (s : Shared τ) (t : τ) :
    (s.pipe.copyIn rest).2 = [] ∧ pipewrite n rest t s =
      ⟨{ s with pipe := (s.pipe.copyIn rest).1 }, [.broadcast .nread],
        .leave (.idle (.wrote n))⟩ ∨
    (s.pipe.copyIn rest).2 ≠ [] ∧ (s.pipe.readopen = false ∨ s.killed t = true) ∧
      pipewrite n rest t s =
        ⟨{ s with pipe := (s.pipe.copyIn rest).1 }, [], .leave (.idle .failed)⟩ ∨
    (s.pipe.copyIn rest).2 ≠ [] ∧ (s.pipe.readopen = true ∧ s.killed t = false) ∧
      pipewrite n rest t s =
        ⟨{ s with pipe := (s.pipe.copyIn rest).1 }, [.broadcast .nread],
          .wait .nwrite (.write n (s.pipe.copyIn rest).2)⟩ := by
  have hread : (s.pipe.copyIn rest).1.readopen = s.pipe.readopen :=
    congrFun (Pipe.copyIn_isOpen rest s.pipe) false
  rw [pipewrite]
  generalize s.pipe.copyIn rest = r at hread ⊢
  obtain ⟨p, left⟩ := r
  cases left with
  | nil => exact .inl ⟨rfl, rfl⟩
  | cons b bs =>
    refine .inr ?_
    by_cases hstop : p.readopen = false ∨ s.killed t = true
    · exact .inl ⟨List.cons_ne_nil _ _, hread ▸ hstop, if_pos hstop⟩
    · refine .inr ⟨List.cons_ne_nil _ _, ⟨?_, ?_⟩, if_neg hstop⟩
      · rw [← hread]
        exact Bool.eq_true_of_not_eq_false fun h => hstop (.inl h)
      · exact Bool.eq_false_of_not_eq_true fun h => hstop (.inr h)

/-- **What `piperead` does.** -/
theorem piperead_cases (n : Nat) (s : Shared τ) (t : τ) :
    s.pipe.isEmpty = true ∧ s.pipe.writeopen = true ∧
      (s.killed t = true ∧ piperead n t s = ⟨s, [], .leave (.idle .failed)⟩ ∨
        piperead n t s = ⟨s, [], .wait .nread (.read n)⟩) ∨
    (s.pipe.isEmpty = false ∨ s.pipe.writeopen = false) ∧ piperead n t s =
      ⟨{ s with pipe := (s.pipe.copyOut n).1 }, [.broadcast .nwrite],
        .leave (.idle (.read n (s.pipe.copyOut n).2))⟩ := by
  rw [piperead]
  by_cases hwait : s.pipe.isEmpty = true ∧ s.pipe.writeopen = true
  · refine .inl ⟨hwait.1, hwait.2, ?_⟩
    rw [if_pos hwait]
    by_cases hk : s.killed t = true
    · exact .inl ⟨hk, if_pos hk⟩
    · exact .inr (if_neg hk)
  · refine .inr ⟨?_, if_neg hwait⟩
    rcases Classical.not_and_iff_not_or_not.mp hwait with h | h
    · exact .inl (Bool.eq_false_of_not_eq_true h)
    · exact .inr (Bool.eq_false_of_not_eq_true h)

/-! ## The steps -/

variable [DecidableEq τ]

/-- The end that a process is inside a call on. -/
def inside : Status Client Channel Wait → Bool → Prop
  | .blocked _ (.write _ _), w | .woken (.write _ _), w => w = true
  | .blocked _ (.read _), w | .woken (.read _), w => w = false
  | .out _, _ => False

/-- The end that a process has yet to call `pipeclose` for. -/
def closes : Status Client Channel Wait → Bool → Prop
  | .out (.closing w), w' => w = w'
  | _, _ => False

theorem closes_iff {st : Status Client Channel Wait} {w : Bool} :
    closes st w ↔ st = .out (.closing w) := by
  constructor
  · intro hc
    cases st with
    | out a =>
      cases a with
      | idle ret => exact absurd hc id
      | closing w' => exact congrArg (fun w => Status.out (Client.closing w)) hc
    | blocked c p => exact absurd hc id
    | woken p => exact absurd hc id
  · rintro rfl
    rfl

/-- `t` starts the call `f`, or goes on at `p` with it. -/
def Goes (s : St τ) (e : Event τ (Call τ)) (t : τ) (f : Call τ) (p : Wait) : Prop :=
  e = .enter t f ∧ (∃ ret, s.status t = .out (.idle ret)) ∨ e = .resume t ∧ s.status t = .woken p

omit [DecidableEq τ] in
theorem Goes.clear {s : St τ} {e : Event τ (Call τ)} {t : τ} {f : Call τ} {p : Wait}
    (h : Goes s e t f p) (w : Bool) : ¬ closes (s.status t) w := by
  rcases h with ⟨-, ret, ht⟩ | ⟨-, ht⟩
  · rw [ht]
    exact id
  · rw [ht]
    exact id

/-- What a step can be. -/
inductive Move (kills : Bool) (s s' : St τ) (e : Event τ (Call τ)) : Prop
  | write (t : τ) (n : Nat) (rest : List UInt8) :
      Goes s e t (.filewrite true rest) (.write n rest) → (∀ u f, e = .enter u f → n = rest.length) →
      0 < s.shared.fds true t → Runs .some t (pipewrite n rest t s.shared) s s' →
      Move kills s s' e
  | read (t : τ) (n : Nat) : Goes s e t (.fileread false n) (.read n) →
      0 < s.shared.fds false t → Runs .some t (piperead n t s.shared) s s' → Move kills s s' e
  | refuse (t : τ) (f : Call τ) : e = .enter t f →
      (∃ n, f = .fileread true n) ∨ (∃ bytes, f = .filewrite false bytes) →
      (∃ ret, s.status t = .out (.idle ret)) →
      Runs .some t ⟨s.shared, [], .leave (.idle .failed)⟩ s s' → Move kills s s' e
  | dup (t u : τ) (w : Bool) : e = .enter t (.filedup u w) →
      (∃ ret, s.status t = .out (.idle ret)) → 0 < s.shared.fds w t →
      Runs .some t (filedup u w s.shared) s s' → Move kills s s' e
  | close (t : τ) (w : Bool) : e = .enter t (.fileclose w) →
      (∃ ret, s.status t = .out (.idle ret)) → 0 < s.shared.fds w t →
      Runs .some t (fileclose w t s.shared) s s' → Move kills s s' e
  | pipeclose (t : τ) (w : Bool) : e = .enter t (.pipeclose w) →
      s.status t = .out (.closing w) → Runs .some t (pipeclose w s.shared) s s' → Move kills s s' e
  | kill (t u : τ) : e = .enter t (.kill u) → kills = true →
      (∃ ret, s.status t = .out (.idle ret)) → Runs .some t (kill u s.shared) s s' →
      Move kills s s' e
  | stir (t : τ) : e = .spurious t → s'.shared = s.shared → Stirred s.status s'.status →
      Move kills s s' e

/-- **A step** is a move. -/
theorem step_cases {kills : Bool} {t₀ : τ} {s s' : St τ} {e : Event τ (Call τ)}
    (huse : ∀ t w, inside (s.status t) w → 0 < s.shared.fds w t)
    (hst : (system kills t₀).step s e s') : Move kills s s' e := by
  obtain ⟨hok, hstep⟩ := hst
  cases e with
  | enter t f =>
    obtain ⟨a, ha, hmay, hrun⟩ := hstep
    cases f with
    | fileread w n =>
      obtain ⟨ret, rfl⟩ := hmay
      cases w with
      | true => exact .refuse t _ rfl (.inl ⟨n, rfl⟩) ⟨ret, ha⟩ hrun
      | false => exact .read t n (.inl ⟨rfl, ret, ha⟩) hok hrun
    | filewrite w bytes =>
      obtain ⟨ret, rfl⟩ := hmay
      cases w with
      | true => exact .write t bytes.length bytes (.inl ⟨rfl, ret, ha⟩) (fun _ _ _ => rfl) hok hrun
      | false => exact .refuse t _ rfl (.inr ⟨bytes, rfl⟩) ⟨ret, ha⟩ hrun
    | filedup u w =>
      obtain ⟨ret, rfl⟩ := hmay
      exact .dup t u w rfl ⟨ret, ha⟩ hok.1 hrun
    | fileclose w =>
      obtain ⟨ret, rfl⟩ := hmay
      exact .close t w rfl ⟨ret, ha⟩ hok hrun
    | pipeclose w =>
      obtain rfl : a = .closing w := hmay
      exact .pipeclose t w rfl ha hrun
    | kill u =>
      obtain ⟨ret, rfl⟩ := hmay
      exact .kill t u rfl hok ⟨ret, ha⟩ hrun
  | resume t =>
    obtain ⟨p, hp, hrun⟩ := hstep
    cases p with
    | write n rest =>
      exact .write t n rest (.inr ⟨rfl, hp⟩) (fun _ _ he => by cases he)
        (huse t true (by rw [hp]; rfl)) hrun
    | read n => exact .read t n (.inr ⟨rfl, hp⟩) (huse t false (by rw [hp]; rfl)) hrun
  | spurious t =>
    obtain ⟨c, p, hb, rfl⟩ := hstep
    exact .stir t rfl rfl (stirred_spurious hb)

/-! ## The ends -/

/-- **The life of an end** with `ref` references, where `C` says who has yet to call `pipeclose`:
    open, then with its last close under way, then closed. -/
inductive Life (ref : Nat) (isOpen : Bool) (C : τ → Prop) : Prop
  | live : 0 < ref → isOpen = true → (∀ t, ¬ C t) → Life ref isOpen C
  | closing (t : τ) : ref = 0 → isOpen = true → (∀ u, C u ↔ u = t) → Life ref isOpen C
  | closed : ref = 0 → isOpen = false → (∀ t, ¬ C t) → Life ref isOpen C

/-- The references are counted, who is inside a call has one, and the page is freed when both ends
    are closed. -/
structure Ends [Fintype τ] (s : St τ) : Prop where
  calm : s.shared.panicked = false
  ref : ∀ w, s.shared.ref w = total id (s.shared.fds w)
  uses : ∀ t w, inside (s.status t) w → 0 < s.shared.fds w t
  life : ∀ w, Life (s.shared.ref w) (s.shared.pipe.isOpen w) fun t => closes (s.status t) w
  freed : s.shared.freed = if s.shared.pipe.readopen || s.shared.pipe.writeopen then 0 else 1

omit [DecidableEq τ] in
/-- A process that is woken is inside the same call. -/
theorem view_woken {st st' : Status Client Channel Wait}
    (h : st' = st ∨ ∃ c p, st = .blocked c p ∧ st' = .woken p) :
    inside st' = inside st ∧ closes st' = closes st := by
  rcases h with rfl | ⟨c, p, rfl, rfl⟩
  · exact ⟨rfl, rfl⟩
  · cases p with
    | write n rest => exact ⟨rfl, rfl⟩
    | read n => exact ⟨rfl, rfl⟩

/-- An idle process is in no call and closes nothing. -/
theorem idle_clear {st : Status Client Channel Wait} (h : ∃ ret, st = .out (.idle ret)) (w : Bool) :
    ¬ inside st w ∧ ¬ closes st w := by
  obtain ⟨ret, rfl⟩ := h
  exact ⟨id, id⟩

/-- A process that had nothing to close, and has not now. -/
theorem closes_update {s : St τ} {t : τ} {st : Status Client Channel Wait} {w : Bool}
    (ht : ¬ closes (s.status t) w) (hst : ¬ closes st w) :
    Function.update (fun u => closes (s.status u) w) t (closes st w) =
      fun u => closes (s.status u) w := by
  have hsame : closes st w = closes (s.status t) w :=
    propext ⟨fun h => absurd h hst, fun h => absurd h ht⟩
  rw [hsame]
  exact Function.update_eq_self t _

namespace Life

variable {ref : Nat} {isOpen : Bool} {C : τ → Prop}

omit [DecidableEq τ] in
theorem isOpen_of_pos (h : Life ref isOpen C) (hpos : 0 < ref) :
    isOpen = true ∧ ∀ t, ¬ C t := by
  cases h with
  | live _ ho hc => exact ⟨ho, hc⟩
  | closing _ hr => omega
  | closed hr => omega

/-- One of several references is given up, or the last one. -/
theorem drop (h : Life ref isOpen C) (hpos : 0 < ref) (t : τ) :
    Life (ref - 1) isOpen (Function.update C t (ref - 1 = 0)) := by
  obtain ⟨ho, hc⟩ := h.isOpen_of_pos hpos
  by_cases hlast : ref - 1 = 0
  · refine .closing t hlast ho fun u => ?_
    by_cases hu : u = t
    · rw [hu, Function.update_self]
      exact ⟨fun _ => rfl, fun _ => hlast⟩
    · rw [Function.update_of_ne hu]
      exact ⟨fun h => absurd h (hc u), fun h => absurd h hu⟩
  · refine .live (by omega) ho fun u hu => ?_
    rcases update_eq_cases (y := True) (propext ⟨fun _ => trivial, fun _ => hu⟩) with
      ⟨-, hx⟩ | ⟨-, hx⟩
    · exact hlast (of_eq_true hx)
    · exact hc u (of_eq_true hx)

/-- The close is over. -/
theorem close (h : Life ref isOpen C) {t : τ} (ht : C t) :
    Life ref false (Function.update C t False) := by
  cases h with
  | live _ _ hc => exact absurd ht (hc t)
  | closed _ _ hc => exact absurd ht (hc t)
  | closing v hr _ hc =>
    obtain rfl := (hc t).mp ht
    refine .closed hr rfl fun u hu => ?_
    by_cases hut : u = t
    · rw [hut, Function.update_self] at hu
      exact hu
    · rw [Function.update_of_ne hut] at hu
      exact hut ((hc u).mp hu)

end Life

namespace Ends

variable [Fintype τ] {s s' : St τ} {t : τ}

omit [DecidableEq τ] in
theorem ref_pos (h : Ends s) {w : Bool} (ht : 0 < s.shared.fds w t) : 0 < s.shared.ref w := by
  rw [h.ref]
  exact Nat.lt_of_lt_of_le ht (le_total (F := id) t)

omit [DecidableEq τ] in
/-- A process that waits holds its end open. -/
theorem isOpen_of_inside (h : Ends s) {w : Bool} (ht : inside (s.status t) w) :
    s.shared.pipe.isOpen w = true :=
  ((h.life w).isOpen_of_pos (h.ref_pos (h.uses t w ht))).1

theorem initial {t₀ : τ} (h : made t₀ s) : Ends s := by
  obtain ⟨⟨data, hs⟩, hout⟩ := h
  have hclear := fun u w => idle_clear ⟨.none, hout u⟩ w
  refine ⟨by rw [hs]; rfl, fun w => ?_, fun u w hu => absurd hu (hclear u w).1, fun w => ?_,
    by rw [hs]; rfl⟩
  · rw [hs]
    have hmove := total_update id (fun _ : τ => 0) t₀ 1
    have hzero : total id (fun _ : τ => 0) = 0 := total_eq_zero.mpr fun _ => rfl
    rw [hzero] at hmove
    exact hmove.symm
  · rw [hs]
    refine .live Nat.one_pos ?_ fun u => (hclear u w).2
    cases w with
    | true => rfl
    | false => rfl

/-- **One stretch.**  What it does to its own process and to the two ends is all there is to see. -/
theorem run (h : Ends s) {x : Body τ} (hrun : Runs .some t x s s')
    (hcalm : x.shared.panicked = false) (href : ∀ w, x.shared.ref w = total id (x.shared.fds w))
    (hfds : ∀ w u, u ≠ t → s.shared.fds w u ≤ x.shared.fds w u)
    (huse : ∀ w, inside x.next.status w → 0 < x.shared.fds w t)
    (hlife : ∀ w, Life (x.shared.ref w) (x.shared.pipe.isOpen w)
      (Function.update (fun u => closes (s.status u) w) t (closes x.next.status w)))
    (hfreed : x.shared.freed = if x.shared.pipe.readopen || x.shared.pipe.writeopen then 0 else 1) :
    Ends s' := by
  have hview : ∀ w, (fun u => closes (s'.status u) w) =
      Function.update (fun u => closes (s.status u) w) t (closes x.next.status w) := fun w =>
    hrun.view (V := fun st => closes st w) fun c p => rfl
  have hshared := hrun.shared
  refine ⟨by rw [hshared]; exact hcalm, by rw [hshared]; exact href, fun u w hu => ?_,
    fun w => ?_, by rw [hshared]; exact hfreed⟩
  · rw [hshared]
    by_cases hut : u = t
    · rw [hut, hrun.self] at hu
      rw [hut]
      exact huse w hu
    · rw [(view_woken (hrun.other hut)).1] at hu
      exact Nat.lt_of_lt_of_le (h.uses u w hu) (hfds w u hut)
  · rw [hview, hshared]
    exact hlife w

/-- A stretch that leaves the ends alone. -/
theorem quiet (h : Ends s) {x : Body τ} (hrun : Runs .some t x s s')
    (ht : ∀ w, ¬ closes (s.status t) w) (hnext : ∀ w, ¬ closes x.next.status w)
    (huse : ∀ w, inside x.next.status w → 0 < s.shared.fds w t)
    (hcalm : x.shared.panicked = s.shared.panicked) (href : x.shared.ref = s.shared.ref)
    (hfds : x.shared.fds = s.shared.fds) (hfreed : x.shared.freed = s.shared.freed)
    (hopen : x.shared.pipe.isOpen = s.shared.pipe.isOpen) : Ends s' := by
  refine h.run hrun (hcalm.trans h.calm) (by rw [href, hfds]; exact h.ref)
    (fun w u _ => by rw [hfds]) (by rw [hfds]; exact huse) (fun w => ?_) ?_
  · rw [closes_update (ht w) (hnext w), href, hopen]
    exact h.life w
  · have hread : x.shared.pipe.readopen = s.shared.pipe.readopen := congrFun hopen false
    have hwrite : x.shared.pipe.writeopen = s.shared.pipe.writeopen := congrFun hopen true
    rw [hfreed, hread, hwrite]
    exact h.freed

omit [DecidableEq τ] in
theorem stirred (h : Ends s) (hs : s'.shared = s.shared) (hst : Stirred s.status s'.status) :
    Ends s' := by
  have hsame := fun u => view_woken (hst u)
  obtain ⟨hcalm, href, huses, hlife, hfreed⟩ := h
  rw [← hs] at hcalm href huses hlife hfreed
  refine ⟨hcalm, href, fun u w hu => huses u w ?_, ?_, hfreed⟩
  · rw [← (hsame u).1]
    exact hu
  · simp only [(hsame _).2]
    exact hlife

/-- **`filedup`** never panics, and refers to an open file once more. -/
theorem filedup (h : Ends s) {u : τ} {w : Bool} (hidle : ∃ ret, s.status t = .out (.idle ret))
    (ht : 0 < s.shared.fds w t) (hrun : Runs .some t (filedup u w s.shared) s s') : Ends s' := by
  have hpos := h.ref_pos ht
  rw [Pipes.filedup, if_neg (by omega)] at hrun
  refine h.run hrun h.calm (fun w' => ?_) (fun w' v _ => ?_) (fun _ hu => absurd hu id)
    (fun w' => ?_) h.freed
  · by_cases hw : w' = w
    · have hmove := total_update id (s.shared.fds w) u (s.shared.fds w u + 1)
      have hsum := h.ref w
      simp only [hw, Function.update_self, id] at hmove ⊢
      omega
    · simp only [Function.update_of_ne hw]
      exact h.ref w'
  · by_cases hw : w' = w
    · simp only [hw, Function.update_self]
      by_cases hv : v = u
      · rw [hv, Function.update_self]
        omega
      · rw [Function.update_of_ne hv]
    · simp only [Function.update_of_ne hw]
      exact Nat.le_refl _
  · rw [closes_update (idle_clear hidle w').2 id]
    by_cases hw : w' = w
    · obtain ⟨hopen, hnone⟩ := (h.life w).isOpen_of_pos hpos
      rw [hw]
      simp only [Function.update_self]
      exact .live (Nat.succ_pos _) hopen hnone
    · simp only [Function.update_of_ne hw]
      exact h.life w'

/-- **`fileclose`** never panics, and only the last one goes on to `pipeclose`. -/
theorem fileclose (h : Ends s) {w : Bool} (hidle : ∃ ret, s.status t = .out (.idle ret))
    (ht : 0 < s.shared.fds w t) (hrun : Runs .some t (fileclose w t s.shared) s s') :
    Ends s' := by
  have hpos := h.ref_pos ht
  rw [Pipes.fileclose, if_neg (by omega)] at hrun
  have hrefs : ∀ w', Function.update s.shared.ref w (s.shared.ref w - 1) w' =
      total id (Function.update s.shared.fds w
        (Function.update (s.shared.fds w) t (s.shared.fds w t - 1)) w') := by
    intro w'
    by_cases hw : w' = w
    · have hmove := total_update id (s.shared.fds w) t (s.shared.fds w t - 1)
      have hsum := h.ref w
      simp only [hw, Function.update_self, id] at hmove ⊢
      omega
    · rw [Function.update_of_ne hw, Function.update_of_ne hw]
      exact h.ref w'
  have hfds : ∀ w' u, u ≠ t → s.shared.fds w' u ≤ Function.update s.shared.fds w
      (Function.update (s.shared.fds w) t (s.shared.fds w t - 1)) w' u := by
    intro w' u hu
    by_cases hw : w' = w
    · rw [hw, Function.update_self, Function.update_of_ne hu]
    · rw [Function.update_of_ne hw]
  have hdrop := (h.life w).drop hpos t
  simp only [Function.update_self] at hrun
  split at hrun
  · rename_i hmore
    refine h.run hrun h.calm hrefs hfds (fun _ hu => absurd hu id) (fun w' => ?_) h.freed
    by_cases hw : w' = w
    · rw [hw]
      simp only [Function.update_self]
      have hfalse : (s.shared.ref w - 1 = 0) = False := eq_false (by omega)
      rw [hfalse] at hdrop
      exact hdrop
    · rw [closes_update (idle_clear hidle w').2 id]
      simp only [Function.update_of_ne hw]
      exact h.life w'
  · rename_i hlast
    refine h.run hrun h.calm hrefs hfds (fun _ hu => absurd hu id) (fun w' => ?_) h.freed
    by_cases hw : w' = w
    · rw [hw]
      simp only [Function.update_self]
      have htrue : (s.shared.ref w - 1 = 0) = (w = w) :=
        propext ⟨fun _ => rfl, fun _ => by omega⟩
      rw [htrue] at hdrop
      exact hdrop
    · have hnot : ¬ closes (Next.leave (.closing w) : Next Client Channel Wait).status w' :=
        fun hc : w = w' => hw hc.symm
      rw [closes_update (idle_clear hidle w').2 hnot]
      simp only [Function.update_of_ne hw]
      exact h.life w'

/-- **`pipeclose`** closes its end, and frees the page if the other end is closed. -/
theorem pipeclose (h : Ends s) {w : Bool} (ht : s.status t = .out (.closing w))
    (hrun : Runs .some t (pipeclose w s.shared) s s') : Ends s' := by
  have hopen : s.shared.pipe.isOpen w = true := by
    have hlife := h.life w
    cases hlife with
    | live _ ho => exact ho
    | closing _ _ ho => exact ho
    | closed _ _ hc => exact absurd (by rw [ht]; rfl) (hc t)
  have hfreed := h.freed
  refine h.run hrun h.calm h.ref (fun _ _ _ => Nat.le_refl _) (fun _ hu => absurd hu id)
    (fun w' => ?_) ?_
  · by_cases hw : w' = w
    · have hclose := (h.life w).close (t := t) (by rw [ht]; rfl)
      rw [hw]
      cases w with
      | true => exact hclose
      | false => exact hclose
    · have hnot : ¬ closes (s.status t) w' := by
        rw [ht]
        exact fun hc : w = w' => hw hc.symm
      rw [closes_update hnot id]
      have hlife := h.life w'
      cases w with
      | true =>
        obtain rfl : w' = false := Bool.eq_false_of_not_eq_true hw
        exact hlife
      | false =>
        obtain rfl : w' = true := Bool.eq_true_of_not_eq_false hw
        exact hlife
  · cases w with
    | true =>
      have hopen : s.shared.pipe.writeopen = true := hopen
      rw [hopen, Bool.or_true, if_pos rfl] at hfreed
      cases hr : s.shared.pipe.readopen with
      | true => simp only [Pipes.pipeclose, hr, hfreed, if_true, Bool.true_or]; rfl
      | false => simp only [Pipes.pipeclose, hr, hfreed, if_true, Bool.false_or]; rfl
    | false =>
      have hopen : s.shared.pipe.readopen = true := hopen
      rw [hopen, Bool.true_or, if_pos rfl] at hfreed
      cases hr : s.shared.pipe.writeopen with
      | true => simp only [Pipes.pipeclose, hr, hfreed]; rfl
      | false => simp only [Pipes.pipeclose, hr, hfreed]; rfl

/-- **The step lemma**, by the move: descriptors change in `filedup` and in closing only. -/
theorem step (h : Ends s) {kills : Bool} {e : Event τ (Call τ)} (hm : Move kills s s' e) :
    Ends s' := by
  cases hm with
  | write t n rest hgo _ ht hrun =>
    have hclear := hgo.clear
    rcases pipewrite_cases n rest s.shared t with ⟨-, hx⟩ | ⟨-, -, hx⟩ | ⟨-, -, hx⟩
    · rw [hx] at hrun
      exact h.quiet hrun hclear (fun _ => id) (fun _ hu => absurd hu id) rfl rfl rfl rfl
        (Pipe.copyIn_isOpen _ _)
    · rw [hx] at hrun
      exact h.quiet hrun hclear (fun _ => id) (fun _ hu => absurd hu id) rfl rfl rfl rfl
        (Pipe.copyIn_isOpen _ _)
    · rw [hx] at hrun
      refine h.quiet hrun hclear (fun _ => id) (fun w hu => ?_) rfl rfl rfl rfl
        (Pipe.copyIn_isOpen _ _)
      obtain rfl : w = true := hu
      exact ht
  | read t n hgo ht hrun =>
    have hclear := hgo.clear
    rcases piperead_cases n s.shared t with ⟨-, -, ⟨-, hx⟩ | hx⟩ | ⟨-, hx⟩
    · rw [hx] at hrun
      exact h.quiet hrun hclear (fun _ => id) (fun _ hu => absurd hu id) rfl rfl rfl rfl rfl
    · rw [hx] at hrun
      refine h.quiet hrun hclear (fun _ => id) (fun w hu => ?_) rfl rfl rfl rfl rfl
      obtain rfl : w = false := hu
      exact ht
    · rw [hx] at hrun
      exact h.quiet hrun hclear (fun _ => id) (fun _ hu => absurd hu id) rfl rfl rfl rfl
        (Pipe.copyOut_isOpen _ _)
  | refuse t f _ _ hidle hrun =>
    exact h.quiet hrun (fun w => (idle_clear hidle w).2) (fun _ => id) (fun _ hu => absurd hu id)
      rfl rfl rfl rfl rfl
  | dup t u w _ hidle ht hrun => exact h.filedup hidle ht hrun
  | close t w _ hidle ht hrun => exact h.fileclose hidle ht hrun
  | pipeclose t w _ ht hrun => exact h.pipeclose ht hrun
  | kill t u _ _ hidle hrun =>
    exact h.quiet hrun (fun w => (idle_clear hidle w).2) (fun _ => id) (fun _ hu => absurd hu id)
      rfl rfl rfl rfl rfl
  | stir t _ hs hst => exact h.stirred hs hst

/-- **The run lemma**: the ends are right in every state that a pipe gets to. -/
theorem reach {kills : Bool} {t₀ : τ} (h : (system kills t₀).Reach s) : Ends s := by
  refine h.invariant (I := fun s : St τ => Ends s) (fun s hs => initial hs) fun s e s' hi hst => ?_
  exact hi.step (step_cases hi.uses hst)

end Ends

/-! ## The page -/

section Page

variable [Fintype τ]

/-- A process that has nothing to do with the pipe. -/
def away (s : St τ) (t : τ) : Prop :=
  (∃ ret, s.status t = .out (.idle ret)) ∧ ∀ w, s.shared.fds w t = 0

omit [DecidableEq τ] in
/-- An end is closed when no process refers to it, is inside a call on it or is closing it. -/
theorem Ends.isOpen_iff {s : St τ} (h : Ends s) (w : Bool) : s.shared.pipe.isOpen w = true ↔
    (∃ t, 0 < s.shared.fds w t) ∨ ∃ t, s.status t = .out (.closing w) := by
  have hlife := h.life w
  constructor
  · intro ho
    cases hlife with
    | live hpos =>
      refine .inl ?_
      by_contra hno
      have hzero : total id (s.shared.fds w) = 0 :=
        total_eq_zero.mpr fun t => Nat.eq_zero_of_not_pos fun ht => hno ⟨t, ht⟩
      rw [h.ref] at hpos
      omega
    | closing t _ _ hc => exact .inr ⟨t, closes_iff.mp ((hc t).mpr rfl)⟩
    | closed _ hclosed =>
      rw [hclosed] at ho
      cases ho
  · rintro (⟨t, ht⟩ | ⟨t, ht⟩)
    · exact (hlife.isOpen_of_pos (h.ref_pos ht)).1
    · cases hlife with
      | live _ ho => exact ho
      | closing _ _ ho => exact ho
      | closed _ _ hc => exact absurd (closes_iff.mpr ht) (hc t)

/-- **The page is freed once and in time.**  In every run no reference count is found to be 0; the
    page is freed exactly when no process refers to the pipe, is inside a call on it or is closing
    it, and never a second time. -/
theorem pipe_freed_once {kills : Bool} {t₀ : τ} {s : St τ} (h : (system kills t₀).Reach s) :
    s.shared.panicked = false ∧ s.shared.freed ≤ 1 ∧
      (s.shared.freed = 1 ↔ ∀ t, away s t) := by
  have hends := Ends.reach h
  have hfreed := hends.freed
  refine ⟨hends.calm, ?_, ?_⟩
  · split at hfreed <;> omega
  · have hboth : s.shared.freed = 1 ↔ ∀ w, ¬ s.shared.pipe.isOpen w = true := by
      rw [hfreed, Bool.forall_bool]
      show _ ↔ ¬ s.shared.pipe.readopen = true ∧ ¬ s.shared.pipe.writeopen = true
      cases s.shared.pipe.readopen with
      | true => simp
      | false => cases s.shared.pipe.writeopen with
        | true => simp
        | false => simp
    rw [hboth]
    constructor
    · intro hclosed t
      have hnone : ∀ w, s.shared.fds w t = 0 := fun w =>
        Nat.eq_zero_of_not_pos fun ht => hclosed w ((hends.isOpen_iff w).mpr (.inl ⟨t, ht⟩))
      refine ⟨?_, hnone⟩
      have hinside : ∀ w, ¬ inside (s.status t) w := fun w hin => by
        have hpos := hends.uses t w hin
        rw [hnone w] at hpos
        exact absurd hpos (Nat.lt_irrefl 0)
      cases hst : s.status t with
      | out a =>
        cases a with
        | idle ret => exact ⟨ret, rfl⟩
        | closing w => exact absurd ((hends.isOpen_iff w).mpr (.inr ⟨t, hst⟩)) (hclosed w)
      | blocked c p =>
        rw [hst] at hinside
        cases p with
        | write n rest => exact absurd rfl (hinside true)
        | read n => exact absurd rfl (hinside false)
      | woken p =>
        rw [hst] at hinside
        cases p with
        | write n rest => exact absurd rfl (hinside true)
        | read n => exact absurd rfl (hinside false)
    · intro haway w hopen
      rcases (hends.isOpen_iff w).mp hopen with ⟨t, ht⟩ | ⟨t, ht⟩
      · rw [(haway t).2 w] at ht
        exact Nat.lt_irrefl 0 ht
      · obtain ⟨ret, hidle⟩ := (haway t).1
        rw [ht] at hidle
        cases hidle

end Page

end Code

end OsCodes.Pipes
