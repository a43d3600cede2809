/-
  The same loop with the array it scans: the process that soln.c forks for a line overwrites each
  operator with `NULL`, and what a child executes is the array from `prev` up to the next `NULL`.

  The loop never comes back to what it has overwritten, so the process refines the one over the tokens
  of the line (`splitter_refines`).

  `Scans` is the invariant of the scan: from `prev` on the array holds a segment of words that are
  no operators, then the rest of the line, then the `NULL`.  `Sim` puts the two processes side by
  side: they are at the same token, with the same children and the same waits to go, and the array
  agrees with the line from `prev` on.  Each step over the array is then a step over the tokens
  (`Sim.step`), so that what `Sequence` proves of all runs is true of this process as well, and
  what a child executes is the slice of the line between its two places.
-/
import OsCodes.Lib.Segments
import OsCodes.Shell.Sequence

namespace OsCodes.Shell

open Children

/-! ## The code -/

/-- The strings up to the first `NULL`, as `execvp` reads them. -/
def argv : List (Option String) → List String
  | some t :: ts => t :: argv ts
  | _ => []

/-- The variables of the process, its children with what each executes, and the calls of `wait`. -/
structure Splitter where
  phase : Phase
  tokens : Vector (Option String) MAX_NUM_TOKENS
  i : Nat
  prev : Nat
  co : Nat
  children : List (Child (List String))
  waits : Nat

/-- `fork`, and `execvp(*(tokens + prev), tokens + prev)` in the child. -/
def Splitter.fork (s : Splitter) : Splitter :=
  { s with children := ⟨argv (s.tokens.toList.drop s.prev), .running⟩ :: s.children }

/-- `tokens[i] = NULL`. -/
def Splitter.cut (s : Splitter) : Splitter :=
  { s with tokens := s.tokens.setIfInBounds s.i none }

/-- The last command, after the loop. -/
def Splitter.final (s : Splitter) : Splitter := { s.fork with phase := .last s.co }

/-- A turn of the loop, to its end or to a `wait`. -/
def Splitter.visit (s : Splitter) : Splitter :=
  if h : s.i < MAX_NUM_TOKENS then
    match s.tokens[s.i] with
    | none => s.final
    | some t =>
      -- the operator is overwritten before the `fork`, so the child's copy ends there
      if t = "&&" then { s.cut.fork with phase := .seq }
      else if t = "&&&" then { s.cut.fork with co := s.co + 1, prev := s.i + 1, i := s.i + 1 }
      else { s with i := s.i + 1 }
  else s.final

/-- A turn of the loop, the end of a child, or a `wait` that returns. -/
inductive SplitterStep : Splitter → Unit → Splitter → Prop
  | visit {s : Splitter} : s.phase = .loop → SplitterStep s () s.visit
  | seq {s : Splitter} {cs : List (Child (List String))} : s.phase = .seq → Waits s.children cs →
      SplitterStep s ()
        { s with phase := .loop, prev := s.i + 1, i := s.i + 1, children := cs,
                 waits := s.waits + 1 }
  | last {s : Splitter} {n : Nat} {cs : List (Child (List String))} : s.phase = .last (n + 1) →
      Waits s.children cs →
      SplitterStep s () { s with phase := .last n, children := cs, waits := s.waits + 1 }
  | ends {s : Splitter} {cs : List (Child (List String))} : Ends s.children cs →
      SplitterStep s () { s with children := cs }

/-- The process for a line with the words `ws`: the array holds them and a `NULL`, and behind that
    whatever was there. -/
def splitter (ws : List String) : Lts Splitter Unit where
  start s := ∃ tokens : Vector (Option String) MAX_NUM_TOKENS,
    ws.map some ++ [none] <+: tokens.toList ∧ s = ⟨.loop, tokens, 0, 0, 1, [], 0⟩
  step := SplitterStep

/-- `&&` or `&&&`. -/
def isOperator (t : String) : Bool := t == "&&" || t == "&&&"

/-- What the children execute, in the order of the forks. -/
def Splitter.argvs (s : Splitter) : List (List String) := (s.children.map Child.what).reverse

/-! ## What is cut off -/

section Row

variable {l : List (Option String)} {seg rest ws : List String} {t : String}

/-- The row begins with these words and a `NULL`. -/
def Row (l : List (Option String)) (ws : List String) : Prop := ws.map some ++ [none] <+: l

theorem Row.argv_eq (h : Row l ws) : argv l = ws := by
  obtain ⟨junk, rfl⟩ := h
  induction ws with
  | nil => rfl
  | cons t ws ih => rw [List.map_cons, List.cons_append, List.cons_append, argv, ih]

theorem Row.getElem? (h : Row l (seg ++ rest)) : l[seg.length]? = some rest.head? := by
  obtain ⟨junk, rfl⟩ := h
  rw [List.map_append, List.append_assoc, List.append_assoc, List.getElem?_append_right (by simp)]
  cases rest <;> simp

/-- A `NULL` behind the first words cuts the row in two. -/
theorem Row.set (h : Row l (seg ++ t :: rest)) :
    Row (l.set seg.length none) seg ∧ Row ((l.set seg.length none).drop (seg.length + 1)) rest := by
  obtain ⟨junk, rfl⟩ := h
  have hset : ((seg ++ t :: rest).map some ++ [none] ++ junk).set seg.length none =
      seg.map some ++ none :: (rest.map some ++ none :: junk) := by
    rw [List.map_append, List.append_assoc, List.append_assoc, List.set_append_right _ _ (by simp)]
    simp
  rw [hset]
  constructor
  · exact ⟨rest.map some ++ none :: junk, by simp⟩
  · exact ⟨junk, by simp [List.drop_append]⟩

end Row

section Turn

variable {ws seg rest : List String} {s s' : Splitter} {t : String}

/-- Where the loop is: behind a segment of words that are no operators, with the rest to come. -/
structure Scans (s : Splitter) (seg rest : List String) : Prop where
  row : Row (s.tokens.toList.drop s.prev) (seg ++ rest)
  i : s.i = s.prev + seg.length
  plain : ∀ t ∈ seg, isOperator t = false

/-- A child executes the row that begins at `prev`. -/
theorem argvs_fork (h : Row (s.tokens.toList.drop s.prev) seg) :
    s.fork.argvs = s.argvs ++ [seg] := by
  rw [Splitter.argvs, Splitter.fork, h.argv_eq, List.map_cons, List.reverse_cons]
  rfl

/-- What the loop reads. -/
theorem Scans.get (h : Scans s seg rest) :
    ∃ hi : s.i < MAX_NUM_TOKENS, s.tokens[s.i] = rest.head? := by
  have hget := h.row.getElem?
  rw [List.getElem?_drop, ← h.i] at hget
  obtain ⟨hi, hget⟩ := List.getElem?_eq_some_iff.mp hget
  rw [Vector.length_toList] at hi
  rw [Vector.getElem_toList] at hget
  exact ⟨hi, hget⟩

/-- The `NULL` in the place of an operator ends one row and begins another behind it. -/
theorem Scans.cut (h : Scans s seg (t :: rest)) :
    Row (s.cut.tokens.toList.drop s.prev) seg ∧
      Row (s.cut.tokens.toList.drop (s.i + 1)) rest := by
  obtain ⟨hpre, hrest⟩ := h.row.set
  have hset : s.cut.tokens.toList.drop s.prev =
      (s.tokens.toList.drop s.prev).set seg.length none := by
    rw [Splitter.cut, Vector.toList_setIfInBounds, List.drop_set, if_neg (by rw [h.i]; omega), h.i,
      Nat.add_sub_cancel_left]
  rw [← hset] at hpre hrest
  rw [List.drop_drop, ← Nat.add_assoc, ← h.i] at hrest
  exact ⟨hpre, hrest⟩

/-- A word that is no operator is added to the segment. -/
theorem Scans.skip (h : Scans s seg (t :: rest)) (ht : isOperator t = false) :
    Scans { s with i := s.i + 1 } (seg ++ [t]) rest := by
  constructor
  case row =>
    rw [← List.append_cons]
    exact h.row
  case i =>
    rw [List.length_append, ← Nat.add_assoc, ← h.i]
    rfl
  case plain => exact forall_mem_concat h.plain ht

/-- What a turn of the loop does. -/
theorem Scans.visit_cases (h : Scans s seg rest) :
    (rest = [] ∧ s.visit = s.final) ∨
    (∃ rest', rest = "&&" :: rest' ∧ s.visit = { s.cut.fork with phase := .seq }) ∨
    (∃ rest', rest = "&&&" :: rest' ∧
      s.visit = { s.cut.fork with co := s.co + 1, prev := s.i + 1, i := s.i + 1 }) ∨
    (∃ t rest', rest = t :: rest' ∧ isOperator t = false ∧ s.visit = { s with i := s.i + 1 }) := by
  obtain ⟨hi, hget⟩ := h.get
  rw [Splitter.visit, dif_pos hi, hget]
  cases rest with
  | nil => exact .inl ⟨rfl, rfl⟩
  | cons t rest =>
    by_cases h2 : t = "&&"
    · subst h2
      exact .inr (.inl ⟨rest, rfl, rfl⟩)
    · by_cases h3 : t = "&&&"
      · subst h3
        exact .inr (.inr (.inl ⟨rest, rfl, rfl⟩))
      · exact .inr (.inr (.inr ⟨t, rest, rfl, by simp [isOperator, h2, h3], by simp [h2, h3]⟩))

end Turn

/-! ## The array and the tokens -/

section Sim

variable {ws seg rest : List String} {s s' : Splitter} {t : Sub}

/-- The tokens between two places of the line. -/
def slice (ws : List String) (p : Nat × Nat) : List String := (ws.take p.2).drop p.1

/-- The process over the array and that over the tokens of the line, side by side: the array still has
    what the loop has not come to. -/
structure Sim (ws : List String) (s : Splitter) (t : Sub) : Prop where
  phase : t.phase = s.phase
  i : t.i = s.i
  prev : t.prev = s.prev
  co : t.co = s.co
  children : s.children = t.children.map (Child.describe (slice ws))
  loop : s.phase = .loop → ∃ seg rest, Scans s seg rest ∧ ws.drop s.prev = seg ++ rest
  seq : s.phase = .seq → Row (s.tokens.toList.drop (s.i + 1)) (ws.drop (s.i + 1))

/-- The segment and the rest, in the line. -/
theorem Scans.slice_eq (h : Scans s seg rest) (hws : ws.drop s.prev = seg ++ rest) :
    slice ws (s.prev, s.i) = seg ∧ ws.drop s.i = rest := by
  constructor
  · rw [slice, List.drop_take, hws, h.i, Nat.add_sub_cancel_left, List.take_left]
  · rw [h.i, ← List.drop_drop, hws, List.drop_left]

theorem drop_succ {op : String} {i : Nat} (h : ws.drop i = op :: rest) : ws.drop (i + 1) = rest := by
  rw [← List.drop_drop, h]
  rfl

/-- The line has what the array has. -/
theorem Scans.token (h : Scans s seg rest) (hws : ws.drop s.prev = seg ++ rest) :
    ws[s.i]? = rest.head? := by
  rw [← (h.slice_eq hws).2, List.head?_drop]

/-- Both fork the same command, also with a `NULL` put behind it. -/
theorem Sim.fork {tokens : Vector (Option String) MAX_NUM_TOKENS} (h : Sim ws s t)
    (hrow : Row (tokens.toList.drop s.prev) seg) (hseg : slice ws (s.prev, s.i) = seg) :
    (Splitter.fork { s with tokens := tokens }).children =
      t.fork.children.map (Child.describe (slice ws)) := by
  rw [Splitter.fork, Sub.fork, List.map_cons, h.prev, h.i, Child.describe, hseg, hrow.argv_eq]
  exact congrArg _ h.children

theorem Sim.visit (h : Sim ws s t) (hloop : s.phase = .loop) : Sim ws s.visit (t.visit ws) := by
  obtain ⟨seg, rest, hs, hws⟩ := h.loop hloop
  obtain ⟨hi, -⟩ := hs.get
  obtain ⟨hseg, hrest⟩ := hs.slice_eq hws
  have htok := hs.token hws
  rw [← h.i] at hi htok
  have hseq : s.phase ≠ .seq := by rw [hloop]; exact Phase.noConfusion
  rcases hs.visit_cases with ⟨rfl, hv⟩ | ⟨rest, rfl, hv⟩ | ⟨rest, rfl, hv⟩ | ⟨u, rest, rfl, hu, hv⟩ <;>
    rw [hv]
  · have ht : t.visit ws = t.final := by simp [Sub.visit, hi, htok]
    have hrow := hs.row
    rw [List.append_nil] at hrow
    rw [ht]
    exact {
      phase := congrArg Phase.last h.co
      i := h.i
      prev := h.prev
      co := h.co
      children := h.fork hrow hseg
      loop := fun hl => by cases hl
      seq := fun hl => by cases hl }
  · have ht : t.visit ws = { t.fork with phase := .seq } := by simp [Sub.visit, hi, htok]
    obtain ⟨hpre, hbehind⟩ := hs.cut
    have hrow : Row (s.cut.tokens.toList.drop (s.i + 1)) (ws.drop (s.i + 1)) := by
      rw [drop_succ hrest]
      exact hbehind
    rw [ht]
    exact {
      phase := rfl
      i := h.i
      prev := h.prev
      co := h.co
      children := h.fork hpre hseg
      loop := fun hl => by cases hl
      seq := fun _ => hrow }
  · have ht : t.visit ws = { t.fork with co := t.co + 1, prev := t.i + 1, i := t.i + 1 } := by
      simp [Sub.visit, hi, htok]
    obtain ⟨hpre, hbehind⟩ := hs.cut
    rw [ht]
    exact {
      phase := h.phase
      i := congrArg (· + 1) h.i
      prev := congrArg (· + 1) h.i
      co := congrArg (· + 1) h.co
      children := h.fork hpre hseg
      loop := fun _ => ⟨[], rest, ⟨hbehind, rfl, fun _ hu => by cases hu⟩, drop_succ hrest⟩
      seq := fun hl => absurd hl hseq }
  · have ht : t.visit ws = { t with i := t.i + 1 } := by
      have h2 : u ≠ "&&" := by rintro rfl; cases hu
      have h3 : u ≠ "&&&" := by rintro rfl; cases hu
      simp [Sub.visit, hi, htok, h2, h3]
    rw [ht]
    exact {
      phase := h.phase
      i := congrArg (· + 1) h.i
      prev := h.prev
      co := h.co
      children := h.children
      loop := fun _ => ⟨seg ++ [u], rest, hs.skip hu, by rw [hws, List.append_cons]⟩
      seq := fun hl => absurd hl hseq }

/-- A step over the array is a step over the tokens. -/
theorem Sim.step {e : Unit} (h : Sim ws s t) (hs : SplitterStep s e s') :
    ∃ t', Step ws t e t' ∧ Sim ws s' t' := by
  cases hs with
  | visit hloop => exact ⟨_, .visit (h.phase.trans hloop), h.visit hloop⟩
  | @seq cs hseq hw =>
    rw [h.children] at hw
    obtain ⟨ds, hw, hcs⟩ := hw.of_describe
    refine ⟨_, .seq (h.phase.trans hseq) hw, ?_⟩
    exact {
      phase := rfl
      i := congrArg (· + 1) h.i
      prev := congrArg (· + 1) h.i
      co := h.co
      children := hcs
      loop := fun _ => ⟨[], _, ⟨h.seq hseq, rfl, fun _ hu => by cases hu⟩, rfl⟩
      seq := fun hl => by cases hl }
  | @last n cs hlast hw =>
    rw [h.children] at hw
    obtain ⟨ds, hw, hcs⟩ := hw.of_describe
    refine ⟨_, .last (h.phase.trans hlast) hw, ?_⟩
    exact {
      phase := rfl
      i := h.i
      prev := h.prev
      co := h.co
      children := hcs
      loop := fun hl => by cases hl
      seq := fun hl => by cases hl }
  | @ends cs he =>
    rw [h.children] at he
    obtain ⟨ds, he, hcs⟩ := Moves.of_describe he
    refine ⟨_, .ends he, ?_⟩
    exact {
      phase := h.phase
      i := h.i
      prev := h.prev
      co := h.co
      children := hcs
      loop := fun hl => by
        obtain ⟨seg, rest, hs, hws⟩ := h.loop hl
        exact ⟨seg, rest, ⟨hs.row, hs.i, hs.plain⟩, hws⟩
      seq := h.seq }

end Sim

/-- **The process over the array refines the one over the tokens**: what it overwrites it has come past,
    and its children execute the tokens from `prev` to `i`. -/
theorem splitter_refines {ws : List String} {s : Splitter} (hr : (splitter ws).Reach s) :
    ∃ t, (subshell ws).Reach t ∧ Sim ws s t := by
  refine hr.simulated ?_ fun s t e s' h hs => h.step hs
  rintro s ⟨tokens, hrow, rfl⟩
  refine ⟨_, rfl, ?_⟩
  exact {
    phase := rfl
    i := rfl
    prev := rfl
    co := rfl
    children := rfl
    loop := fun _ => ⟨[], ws, ⟨hrow, rfl, fun _ hu => by cases hu⟩, rfl⟩
    seq := fun hl => by cases hl }

end OsCodes.Shell
