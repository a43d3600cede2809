/-
  What the account of the log means for the system calls: `log_write` and `begin_op`.

  `commit` and `recover_from_log` always come to their end, in as many steps as `todo` counts, and
  the wakeup that follows a commit leaves nobody asleep.  With `MAXOPBLOCKS` blocks in each of three
  calls the header is full, and the next `log_write` panics whatever block it is for.

  `log_write_safe_iff` has two directions.  With at most `MAXOPBLOCKS - 1` blocks a call, every
  state has room for what the calls may still write (`Safe`), by the account of `LogRoom`.  With
  more, there is a run that fills the header: three calls start and fill the header between them,
  and one of them logs a block once more; it is built from `exists_up`, `reach_beginOp` and
  `reach_logWrites`.  `Roomy` is what the superblock must be like for either: a log of `LOGSIZE`
  blocks, and enough blocks behind it.

  `begin_op_is_woken` is the other half: while a process sleeps in `begin_op`, a commit is under
  way or a call is in progress, and the end of either wakes it.
-/
import Mathlib.Data.List.Range
import OsCodes.Xv6.LogRoom

namespace OsCodes.Log

abbrev NPROC : Nat := 64

/-! ## Commits and recoveries end -/

section Todo

variable {τ : Type} [DecidableEq τ]

/-- How many steps `commit` or `recover_from_log` still takes. -/
def todo (sb : Superblock) (s : State τ) : Nat :=
  match s.pc with
  | .boot => (readHead (s.look sb.logstart)).length + 3
  | .writeLog tail => s.lh.length - tail + s.lh.length + 4
  | .head => s.lh.length + 3
  | .install tail => s.lh.length - tail + 2
  | .erase => 1
  | .rest => 0

variable {sb : Superblock} {s s' : State τ}

omit [DecidableEq τ] in
theorem exists_advance (hpc : s.pc ≠ .rest) : ∃ s', advance sb s = some s' := by
  unfold advance
  split
  · exact ⟨_, rfl⟩
  · split <;> exact ⟨_, rfl⟩
  · exact ⟨_, rfl⟩
  · split <;> exact ⟨_, rfl⟩
  · exact ⟨_, rfl⟩
  · exact absurd ‹_› hpc

omit [DecidableEq τ] in
/-- Every step brings the end nearer. -/
theorem todo_advance (h : advance sb s = some s') : todo sb s' + 1 = todo sb s := by
  rcases advance_cases h with ⟨hpc, rfl⟩ | ⟨tail, b, hpc, hb, rfl⟩ | ⟨tail, hpc, hb, rfl⟩ |
    ⟨hpc, rfl⟩ | ⟨tail, b, hpc, hb, rfl⟩ | ⟨tail, hpc, hb, rfl⟩ | ⟨hpc, rfl⟩
  · simp only [todo, hpc]
    omega
  · have := (List.getElem?_eq_some_iff.mp hb).1
    simp only [todo, hpc, State.writeLog, State.bwrite, State.bread]
    omega
  · have := List.getElem?_eq_none_iff.mp hb
    simp only [todo, hpc]
    omega
  · simp only [todo, hpc, State.writeHead, State.bwrite]
    omega
  · have := (List.getElem?_eq_some_iff.mp hb).1
    simp only [todo, hpc, State.installTrans, State.bwrite, State.bread]
    omega
  · have := List.getElem?_eq_none_iff.mp hb
    simp only [todo, hpc]
    omega
  · simp only [todo, hpc]

omit [DecidableEq τ] in
/-- The processes are not touched. -/
theorem proc_advance (h : advance sb s = some s') :
    s'.proc = s.proc ∧ s'.committing = s.committing := by
  rcases advance_cases h with ⟨-, rfl⟩ | ⟨_, _, -, -, rfl⟩ | ⟨_, -, -, rfl⟩ | ⟨-, rfl⟩ |
    ⟨_, _, -, -, rfl⟩ | ⟨_, -, -, rfl⟩ | ⟨-, rfl⟩ <;> exact ⟨rfl, rfl⟩

/-- **A commit or a recovery ends**: its own steps alone bring it to its end. -/
theorem runs_to_rest (disk : Disk) (n : Nat) (s : State τ) (hn : todo sb s = n) :
    ∃ trs s', (system sb disk).Run s trs s' ∧ (∀ x ∈ trs, x.2.1 = .advance) ∧ s'.pc = .rest ∧
      s'.proc = s.proc ∧ s'.committing = s.committing := by
  induction n generalizing s with
  | zero =>
    refine ⟨[], s, .nil s, fun x hx => absurd hx List.not_mem_nil, ?_, rfl, rfl⟩
    by_contra hpc
    obtain ⟨s', hs'⟩ : ∃ s', advance sb s = some s' := exists_advance hpc
    have := todo_advance hs'
    omega
  | succ n ih =>
    have hpc : s.pc ≠ .rest := by
      intro h
      simp only [todo, h] at hn
      omega
    obtain ⟨s₁, hs₁⟩ : ∃ s', advance sb s = some s' := exists_advance hpc
    have htodo := todo_advance hs₁
    obtain ⟨hproc, hc⟩ := proc_advance hs₁
    obtain ⟨trs, s', hrun, hadv, hpc', hproc', hc'⟩ := ih s₁ (by omega)
    have hst : (system sb disk).step s .advance s₁ := hs₁
    refine ⟨_, s', .cons hst hrun, ?_, hpc', hproc'.trans hproc, hc'.trans hc⟩
    intro x hx
    rcases List.mem_cons.mp hx with rfl | hx
    · rfl
    · exact hadv x hx

end Todo

/-! ## `log_write` -/

section Full

variable {τ : Type}

/-- What `log_write` and `end_op` need: neither panics, and the header fits into the log. -/
structure Safe (sb : Superblock) (s : State τ) : Prop where
  log_write : ∀ t mine b, s.proc t = .holding mine b → panics sb s = false
  end_op : ∀ t mine, s.proc t = .inOp mine → s.committing = false
  fits : s.up = true → s.lh.length < sb.nlog ∧ s.lh.length ≤ LOGSIZE

/-- The log of the disk has at least `LOGSIZE` blocks, and behind it there are as many that calls may
    write. -/
structure Superblock.Roomy (sb : Superblock) : Prop where
  log : LOGSIZE ≤ sb.nlog
  behind : sb.logstart + sb.nlog + LOGSIZE ≤ FSSIZE

theorem Room.safe [Fintype τ] {sb : Superblock} {s : State τ} {M : Nat} (h : Room M s)
    (hM : M < MAXOPBLOCKS) (hlog : LOGSIZE ≤ sb.nlog) : Safe sb s where
  log_write t mine b ht := by
    have hup : s.up = true :=
      h.up_of_ne_out (t := t) (by rw [ht]; exact fun hp => Proc.noConfusion hp)
    have hpos := h.outstanding_pos (t := t) (by rw [ht]; rfl)
    have hle := h.bound hup
    have hsize : LOGSIZE = 3 * MAXOPBLOCKS := rfl
    simp only [panics, Bool.or_eq_false_iff, decide_eq_false_iff_not]
    omega
  end_op t mine ht := h.not_committing (h.outstanding_pos (t := t) (by rw [ht]; rfl))
  fits hup := by
    have hle := h.bound hup
    have hsize : LOGSIZE = 3 * MAXOPBLOCKS := rfl
    omega

/-- No buffer is locked. -/
def Unlocked (s : State τ) : Prop := ∀ b buf, s.cache b = some buf → buf.lock = none

theorem unlocked_update {c : Nat → Option (Buf τ)} (hc : ∀ b buf, c b = some buf → buf.lock = none)
    (b : Nat) (v : Data) (dirty : Bool) :
    ∀ a buf, Function.update c b (some ⟨v, dirty, none⟩) a = some buf → buf.lock = none := by
  refine (Function.forall_update_iff _ fun _ (o : Option (Buf τ)) =>
    ∀ buf, o = some buf → buf.lock = none).mpr ⟨?_, fun a _ => hc a⟩
  rintro buf ⟨⟩
  rfl

theorem Unlocked.bread {s : State τ} (h : Unlocked s) (b : Nat) : Unlocked (s.bread b) := by
  intro a buf ha
  cases hb : s.cache b with
  | some old =>
    simp only [State.bread, hb] at ha
    exact h a buf ha
  | none =>
    simp only [State.bread, hb] at ha
    exact unlocked_update h b _ _ a buf ha

theorem Unlocked.bwrite {s : State τ} (h : Unlocked s) (b : Nat) (v : Data) :
    Unlocked (s.bwrite b v) :=
  unlocked_update h b v false

theorem Unlocked.advance {sb : Superblock} {s s' : State τ} (h : Unlocked s)
    (hs : advance sb s = some s') : Unlocked s' := by
  rcases advance_cases hs with ⟨-, rfl⟩ | ⟨_, _, -, -, rfl⟩ | ⟨_, -, -, rfl⟩ | ⟨-, rfl⟩ |
    ⟨_, _, -, -, rfl⟩ | ⟨_, -, -, rfl⟩ | ⟨-, rfl⟩
  · exact h.bread _
  · exact (h.bread _).bwrite _ _
  · exact h
  · exact h.bwrite _ _
  · exact (h.bread _).bwrite _ _
  · exact h
  · exact h.bwrite _ _

variable [DecidableEq τ] {sb : Superblock} {disk : Disk} {M : Nat}

/-- The steps of a commit or a recovery are allowed to every caller. -/
theorem reach_advances {s s' : State τ} {trs : List (State τ × Event τ × State τ)}
    (hrun : (system sb disk).Run s trs s') (hadv : ∀ x ∈ trs, x.2.1 = .advance)
    (h : ((system sb disk).guard (limit sb M)).Reach s) (hl : Unlocked s) :
    ((system sb disk).guard (limit sb M)).Reach s' ∧ Unlocked s' := by
  induction hrun with
  | nil => exact ⟨h, hl⟩
  | @cons s s₁ s' e trs hst _ ih =>
    obtain rfl : e = .advance := hadv _ List.mem_cons_self
    exact ih (fun x hx => hadv x (List.mem_cons_of_mem _ hx)) (h.guarded hst trivial)
      (hl.advance hst)

/-- The system is up, with `n` calls in progress that have not written yet. -/
structure Calm (n : Nat) (s : State τ) : Prop where
  unlocked : Unlocked s
  up : s.up = true
  committing : s.committing = false
  lh : s.lh = []
  outstanding : s.outstanding = n

/-- Every disk is recovered, and the system comes up. -/
theorem exists_up [Fintype τ] (sb : Superblock) (disk : Disk) (hM : M ≤ MAXOPBLOCKS) :
    ∃ s : State τ, ((system sb disk).guard (limit sb M)).Reach s ∧ Calm 0 s ∧
      ∀ t, s.proc t = .out := by
  have h0 : ((system sb disk).guard (limit sb M)).Reach (poweron disk : State τ) := .start rfl
  obtain ⟨trs, s, hrun, hadv, hpc, hproc, hc⟩ := @runs_to_rest τ _ sb disk _ (poweron disk) rfl
  obtain ⟨h, hl⟩ := reach_advances hrun hadv h0 fun b buf hb => by cases hb
  have hroom := Room.reach hM h
  have hout : s.outstanding = 0 := by
    rw [hroom.count, hproc]
    exact total_eq_zero.mpr fun _ => rfl
  exact ⟨s, h, ⟨hl, hroom.risen hpc, hc, hroom.clean (.inr ⟨hpc, hout⟩), hout⟩,
    fun t => by rw [hproc]; rfl⟩

/-- A call starts. -/
theorem reach_beginOp {s : State τ} {n : Nat} (h : ((system sb disk).guard (limit sb M)).Reach s)
    (hs : Calm n s) (hn : n < 3) {t : τ} (ht : s.proc t = .out) :
    ∃ s', ((system sb disk).guard (limit sb M)).Reach s' ∧ Calm (n + 1) s' ∧
      s'.proc = Function.update s.proc t (.inOp []) := by
  have hroom : (s.outstanding + 1) * MAXOPBLOCKS ≤ 3 * MAXOPBLOCKS :=
    Nat.mul_le_mul_right _ (by rw [hs.outstanding]; omega)
  have hmay : mayBegin s = true := by
    simp only [mayBegin, hs.committing, hs.lh, List.length_nil, Bool.and_eq_true, Bool.not_false,
      true_and, decide_eq_true_eq, Nat.zero_add]
    exact Nat.le_trans hroom (Nat.le_of_eq (Nat.mul_comm _ _))
  have hstep : apply sb s (.beginOp t) =
      some { setProc s t (.inOp []) with outstanding := s.outstanding + 1 } := by
    simp only [apply, hs.up, ht, true_or, and_self, if_true, beginOp, hmay]
  exact ⟨_, h.guarded hstep trivial, ⟨hs.unlocked, hs.up, hs.committing, hs.lh,
    by rw [← hs.outstanding]⟩, rfl⟩

/-- A call reads a block, modifies it, and is about to log it. -/
theorem reach_modify {s : State τ} (h : ((system sb disk).guard (limit sb M)).Reach s)
    (hl : Unlocked s) {t : τ} {mine : List Nat} (ht : s.proc t = .inOp mine) {b : Nat}
    (hb : sb.Home b) (hfit : b ∈ mine ∨ mine.length < M) :
    ∃ buf : Buf τ, ((system sb disk).guard (limit sb M)).Reach
      { setProc s t (.holding mine b) with
        cache := Function.update (s.bread b).cache b (some buf) } := by
  have hstep : (system sb disk).step s (.fill b) (s.bread b) := rfl
  have hfill : ((system sb disk).guard (limit sb M)).Reach (s.bread b) := h.guarded hstep trivial
  obtain ⟨buf, hbuf⟩ : ∃ buf, (s.bread b).cache b = some buf := by
    cases hb : s.cache b with
    | some old => exact ⟨old, by simp only [State.bread, hb]⟩
    | none => exact ⟨_, by simp only [State.bread, hb]; exact Function.update_self _ _ _⟩
  have hlock := hl.bread b b buf hbuf
  obtain ⟨data, dirty, lock⟩ := buf
  cases hlock
  have hproc : (s.bread b).proc t = .inOp mine := ht
  have hmodify : (system sb disk).step (s.bread b) (.modify t b data)
      { setProc s t (.holding mine b) with
        cache := Function.update (s.bread b).cache b (some ⟨data, dirty, some t⟩) } := by
    show apply sb (s.bread b) (.modify t b data) = _
    simp only [apply, hproc, hbuf]
    rfl
  refine ⟨_, hfill.guarded hmodify ⟨hb, ?_⟩⟩
  rwa [hproc]

/-- One whole `log_write`, where none panics. -/
theorem reach_logWrite {s : State τ}
    (hsafe : ∀ s : State τ, ((system sb disk).guard (limit sb M)).Reach s → Safe sb s)
    (h : ((system sb disk).guard (limit sb M)).Reach s) (hl : Unlocked s) {t : τ}
    {mine : List Nat} (ht : s.proc t = .inOp mine) {b : Nat} (hb : sb.Home b) (hbm : b ∉ mine)
    (hlen : mine.length < M) (hlh : b ∉ s.lh) :
    ∃ s', ((system sb disk).guard (limit sb M)).Reach s' ∧ Unlocked s' ∧
      s'.proc = Function.update s.proc t (.inOp (b :: mine)) ∧ s'.lh = s.lh ++ [b] := by
  obtain ⟨buf, h₁⟩ := reach_modify h hl ht hb (.inr hlen)
  have hpanic := (hsafe _ h₁).log_write t mine b (Function.update_self _ _ _)
  have hcheck : (system sb disk).step
      { setProc s t (.holding mine b) with
        cache := Function.update (s.bread b).cache b (some buf) } (.check t)
      { setProc s t (.checked mine b) with
        cache := Function.update (s.bread b).cache b (some buf) } := by
    show apply sb _ (.check t) = _
    simp only [apply, setProc, Function.update_self, Function.update_idem]
    exact if_neg (by rw [Bool.not_eq_true]; exact hpanic)
  have hwrite : (system sb disk).step
      { setProc s t (.checked mine b) with
        cache := Function.update (s.bread b).cache b (some buf) } (.logWrite t)
      (logWrite { setProc s t (.checked mine b) with
        cache := Function.update (s.bread b).cache b (some buf) } t mine b buf) := by
    show apply sb _ (.logWrite t) = _
    simp only [apply, setProc, Function.update_self]
  refine ⟨_, (h₁.guarded hcheck trivial).guarded hwrite trivial, ?_, ?_, if_neg hlh⟩
  · simp only [Unlocked, logWrite, setProc, Function.update_idem]
    exact unlocked_update (hl.bread b) b _ _
  · simp only [logWrite, setProc, Function.update_idem, if_neg hbm]

/-- The `log_write`s of a whole call. -/
theorem reach_logWrites
    (hsafe : ∀ s : State τ, ((system sb disk).guard (limit sb M)).Reach s → Safe sb s) (t : τ)
    (bs : List Nat) :
    ∀ (s : State τ) (mine : List Nat), ((system sb disk).guard (limit sb M)).Reach s → Unlocked s →
      s.proc t = .inOp mine → (∀ b ∈ bs, sb.Home b ∧ b ∉ mine ∧ b ∉ s.lh) → bs.Nodup →
      mine.length + bs.length ≤ M →
      ∃ s', ((system sb disk).guard (limit sb M)).Reach s' ∧ Unlocked s' ∧
        s'.proc = Function.update s.proc t (.inOp (bs.reverse ++ mine)) ∧ s'.lh = s.lh ++ bs := by
  induction bs with
  | nil =>
    intro s mine h hl ht _ _ _
    refine ⟨s, h, hl, ?_, (List.append_nil _).symm⟩
    rw [List.reverse_nil, List.nil_append, ← ht, Function.update_eq_self]
  | cons b bs ih =>
    intro s mine h hl ht hbs hnodup hlen
    obtain ⟨hnot, hnodup⟩ := List.nodup_cons.mp hnodup
    obtain ⟨hb, hbm, hblh⟩ := hbs b List.mem_cons_self
    rw [List.length_cons] at hlen
    obtain ⟨s₁, h₁, hl₁, hproc₁, hlh₁⟩ := reach_logWrite hsafe h hl ht hb hbm (by omega) hblh
    obtain ⟨s', h', hl', hproc', hlh'⟩ := ih s₁ (b :: mine) h₁ hl₁
      (by rw [hproc₁, Function.update_self]) (by
        intro a ha
        obtain ⟨hhome, ham, halh⟩ := hbs a (List.mem_cons_of_mem _ ha)
        have hab : a ≠ b := fun hab => hnot (hab ▸ ha)
        rw [hlh₁]
        exact ⟨hhome, fun hm => (List.mem_cons.mp hm).elim hab ham, fun hm =>
          (List.mem_append.mp hm).elim halh fun hm => hab (List.mem_singleton.mp hm)⟩)
      hnodup (by rw [List.length_cons]; omega)
    refine ⟨s', h', hl', ?_, ?_⟩
    · rw [hproc', hproc₁, Function.update_idem, List.reverse_cons, List.append_assoc]
      rfl
    · rw [hlh', hlh₁, List.append_assoc]
      rfl

/-- Ten blocks behind the log. -/
def behind (sb : Superblock) (i : Nat) : List Nat :=
  List.range' (sb.logstart + sb.nlog + MAXOPBLOCKS * i) MAXOPBLOCKS

theorem mem_behind {i b : Nat} : b ∈ behind sb i ↔
    sb.logstart + sb.nlog + MAXOPBLOCKS * i ≤ b ∧
      b < sb.logstart + sb.nlog + MAXOPBLOCKS * i + MAXOPBLOCKS :=
  List.mem_range'_1

theorem home_of_mem_behind (hsb : sb.Roomy) {i b : Nat} (hi : i < 3) (hb : b ∈ behind sb i) :
    sb.Home b := by
  have hfits := hsb.behind
  have hsize : LOGSIZE = 3 * MAXOPBLOCKS := rfl
  have hten : MAXOPBLOCKS * i + MAXOPBLOCKS ≤ MAXOPBLOCKS * 3 :=
    Nat.mul_le_mul_left MAXOPBLOCKS (show i + 1 ≤ 3 from hi)
  obtain ⟨hle, hlt⟩ := mem_behind.mp hb
  refine ⟨by omega, fun hlog => ?_⟩
  omega

theorem behind_disjoint {i j b : Nat} (hij : i < j) (hb : b ∈ behind sb i) : b ∉ behind sb j := by
  intro hb'
  have h := (mem_behind.mp hb).2
  have h' := (mem_behind.mp hb').1
  have hten : MAXOPBLOCKS * (i + 1) ≤ MAXOPBLOCKS * j := Nat.mul_le_mul_left _ hij
  rw [Nat.mul_add, Nat.mul_one] at hten
  omega

/-- Three calls fill the header, and one of them logs a block again. -/
theorem not_safe [Fintype τ] (hsb : sb.Roomy) (disk : Disk) {t₀ t₁ t₂ : τ} (h01 : t₀ ≠ t₁)
    (h02 : t₀ ≠ t₂) (h12 : t₁ ≠ t₂) :
    ¬ ∀ s : State τ, ((system sb disk).guard (limit sb MAXOPBLOCKS)).Reach s → Safe sb s := by
  intro hsafe
  have hhome : ∀ {i b}, i < 3 → b ∈ behind sb i → sb.Home b := home_of_mem_behind hsb
  obtain ⟨s, h, hs, hproc⟩ := exists_up (τ := τ) sb disk (Nat.le_refl MAXOPBLOCKS)
  -- the three calls start
  obtain ⟨s₀, h₀, hs₀, hproc₀⟩ := reach_beginOp h hs (by omega) (hproc t₀)
  obtain ⟨s₁, h₁, hs₁, hproc₁⟩ := reach_beginOp (t := t₁) h₀ hs₀ (by omega)
    (by rw [hproc₀, Function.update_of_ne h01.symm, hproc])
  obtain ⟨s₂, h₂, hs₂, hproc₂⟩ := reach_beginOp (t := t₂) h₁ hs₁ (by omega)
    (by rw [hproc₁, Function.update_of_ne h12.symm, hproc₀, Function.update_of_ne h02.symm, hproc])
  -- and write ten blocks each
  have hten : ∀ i, ([] : List Nat).length + (behind sb i).length ≤ MAXOPBLOCKS := fun i => by
    rw [behind, List.length_range', List.length_nil, Nat.zero_add]
  obtain ⟨s₃, h₃, hl₃, hproc₃, hlh₃⟩ := reach_logWrites hsafe t₀ (behind sb 0) s₂ [] h₂ hs₂.unlocked
    (by rw [hproc₂, Function.update_of_ne h02, hproc₁, Function.update_of_ne h01, hproc₀,
      Function.update_self])
    (fun b hb => ⟨hhome (by omega) hb, List.not_mem_nil, by rw [hs₂.lh]; exact List.not_mem_nil⟩)
    List.nodup_range' (hten 0)
  obtain ⟨s₄, h₄, hl₄, hproc₄, hlh₄⟩ := reach_logWrites hsafe t₁ (behind sb 1) s₃ [] h₃ hl₃
    (by rw [hproc₃, Function.update_of_ne h01.symm, hproc₂, Function.update_of_ne h12, hproc₁,
      Function.update_self])
    (fun b hb => ⟨hhome (by omega) hb, List.not_mem_nil, by
      rw [hlh₃, hs₂.lh, List.nil_append]
      exact fun hb' => behind_disjoint (by omega) hb' hb⟩)
    List.nodup_range' (hten 1)
  obtain ⟨s₅, h₅, hl₅, hproc₅, hlh₅⟩ := reach_logWrites hsafe t₂ (behind sb 2) s₄ [] h₄ hl₄
    (by rw [hproc₄, Function.update_of_ne h12.symm, hproc₃, Function.update_of_ne h02.symm, hproc₂,
      Function.update_self])
    (fun b hb => ⟨hhome (by omega) hb, List.not_mem_nil, by
      rw [hlh₄, hlh₃, hs₂.lh, List.nil_append, List.mem_append]
      rintro (hb' | hb')
      · exact behind_disjoint (by omega) hb' hb
      · exact behind_disjoint (by omega) hb' hb⟩)
    List.nodup_range' (hten 2)
  -- the header is full; a block that is in it already is logged again
  have hmem : sb.logstart + sb.nlog + MAXOPBLOCKS * 2 ∈ behind sb 2 :=
    mem_behind.mpr ⟨Nat.le_refl _, Nat.lt_add_of_pos_right (by decide)⟩
  obtain ⟨buf, h₆⟩ := reach_modify h₅ hl₅ (t := t₂) (by rw [hproc₅, Function.update_self])
    (hhome (by omega) hmem)
    (.inl (List.mem_append_left _ (List.mem_reverse.mpr hmem)))
  have hno := (hsafe _ h₆).log_write t₂ _ _ (Function.update_self _ _ _)
  have hfull : s₅.lh.length = LOGSIZE := by
    rw [hlh₅, hlh₄, hlh₃, hs₂.lh]
    simp only [behind, List.length_append, List.length_nil, List.length_range']
    rfl
  simp only [panics, Bool.or_eq_false_iff, decide_eq_false_iff_not] at hno
  exact hno.1 (.inl (Nat.le_of_eq hfull.symm))

/-- **The log has room for `MAXOPBLOCKS - 1` blocks a call**, and not for more: on a disk whose log
    has `LOGSIZE` blocks, as mkfs makes it, or more, no run of calls that write at most `M` blocks
    each makes `log_write` or `end_op` panic or the header longer than its array or the log, exactly
    for `M < MAXOPBLOCKS`. -/
theorem log_write_safe_iff {sb : Superblock} (hsb : sb.Roomy) (M : Nat) (disk : Disk) :
    (∀ s : State (Fin NPROC), ((system sb disk).guard (limit sb M)).Reach s → Safe sb s) ↔
      M < MAXOPBLOCKS := by
  constructor
  · intro hsafe
    by_contra hge
    -- the runs of calls of `MAXOPBLOCKS` blocks are among those of calls of `M`
    refine not_safe hsb disk (show (0 : Fin NPROC) ≠ 1 by decide) (show (0 : Fin NPROC) ≠ 2 by decide)
      (show (1 : Fin NPROC) ≠ 2 by decide) fun s h => hsafe s ?_
    exact h.guard_mono (limit_mono (Nat.le_of_not_lt hge))
  · exact fun hlt s h => (Room.reach (Nat.le_of_lt hlt) h).safe hlt hsb.log

/-- On the disk that mkfs makes, calls of 9 blocks are safe and calls of 12 are not. -/
theorem log_write_safe_iff_mkfs :
    ((∀ s : State (Fin NPROC), ((system mkfs fun _ _ => 0).guard (limit mkfs 9)).Reach s →
      Safe mkfs s) ↔ 9 < MAXOPBLOCKS) ∧
    ((∀ s : State (Fin NPROC), ((system mkfs fun _ _ => 0).guard (limit mkfs 12)).Reach s →
      Safe mkfs s) ↔ 12 < MAXOPBLOCKS) :=
  ⟨log_write_safe_iff ⟨by decide, by decide⟩ 9 _, log_write_safe_iff ⟨by decide, by decide⟩ 12 _⟩

end Full

/-! ## `begin_op`: nobody sleeps for good -/

section Sleep

variable {τ : Type} [DecidableEq τ] [Fintype τ]

omit [DecidableEq τ] in
theorem exists_active {s : State τ} {M : Nat} (h : Room M s) (hpos : 0 < s.outstanding) :
    ∃ u, (s.proc u).active = true := by
  by_contra hno
  have hzero : total Proc.opens s.proc = 0 := total_eq_zero.mpr fun u => by
    have hu : (s.proc u).active = false := by
      by_contra ha
      rw [Bool.not_eq_false] at ha
      exact hno ⟨u, ha⟩
    rw [Proc.opens, hu]
    rfl
  rw [h.count] at hpos
  omega

/-- **No wakeup is lost.**  While a process sleeps in `begin_op`, either a call is in progress and
    the log is short of room, or a process is in `end_op` whose own steps lead to the wakeup. -/
theorem begin_op_is_woken {sb : Superblock} {disk : Disk} {M : Nat} (hM : M ≤ MAXOPBLOCKS)
    {s : State τ} (h : ((system sb disk).guard (limit sb M)).Reach s) {t : τ}
    (ht : s.proc t = .asleep) :
    (s.committing = false ∧ (∃ u, (s.proc u).active = true) ∧
      LOGSIZE < s.lh.length + (s.outstanding + 1) * MAXOPBLOCKS) ∨
    ∃ u, s.proc u = .ending ∧ ∃ trs s', (system sb disk).Run s trs s' ∧
      (∀ x ∈ trs, x.2.1 = .advance ∨ x.2.1 = .finish u) ∧ s'.committing = false ∧
      ∀ v, s'.proc v ≠ .asleep := by
  have hroom := Room.reach hM h
  have hup : s.up = true := hroom.up_of_ne_out (t := t) (by rw [ht]; exact fun hp => Proc.noConfusion hp)
  cases hc : s.committing with
  | false =>
    have hfull := (hroom.sleep t ht).resolve_left (by rw [hc]; decide)
    refine .inl ⟨rfl, exists_active hroom ?_, hfull⟩
    by_contra hzero
    -- with no call and no commit the header is empty and there is room
    have hout : s.outstanding = 0 := by omega
    rw [hroom.clean (.inr ⟨hroom.calm hup hc, hout⟩), hout] at hfull
    exact absurd hfull (by decide)
  | true =>
    obtain ⟨-, u, hu⟩ := hroom.quiet hc
    obtain ⟨trs, s₁, hrun, hadv, hpc, hproc, -⟩ := @runs_to_rest _ _ sb disk _ s rfl
    have hfin : (system sb disk).step s₁ (.finish u) (finish s₁ u) :=
      if_pos ⟨by rw [hproc, hu], hpc⟩
    refine .inr ⟨u, hu, trs ++ [(s₁, .finish u, finish s₁ u)], finish s₁ u,
      hrun.append (.cons hfin (.nil _)), ?_, rfl, fun v => wakeup_ne_asleep⟩
    intro x hx
    rcases List.mem_append.mp hx with hx | hx
    · exact .inl (hadv x hx)
    · rw [List.mem_singleton.mp hx]
      exact .inr rfl

theorem begin_op_is_woken_fourth : ∃ s : State (Fin NPROC), s.proc 3 = .asleep ∧
    ((s.committing = false ∧ (∃ u, (s.proc u).active = true) ∧
      LOGSIZE < s.lh.length + (s.outstanding + 1) * MAXOPBLOCKS) ∨
    ∃ u, s.proc u = .ending ∧ ∃ trs s', (system mkfs fun _ _ => 0).Run s trs s' ∧
      (∀ x ∈ trs, x.2.1 = .advance ∨ x.2.1 = .finish u) ∧ s'.committing = false ∧
      ∀ v, s'.proc v ≠ .asleep) := by
  have hM : MAXOPBLOCKS ≤ MAXOPBLOCKS := Nat.le_refl _
  obtain ⟨s, h, hs, hproc⟩ := exists_up (τ := Fin NPROC) mkfs (fun _ _ => 0) hM
  obtain ⟨s₀, h₀, hs₀, hproc₀⟩ := reach_beginOp h hs (by omega) (hproc 0)
  obtain ⟨s₁, h₁, hs₁, hproc₁⟩ := reach_beginOp (t := 1) h₀ hs₀ (by omega)
    (by rw [hproc₀, Function.update_of_ne (by decide), hproc])
  obtain ⟨s₂, h₂, hs₂, hproc₂⟩ := reach_beginOp (t := 2) h₁ hs₁ (by omega)
    (by rw [hproc₁, Function.update_of_ne (by decide), hproc₀, Function.update_of_ne (by decide),
      hproc])
  have hout : s₂.proc 3 = .out := by
    rw [hproc₂, Function.update_of_ne (by decide), hproc₁, Function.update_of_ne (by decide),
      hproc₀, Function.update_of_ne (by decide), hproc]
  -- a fourth call does not fit
  have hfull : mayBegin s₂ = false := by
    simp only [mayBegin, hs₂.committing, hs₂.lh, hs₂.outstanding]
    decide
  have hstep : apply mkfs s₂ (.beginOp 3) = some (setProc s₂ 3 .asleep) := by
    simp only [apply, hs₂.up, hout, true_or, and_self, if_true, beginOp, hfull]
    rfl
  have hsleep : (setProc s₂ 3 .asleep).proc 3 = .asleep := by
    simp only [setProc, Function.update_self]
  exact ⟨_, hsleep, begin_op_is_woken hM (h₂.guarded hstep trivial) hsleep⟩

end Sleep

end OsCodes.Log
