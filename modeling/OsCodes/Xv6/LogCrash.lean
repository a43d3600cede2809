/-
  Crash safety of the log of xv6-public.

  A record keeps two disks that nobody stores: `volatile` is what the calls have written so far, and
  `durable` what it was at the last `write_head` of a commit.  A crash forgets what is volatile.
  `Image` relates them to the disk, the cache and the header in every state: the home blocks of
  `durable` can be recovered from the disk (`Recoverable`), and what `bread` returns is `volatile`.

  Structure:

  1. `record` says what an event means to the callers: a block logged changes `volatile`, a commit
     makes it `durable`, and a crash takes `volatile` back to `durable`;
  2. `Phase` says how far `commit` or `recover_from_log` has come, and which of the blocks on the
     disk are right in that phase;
  3. one lemma for each event; the three that matter are `seal_log`, the write of the header that
     makes the transaction durable, `crash`, which may come before or after it, and `advance`;
  4. `log_crash_safe`: in every run of calls, commits, crashes and recoveries, a read returns what
     was written last, and after a recovery it returns what the committed calls had written.

  The two runs at the end crash in the commit before the header is written, and behind it with one
  block in place, and once more in the recovery.
-/
import OsCodes.Xv6.LogRun

namespace OsCodes.Log

/-! ## What is written and what is durable -/

/-- The disk that would be there if nothing happened but the committed calls, and the one that the
    calls in progress see. -/
structure Record where
  durable : Disk
  volatile : Disk

/-- What an event means to the callers. -/
def record {τ : Type} (s : State τ) (g : Record) : Event τ → Record
  | .modify _ b v => { g with volatile := Function.update g.volatile b v }
  | .advance => if s.pc = .head then { g with durable := g.volatile } else g
  | .crash => { g with volatile := g.durable }
  | _ => g

/-- The runs with their record, where no call writes more than `M` blocks. -/
def recorded {τ : Type} [DecidableEq τ] (sb : Superblock) (M : Nat) (disk : Disk) :
    Lts (State τ × Record) (Event τ) :=
  ((system sb disk).withGhost ⟨disk, disk⟩ record).guard fun s e => limit sb M s.1 e

/-- The state and the record behind an event of callers that keep to `M` blocks. -/
def recordedStep {τ : Type} [DecidableEq τ] (sb : Superblock) (M : Nat) (x : State τ × Record)
    (e : Event τ) : Option (State τ × Record) :=
  if limit sb M x.1 e then (apply sb x.1 e).map fun s => (s, record x.1 x.2 e) else none

/-- A computed run is one with its record. -/
theorem recorded_reach {τ : Type} [DecidableEq τ] {sb : Superblock} {M : Nat} {disk : Disk}
    {l : List (Event τ)} {x : State τ × Record}
    (h : l.foldlM (recordedStep sb M) (poweron disk, ⟨disk, disk⟩) = some x) :
    (recorded sb M disk).Reach x := by
  refine Lts.Reach.foldlM (fun e _ x x' hstep => ⟨e, ?_⟩)
    (.start (s := (poweron disk, ⟨disk, disk⟩)) ⟨rfl, rfl⟩) h
  obtain ⟨hok, hstep⟩ := Option.ite_none_right_eq_some.mp hstep
  obtain ⟨s, hs, rfl⟩ := Option.map_eq_some_iff.mp hstep
  exact ⟨hok, hs, rfl⟩

/-! ## The parts of the disk -/

namespace Superblock

/-- The log block that the copy of `lh.block[i]` goes to. -/
def slot (sb : Superblock) (i : Nat) : Nat := sb.logstart + i + 1

variable {sb : Superblock} {b i j : Nat}

theorem Home.ne_logstart (h : sb.Home b) (hlog : 0 < sb.nlog) : b ≠ sb.logstart := by
  intro hb
  exact h.2 ⟨by omega, by omega⟩

theorem Home.ne_slot (h : sb.Home b) (hi : i + 1 < sb.nlog) : b ≠ sb.slot i := by
  intro hb
  rw [slot] at hb
  exact h.2 ⟨by omega, by omega⟩

theorem slot_ne_logstart : sb.slot i ≠ sb.logstart := by
  rw [slot]
  omega

theorem slot_inj (h : sb.slot i = sb.slot j) : i = j := by
  rw [slot, slot] at h
  omega

end Superblock

/-- A list of blocks that a header may hold. -/
structure Fits (sb : Superblock) (lh : List Nat) : Prop where
  home : ∀ b ∈ lh, sb.Home b
  nodup : lh.Nodup
  short : lh.length ≤ LOGSIZE
  room : lh.length < sb.nlog

theorem Fits.nil {sb : Superblock} (hlog : 0 < sb.nlog) : Fits sb [] :=
  ⟨fun _ hb => absurd hb List.not_mem_nil, List.nodup_nil, Nat.zero_le _, hlog⟩

theorem Fits.readHead_writeHead {sb : Superblock} {lh : List Nat} (h : Fits sb lh) (buf : Data) :
    readHead (writeHead buf lh) = lh :=
  Log.readHead_writeHead buf h.short fun b hb => by
    have hlt : b < 1000 := (h.home b hb).1
    omega

/-- `recover_from_log` brings `D` back: what the header names has its copy in the log, and the other
    blocks are in place. -/
structure Recoverable (sb : Superblock) (disk D : Disk) : Prop where
  fits : Fits sb (readHead (disk sb.logstart))
  copies : ∀ i b, (readHead (disk sb.logstart))[i]? = some b → disk (sb.slot i) = D b
  others : ∀ b, sb.Home b → b ∉ readHead (disk sb.logstart) → disk b = D b

/-! ## The cache -/

section Cache

variable {τ : Type} {s : State τ} {a b : Nat} {v : Data}

/-- What the buffers say about the blocks and the processes. -/
structure Coherent (sb : Superblock) (s : State τ) : Prop where
  clean : ∀ b buf, s.cache b = some buf → buf.dirty = false → buf.lock = none → buf.data = s.disk b
  dirty : ∀ b buf, s.cache b = some buf → buf.dirty = true → s.up = true ∧ b ∈ s.lh
  lock : ∀ b buf t, s.cache b = some buf → buf.lock = some t → (s.proc t).target = some b
  held : ∀ t b, (s.proc t).target = some b → sb.Home b

/-- A pinned buffer. -/
def Pinned (s : State τ) (b : Nat) : Prop := ∃ buf, s.cache b = some buf ∧ buf.dirty = true

theorem look_bread : (s.bread a).look b = s.look b := by
  cases ha : s.cache a with
  | some buf => simp only [State.look, State.bread, ha]
  | none =>
    simp only [State.look, State.bread, ha]
    by_cases hab : b = a
    · rw [hab, Function.update_self, ha]
    · rw [Function.update_of_ne hab]

theorem look_bwrite_self : (s.bwrite a v).look a = v := by
  simp only [State.look, State.bwrite, Function.update_self]

theorem look_bwrite_of_ne (h : b ≠ a) : (s.bwrite a v).look b = s.look b := by
  simp only [State.look, State.bwrite, Function.update_of_ne h]

theorem disk_bwrite_of_ne (h : b ≠ a) : (s.bwrite a v).disk b = s.disk b :=
  Function.update_of_ne h _ _

theorem disk_bwrite_self : (s.bwrite a v).disk a = v := Function.update_self _ _ _

/-- What a buffer that is neither dirty nor locked shows is on the disk. -/
theorem look_eq_disk (hclean : ∀ buf, s.cache b = some buf → buf.data = s.disk b) :
    s.look b = s.disk b := by
  cases hb : s.cache b with
  | some buf =>
    simp only [State.look, hb]
    exact hclean buf hb
  | none => simp only [State.look, hb]

theorem Pinned.bread (h : Pinned s b) (a : Nat) : Pinned (s.bread a) b := by
  obtain ⟨buf, hbuf, hd⟩ := h
  refine ⟨buf, ?_, hd⟩
  cases ha : s.cache a with
  | some old =>
    simp only [State.bread, ha]
    exact hbuf
  | none =>
    simp only [State.bread, ha]
    rw [Function.update_of_ne, hbuf]
    rintro rfl
    rw [ha] at hbuf
    cases hbuf

theorem Pinned.bwrite (h : Pinned s b) (hab : b ≠ a) (v : Data) : Pinned (s.bwrite a v) b := by
  obtain ⟨buf, hbuf, hd⟩ := h
  exact ⟨buf, (Function.update_of_ne hab _ _).trans hbuf, hd⟩

/-- The buffers of a state after `bread` are those before, and one clean one. -/
theorem cache_bread {buf : Buf τ} (h : (s.bread a).cache b = some buf) :
    s.cache b = some buf ∨ b = a ∧ buf = ⟨s.disk b, false, none⟩ := by
  cases ha : s.cache a with
  | some old =>
    simp only [State.bread, ha] at h
    exact .inl h
  | none =>
    simp only [State.bread, ha] at h
    by_cases hab : b = a
    · rw [hab, Function.update_self] at h
      rw [hab]
      exact .inr ⟨rfl, (Option.some.inj h).symm⟩
    · rw [Function.update_of_ne hab] at h
      exact .inl h

theorem cache_bwrite {buf : Buf τ} (h : (s.bwrite a v).cache b = some buf) :
    b = a ∧ buf = ⟨v, false, none⟩ ∨ b ≠ a ∧ s.cache b = some buf := by
  by_cases hab : b = a
  · rw [hab, show (s.bwrite a v).cache a = _ from Function.update_self _ _ _] at h
    exact .inl ⟨hab, (Option.some.inj h).symm⟩
  · exact .inr ⟨hab, (Function.update_of_ne hab _ _).symm.trans h⟩

theorem Coherent.moved {sb : Superblock} (h : Coherent sb s) (pc : Pc) :
    Coherent sb { s with pc := pc } :=
  ⟨h.clean, h.dirty, h.lock, h.held⟩

theorem Coherent.bread {sb : Superblock} (h : Coherent sb s) (a : Nat) : Coherent sb (s.bread a) where
  clean b buf hb hd hl := by
    rcases cache_bread hb with hb | ⟨-, rfl⟩
    · exact h.clean b buf hb hd hl
    · rfl
  dirty b buf hb hd := by
    rcases cache_bread hb with hb | ⟨-, rfl⟩
    · exact h.dirty b buf hb hd
    · cases hd
  lock b buf t hb hl := by
    rcases cache_bread hb with hb | ⟨-, rfl⟩
    · exact h.lock b buf t hb hl
    · cases hl
  held := h.held

theorem Coherent.bwrite {sb : Superblock} (h : Coherent sb s) (a : Nat) (v : Data) :
    Coherent sb (s.bwrite a v) where
  clean b buf hb hd hl := by
    rcases cache_bwrite hb with ⟨rfl, rfl⟩ | ⟨hne, hb⟩
    · exact disk_bwrite_self.symm
    · exact (h.clean b buf hb hd hl).trans (disk_bwrite_of_ne hne).symm
  dirty b buf hb hd := by
    rcases cache_bwrite hb with ⟨-, rfl⟩ | ⟨-, hb⟩
    · cases hd
    · exact h.dirty b buf hb hd
  lock b buf t hb hl := by
    rcases cache_bwrite hb with ⟨-, rfl⟩ | ⟨-, hb⟩
    · cases hl
    · exact h.lock b buf t hb hl
  held := h.held

end Cache

/-! ## The invariant -/

section Image

variable {τ : Type}

/-- Nothing of the current transaction is committed, and its blocks are pinned in the cache. -/
structure Unsealed (sb : Superblock) (s : State τ) : Prop where
  up : s.up = true
  header : readHead (s.disk sb.logstart) = []
  pinned : ∀ b ∈ s.lh, Pinned s b

/-- How far `commit` or `recover_from_log` has come. -/
def Phase (sb : Superblock) (s : State τ) (g : Record) : Prop :=
  match s.pc with
  | .rest => Unsealed sb s
  | .writeLog tail => Unsealed sb s ∧
      ∀ i b, i < tail → s.lh[i]? = some b → s.disk (sb.slot i) = g.volatile b
  | .head => Unsealed sb s ∧ ∀ i b, s.lh[i]? = some b → s.disk (sb.slot i) = g.volatile b
  | .install tail => readHead (s.disk sb.logstart) = s.lh ∧
      (∀ i b, i < tail → s.lh[i]? = some b → s.disk b = g.durable b ∧ ¬ Pinned s b) ∧
      (s.up = true → ∀ i b, tail ≤ i → s.lh[i]? = some b → Pinned s b) ∧
      ∀ b, sb.Home b → g.volatile b = g.durable b
  | .erase => s.lh = [] ∧ ∀ b, sb.Home b → s.disk b = g.durable b ∧ g.volatile b = g.durable b
  | .boot => ∀ b, sb.Home b → g.volatile b = g.durable b

/-- What holds of the disk, the cache and the record in every state. -/
structure Image (sb : Superblock) (s : State τ) (g : Record) : Prop where
  coherent : Coherent sb s
  recoverable : Recoverable sb s.disk g.durable
  fits : Fits sb s.lh
  view : s.up = true → ∀ b, sb.Home b → s.look b = g.volatile b
  phase : Phase sb s g

variable {sb : Superblock} {s s' : State τ} {g : Record} {M : Nat}

/-- Of the cache, only the pinned buffers matter. -/
theorem Phase.cache (h : Phase sb s g) {c : Nat → Option (Buf τ)}
    (hpin : ∀ a, Pinned { s with cache := c } a ↔ Pinned s a) :
    Phase sb { s with cache := c } g := by
  have hu : Unsealed sb s → Unsealed sb { s with cache := c } := fun hu =>
    ⟨hu.up, hu.header, fun a ha => (hpin a).mpr (hu.pinned a ha)⟩
  obtain ⟨disk, cache, lh, outstanding, committing, up, pc, proc⟩ := s
  cases pc with
  | rest => exact hu h
  | writeLog tail => exact ⟨hu h.1, h.2⟩
  | head => exact ⟨hu h.1, h.2⟩
  | install tail =>
    obtain ⟨hhead, hdone, hrest, hset⟩ := h
    exact ⟨hhead, fun i a hi ha => ⟨(hdone i a hi ha).1, fun hn => (hdone i a hi ha).2 ((hpin a).mp hn)⟩,
      fun hup i a hi ha => (hpin a).mpr (hrest hup i a hi ha), hset⟩
  | erase => exact h
  | boot => exact h

/-- Of the processes, nothing matters. -/
theorem Phase.procs (h : Phase sb s g) (proc : τ → Proc) (n : Nat) (c : Bool) :
    Phase sb { s with proc := proc, outstanding := n, committing := c } g := by
  have hu : Unsealed sb s → Unsealed sb { s with proc := proc, outstanding := n, committing := c } :=
    fun hu => ⟨hu.up, hu.header, hu.pinned⟩
  obtain ⟨disk, cache, lh, outstanding, committing, up, pc, proc'⟩ := s
  cases pc with
  | rest => exact hu h
  | writeLog tail => exact ⟨hu h.1, h.2⟩
  | head => exact ⟨hu h.1, h.2⟩
  | install tail => exact h
  | erase => exact h
  | boot => exact h

theorem Proc.target_eq_none {p : Proc} (h : p.active = false) : p.target = none := by
  cases p with
  | holding mine b => cases h
  | checked mine b => cases h
  | _ => rfl

namespace Image

/-- The cache shows of the log what is on the disk. -/
theorem look_log (h : Image sb s g) {b : Nat} (hb : ¬ sb.Home b) : s.look b = s.disk b := by
  refine look_eq_disk fun buf hbuf => h.coherent.clean b buf hbuf ?_ ?_
  · by_contra hd
    rw [Bool.not_eq_false] at hd
    exact hb (h.fits.home b (h.coherent.dirty b buf hbuf hd).2)
  · cases hl : buf.lock with
    | none => rfl
    | some t => exact absurd (h.coherent.held t b (h.coherent.lock b buf t hbuf hl)) hb

/-- With no call in progress, the cache differs from the disk in the logged blocks only. -/
theorem look_idle (h : Image sb s g) (hidle : ∀ t, (s.proc t).active = false) {b : Nat}
    (hb : b ∉ s.lh) : s.look b = s.disk b := by
  refine look_eq_disk fun buf hbuf => h.coherent.clean b buf hbuf ?_ ?_
  · by_contra hd
    rw [Bool.not_eq_false] at hd
    exact hb (h.coherent.dirty b buf hbuf hd).2
  · cases hl : buf.lock with
    | none => rfl
    | some t =>
      have := h.coherent.lock b buf t hbuf hl
      rw [Proc.target_eq_none (hidle t)] at this
      cases this

/-- Before the header is written, the home blocks hold what is durable. -/
theorem disk_unsealed (h : Image sb s g) (hu : Unsealed sb s) {b : Nat} (hb : sb.Home b) :
    s.disk b = g.durable b :=
  h.recoverable.others b hb (by rw [hu.header]; exact List.not_mem_nil)

/-- Processes come and go, and `commit` starts. -/
theorem control (h : Image sb s g) {proc : τ → Proc} {n : Nat} {c : Bool} {pc : Pc}
    (hproc : ∀ u, (proc u).target = (s.proc u).target)
    (hphase : Phase sb { s with proc := proc, outstanding := n, committing := c, pc := pc } g) :
    Image sb { s with proc := proc, outstanding := n, committing := c, pc := pc } g where
  coherent :=
    { clean := h.coherent.clean
      dirty := h.coherent.dirty
      lock := fun b buf t hb hl => (hproc t).trans (h.coherent.lock b buf t hb hl)
      held := fun t b ht => h.coherent.held t b ((hproc t).symm.trans ht) }
  recoverable := h.recoverable
  fits := h.fits
  view := h.view
  phase := hphase

theorem target_update [DecidableEq τ] {t : τ} {x : Proc} (hx : x.target = (s.proc t).target) (u : τ) :
    (Function.update s.proc t x u).target = (s.proc u).target := by
  by_cases hu : u = t
  · rw [hu, Function.update_self, hx]
  · rw [Function.update_of_ne hu]

/-- **A block read into the cache.** -/
theorem bread (h : Image sb s g) (b : Nat) : Image sb (s.bread b) g where
  coherent := h.coherent.bread b
  recoverable := h.recoverable
  fits := h.fits
  view hup a ha := look_bread.trans (h.view hup a ha)
  phase := h.phase.cache fun a => by
    constructor
    · rintro ⟨buf, hbuf, hd⟩
      rcases cache_bread hbuf with hbuf | ⟨-, rfl⟩
      · exact ⟨buf, hbuf, hd⟩
      · cases hd
    · exact fun hp => hp.bread b

/-- Phases in which the header on the disk is empty. -/
theorem phase_rest (h : Phase sb s g) (hpc : s.pc = .rest) : Unsealed sb s := by
  unfold Phase at h
  rwa [hpc] at h

theorem rest_phase (h : Unsealed sb s) (hpc : s.pc = .rest) : Phase sb s g := by
  unfold Phase
  rw [hpc]
  exact h

/-- **A buffer recycled**: what it held is on the disk, so the image stays. -/
theorem evict (h : Image sb s g) {b : Nat} {data : Data} (hb : s.cache b = some ⟨data, false, none⟩) :
    Image sb { s with cache := Function.update s.cache b none } g := by
  have hold : ∀ {a buf}, Function.update s.cache b none a = some buf → s.cache a = some buf := by
    intro a buf ha
    rcases update_eq_cases ha with ⟨-, hx⟩ | ⟨-, ha⟩
    · cases hx
    · exact ha
  constructor
  case coherent =>
    exact { clean := fun a buf ha => h.coherent.clean a buf (hold ha)
            dirty := fun a buf ha => h.coherent.dirty a buf (hold ha)
            lock := fun a buf t ha => h.coherent.lock a buf t (hold ha)
            held := h.coherent.held }
  case recoverable => exact h.recoverable
  case fits => exact h.fits
  case view =>
    intro hup a ha
    rw [← h.view hup a ha]
    by_cases hab : a = b
    · rw [hab]
      simp only [State.look, Function.update_self, hb]
      exact (h.coherent.clean b _ hb rfl rfl).symm
    · simp only [State.look, Function.update_of_ne hab]
  case phase =>
    refine h.phase.cache fun a => ⟨fun ⟨buf, hbuf, hd⟩ => ⟨buf, hold hbuf, hd⟩, ?_⟩
    rintro ⟨buf, hbuf, hd⟩
    refine ⟨buf, (Function.update_of_ne ?_ _ _).trans hbuf, hd⟩
    rintro rfl
    rw [hb] at hbuf
    cases hbuf
    cases hd

/-- **A block modified in the cache**, under its lock. -/
theorem modify [DecidableEq τ] (h : Image sb s g) (hpc : s.pc = .rest) {t : τ} {mine : List Nat}
    {b : Nat} {data v : Data} {dirty : Bool} (ht : s.proc t = .inOp mine)
    (hb : s.cache b = some ⟨data, dirty, none⟩) (hhome : sb.Home b) :
    Image sb { setProc s t (.holding mine b) with
      cache := Function.update s.cache b (some ⟨v, dirty, some t⟩) }
      { g with volatile := Function.update g.volatile b v } := by
  have htarget : ∀ u, u ≠ t → (Function.update s.proc t (.holding mine b) u).target =
      (s.proc u).target := fun u hu => by rw [Function.update_of_ne hu]
  constructor
  case coherent =>
    constructor
    case clean =>
      intro a buf ha hd hl
      rcases update_eq_cases ha with ⟨-, hx⟩ | ⟨-, ha⟩
      · cases hx
        cases hl
      · exact h.coherent.clean a buf ha hd hl
    case dirty =>
      intro a buf ha hd
      rcases update_eq_cases ha with ⟨rfl, hx⟩ | ⟨-, ha⟩
      · cases hx
        exact h.coherent.dirty a _ hb hd
      · exact h.coherent.dirty a buf ha hd
    case lock =>
      intro a buf u ha hl
      show (Function.update s.proc t (.holding mine b) u).target = some a
      rcases update_eq_cases ha with ⟨rfl, hx⟩ | ⟨-, ha⟩
      · cases hx
        cases hl
        rw [Function.update_self]
        rfl
      · have hold := h.coherent.lock a buf u ha hl
        rw [htarget u, hold]
        rintro rfl
        rw [ht] at hold
        cases hold
    case held =>
      intro u a hu
      have hu' : (Function.update s.proc t (.holding mine b) u).target = some a := hu
      by_cases hut : u = t
      · rw [hut, Function.update_self] at hu'
        cases hu'
        exact hhome
      · rw [htarget u hut] at hu'
        exact h.coherent.held u a hu'
  case recoverable => exact h.recoverable
  case fits => exact h.fits
  case view =>
    intro hup a ha
    by_cases hab : a = b
    · rw [hab]
      simp only [State.look, Function.update_self]
    · have hold := h.view hup a ha
      simp only [State.look, Function.update_of_ne hab] at hold ⊢
      exact hold
  case phase =>
    have hu := phase_rest h.phase hpc
    refine rest_phase ⟨hu.up, hu.header, fun a ha => ?_⟩ hpc
    obtain ⟨buf, hbuf, hd⟩ := hu.pinned a ha
    by_cases hab : a = b
    · rw [hab, hb] at hbuf
      cases hbuf
      rw [hab]
      exact ⟨_, Function.update_self _ _ _, hd⟩
    · exact ⟨buf, (Function.update_of_ne hab _ _).trans hbuf, hd⟩

/-- **A block logged**: it is pinned from now on. -/
theorem write [DecidableEq τ] (h : Image sb s g) (hpc : s.pc = .rest) (hup : s.up = true) {t : τ}
    {mine : List Nat} {b : Nat} {buf : Buf τ} (ht : s.proc t = .checked mine b)
    (hb : s.cache b = some buf)
    (hshort : (logWrite s t mine b buf).lh.length ≤ LOGSIZE)
    (hroom : (logWrite s t mine b buf).lh.length < sb.nlog) :
    Image sb (logWrite s t mine b buf) g := by
  have hhome : sb.Home b := h.coherent.held t b (by rw [ht]; rfl)
  have hmem : ∀ a, a ∈ (logWrite s t mine b buf).lh ↔ a ∈ s.lh ∨ a = b := by
    intro a
    show (a ∈ if b ∈ s.lh then s.lh else s.lh ++ [b]) ↔ _
    split
    · rename_i hin
      constructor
      · exact .inl
      · rintro (ha | rfl)
        · exact ha
        · exact hin
    · rw [List.mem_append, List.mem_singleton]
  have hpin := phase_rest h.phase hpc
  constructor
  case coherent =>
    constructor
    case clean =>
      intro a buf' ha hd hl
      rcases update_eq_cases ha with ⟨-, hx⟩ | ⟨-, ha⟩
      · cases hx
        cases hd
      · exact h.coherent.clean a buf' ha hd hl
    case dirty =>
      intro a buf' ha hd
      rcases update_eq_cases ha with ⟨rfl, -⟩ | ⟨-, ha⟩
      · exact ⟨hup, (hmem a).mpr (.inr rfl)⟩
      · exact ⟨hup, (hmem a).mpr (.inl (h.coherent.dirty a buf' ha hd).2)⟩
    case lock =>
      intro a buf' u ha hl
      rcases update_eq_cases ha with ⟨-, hx⟩ | ⟨hne, ha⟩
      · cases hx
        cases hl
      · have hold := h.coherent.lock a buf' u ha hl
        show (Function.update s.proc t _ u).target = some a
        rw [Function.update_of_ne, hold]
        rintro rfl
        rw [ht] at hold
        exact hne (Option.some.inj hold).symm
    case held =>
      intro u a hu
      have hu' : (Function.update s.proc t _ u).target = some a := hu
      by_cases hut : u = t
      · rw [hut, Function.update_self] at hu'
        cases hu'
      · rw [Function.update_of_ne hut] at hu'
        exact h.coherent.held u a hu'
  case recoverable => exact h.recoverable
  case fits =>
    refine ⟨fun a ha => ?_, ?_, hshort, hroom⟩
    · rcases (hmem a).mp ha with ha | rfl
      · exact h.fits.home a ha
      · exact hhome
    · show (if b ∈ s.lh then s.lh else s.lh ++ [b]).Nodup
      split
      · exact h.fits.nodup
      · rename_i hnot
        rw [List.nodup_append]
        refine ⟨h.fits.nodup, List.nodup_singleton b, fun a ha c hc => ?_⟩
        rw [List.mem_singleton.mp hc]
        rintro rfl
        exact hnot ha
  case view =>
    intro _ a ha
    rw [← h.view hup a ha]
    by_cases hab : a = b
    · rw [hab]
      simp only [logWrite, State.look, Function.update_self, hb]
    · simp only [logWrite, State.look, setProc, Function.update_of_ne hab]
  case phase =>
    refine rest_phase ⟨hup, hpin.header, fun a ha => ?_⟩ hpc
    by_cases hab : a = b
    · rw [hab]
      exact ⟨_, Function.update_self _ _ _, rfl⟩
    · obtain ⟨buf', hbuf, hd⟩ := hpin.pinned a (((hmem a).mp ha).resolve_right hab)
      exact ⟨buf', (Function.update_of_ne hab _ _).trans hbuf, hd⟩

/-! ### Recovery and commit -/

/-- **`read_head`** after a crash. -/
theorem boot (h : Image sb s g) (hup : s.up = false) (hpc : s.pc = .boot) (hlog : 0 < sb.nlog) :
    Image sb { s.bread sb.logstart with lh := readHead (s.look sb.logstart), pc := .install 0 } g := by
  have hstart : ¬ sb.Home sb.logstart := fun hb => hb.ne_logstart hlog rfl
  have hset := h.phase
  unfold Phase at hset
  rw [hpc] at hset
  rw [h.look_log hstart]
  have hb := (h.bread sb.logstart).coherent
  exact
    { coherent :=
        { clean := hb.clean
          dirty := fun b buf hbuf hd => absurd (hb.dirty b buf hbuf hd).1 (by
            rw [show (s.bread sb.logstart).up = false from hup]
            decide)
          lock := hb.lock
          held := hb.held }
      recoverable := h.recoverable
      fits := h.recoverable.fits
      view := fun hu => absurd (show s.up = true from hu) (by rw [hup]; decide)
      phase := ⟨rfl, fun i b hi => absurd hi (Nat.not_lt_zero i),
        fun hu => absurd (show s.up = true from hu) (by rw [hup]; decide), hset⟩ }

/-- **`write_log`**, one block: it goes into the log, where no header counts it yet. -/
theorem writeLog (h : Image sb s g) {tail b : Nat} (hpc : s.pc = .writeLog tail)
    (hb : s.lh[tail]? = some b) :
    Image sb { s.writeLog (sb.slot tail) b with pc := .writeLog (tail + 1) } g := by
  have hp := h.phase
  unfold Phase at hp
  rw [hpc] at hp
  obtain ⟨hu, hcopies⟩ := hp
  obtain ⟨hlt, hget⟩ := List.getElem?_eq_some_iff.mp hb
  have hfits := h.fits.room
  have hslot : ∀ a, sb.Home a → a ≠ sb.slot tail := fun a ha => ha.ne_slot (by omega)
  have hhead : (s.writeLog (sb.slot tail) b).disk sb.logstart = s.disk sb.logstart :=
    disk_bwrite_of_ne Superblock.slot_ne_logstart.symm
  have hhome : sb.Home b := h.fits.home b (hget ▸ List.getElem_mem hlt)
  constructor
  case coherent => exact ((h.coherent.bread b).bwrite _ _).moved _
  case recoverable =>
    have hnil : readHead ((s.writeLog (sb.slot tail) b).disk sb.logstart) = [] := by
      rw [hhead, hu.header]
    refine ⟨?_, fun i a ha => ?_, fun a ha _ => ?_⟩
    · show Fits sb (readHead ((s.writeLog (sb.slot tail) b).disk sb.logstart))
      rw [hhead]
      exact h.recoverable.fits
    · have ha' : (readHead ((s.writeLog (sb.slot tail) b).disk sb.logstart))[i]? = some a := ha
      rw [hnil] at ha'
      cases ha'
    · exact (disk_bwrite_of_ne (hslot a ha)).trans (h.disk_unsealed hu ha)
  case fits => exact h.fits
  case view =>
    intro _ a ha
    rw [← h.view hu.up a ha]
    exact (look_bwrite_of_ne (hslot a ha)).trans look_bread
  case phase =>
    refine ⟨⟨hu.up, hhead ▸ hu.header, fun a ha => ?_⟩, fun i a hi ha => ?_⟩
    · exact ((hu.pinned a ha).bread b).bwrite (hslot a (h.fits.home a ha)) _
    · rcases Nat.lt_succ_iff_lt_or_eq.mp hi with hi | rfl
      · have hne : sb.slot i ≠ sb.slot tail := fun heq => by
          have := Superblock.slot_inj heq
          omega
        exact (disk_bwrite_of_ne hne).trans (hcopies i a hi ha)
      · obtain rfl : a = b := Option.some.inj (ha.symm.trans hb)
        exact disk_bwrite_self.trans (h.view hu.up a hhome)

/-- **`write_head`**, the commit: what was volatile is durable. -/
theorem seal_log (h : Image sb s g) (hpc : s.pc = .head) (hidle : ∀ t, (s.proc t).active = false)
    (hlog : 0 < sb.nlog) :
    Image sb { s.writeHead sb with pc := .install 0 } { g with durable := g.volatile } := by
  have hp := h.phase
  unfold Phase at hp
  rw [hpc] at hp
  obtain ⟨hu, hcopies⟩ := hp
  have hstart : ∀ a, sb.Home a → a ≠ sb.logstart := fun a ha => ha.ne_logstart hlog
  have hhead : readHead ((s.writeHead sb).disk sb.logstart) = s.lh := by
    rw [State.writeHead, disk_bwrite_self, h.fits.readHead_writeHead]
  constructor
  case coherent => exact (h.coherent.bwrite _ _).moved _
  case recoverable =>
    refine ⟨?_, fun i a ha => ?_, fun a ha hnot => ?_⟩
    · show Fits sb (readHead ((s.writeHead sb).disk sb.logstart))
      rw [hhead]
      exact h.fits
    · have ha' : (readHead ((s.writeHead sb).disk sb.logstart))[i]? = some a := ha
      rw [hhead] at ha'
      exact (disk_bwrite_of_ne Superblock.slot_ne_logstart).trans (hcopies i a ha')
    · have hnot' : a ∉ readHead ((s.writeHead sb).disk sb.logstart) := hnot
      rw [hhead] at hnot'
      exact (disk_bwrite_of_ne (hstart a ha)).trans
        ((h.look_idle hidle hnot').symm.trans (h.view hu.up a ha))
  case fits => exact h.fits
  case view =>
    intro _ a ha
    rw [← h.view hu.up a ha]
    exact look_bwrite_of_ne (hstart a ha)
  case phase =>
    refine ⟨hhead, fun i a hi => absurd hi (Nat.not_lt_zero i), fun _ i a _ ha => ?_, fun _ _ => rfl⟩
    have ha' := List.mem_of_getElem? ha
    exact (hu.pinned a ha').bwrite (hstart a (h.fits.home a ha')) _

/-- **`install_trans`**, one block: it goes to its home, and the log still has it. -/
theorem installTrans (h : Image sb s g) {tail b : Nat} (hpc : s.pc = .install tail)
    (hb : s.lh[tail]? = some b) (hlog : 0 < sb.nlog) :
    Image sb { s.installTrans (sb.slot tail) b with pc := .install (tail + 1) } g := by
  have hp := h.phase
  unfold Phase at hp
  rw [hpc] at hp
  obtain ⟨hhead, hdone, hrest, hset⟩ := hp
  obtain ⟨hlt, hget⟩ := List.getElem?_eq_some_iff.mp hb
  have hfits := h.fits.room
  have hhome : sb.Home b := h.fits.home b (hget ▸ List.getElem_mem hlt)
  have hslot : ∀ i, i < s.lh.length → sb.slot i ≠ b := fun i hi => (hhome.ne_slot (by omega)).symm
  have hcopy : s.look (sb.slot tail) = g.durable b := by
    rw [h.look_log fun hs => hs.ne_slot (by omega) rfl]
    exact h.recoverable.copies tail b (by rw [hhead]; exact hb)
  have hstart : (s.installTrans (sb.slot tail) b).disk sb.logstart = s.disk sb.logstart :=
    disk_bwrite_of_ne (hhome.ne_logstart hlog).symm
  -- no block stands in the header twice
  have hother : ∀ i a, i ≠ tail → s.lh[i]? = some a → a ≠ b := by
    rintro i a hi ha rfl
    obtain ⟨hilt, higet⟩ := List.getElem?_eq_some_iff.mp ha
    exact hi ((h.fits.nodup.getElem_inj_iff).mp (higet.trans hget.symm))
  constructor
  case coherent => exact ((h.coherent.bread _).bwrite _ _).moved _
  case recoverable =>
    refine ⟨?_, fun i a ha => ?_, fun a ha hnot => ?_⟩
    · show Fits sb (readHead ((s.installTrans (sb.slot tail) b).disk sb.logstart))
      rw [hstart]
      exact h.recoverable.fits
    · have ha' : (readHead ((s.installTrans (sb.slot tail) b).disk sb.logstart))[i]? = some a := ha
      rw [hstart] at ha'
      have hi : i < s.lh.length := by
        rw [hhead] at ha'
        exact (List.getElem?_eq_some_iff.mp ha').1
      exact (disk_bwrite_of_ne (hslot i hi)).trans (h.recoverable.copies i a ha')
    · have hnot' : a ∉ readHead ((s.installTrans (sb.slot tail) b).disk sb.logstart) := hnot
      rw [hstart] at hnot'
      have hab : a ≠ b := by
        rintro rfl
        rw [hhead] at hnot'
        exact hnot' (hget ▸ List.getElem_mem hlt)
      exact (disk_bwrite_of_ne hab).trans (h.recoverable.others a ha hnot')
  case fits => exact h.fits
  case view =>
    intro hup a ha
    by_cases hab : a = b
    · rw [hab, hset b hhome]
      exact look_bwrite_self.trans hcopy
    · exact (look_bwrite_of_ne hab).trans (look_bread.trans (h.view hup a ha))
  case phase =>
    refine ⟨hstart ▸ hhead, fun i a hi ha => ?_, fun hup i a hi ha => ?_, hset⟩
    · rcases Nat.lt_succ_iff_lt_or_eq.mp hi with hi | rfl
      · have hab := hother i a (by omega) ha
        obtain ⟨hdisk, hnot⟩ := hdone i a hi ha
        refine ⟨(disk_bwrite_of_ne hab).trans hdisk, ?_⟩
        rintro ⟨buf, hbuf, hd⟩
        rcases cache_bwrite hbuf with ⟨rfl, -⟩ | ⟨-, hbuf⟩
        · exact hab rfl
        · rcases cache_bread hbuf with hbuf | ⟨-, rfl⟩
          · exact hnot ⟨buf, hbuf, hd⟩
          · cases hd
      · obtain rfl : a = b := Option.some.inj (ha.symm.trans hb)
        refine ⟨disk_bwrite_self.trans hcopy, ?_⟩
        rintro ⟨buf, hbuf, hd⟩
        rcases cache_bwrite hbuf with ⟨-, rfl⟩ | ⟨hne, -⟩
        · cases hd
        · exact hne rfl
    · exact ((hrest hup i a (by omega) ha).bread _).bwrite (hother i a (by omega) ha) _

/-- All blocks are in place. -/
theorem installed (h : Image sb s g) {tail : Nat} (hpc : s.pc = .install tail)
    (hb : s.lh[tail]? = none) (hlog : 0 < sb.nlog) :
    Image sb { s with lh := [], pc := .erase } g := by
  have hp := h.phase
  unfold Phase at hp
  rw [hpc] at hp
  obtain ⟨hhead, hdone, -, hset⟩ := hp
  have hle := List.getElem?_eq_none_iff.mp hb
  have hall : ∀ a ∈ s.lh, s.disk a = g.durable a ∧ ¬ Pinned s a := by
    intro a ha
    obtain ⟨i, hi, rfl⟩ := List.getElem_of_mem ha
    exact hdone i _ (by omega) (List.getElem?_eq_getElem hi)
  exact
    { coherent :=
        { clean := h.coherent.clean
          dirty := fun b buf hbuf hd =>
            absurd ⟨buf, hbuf, hd⟩ (hall b (h.coherent.dirty b buf hbuf hd).2).2
          lock := h.coherent.lock
          held := h.coherent.held }
      recoverable := h.recoverable
      fits := Fits.nil hlog
      view := h.view
      phase := ⟨rfl, fun a ha => ⟨by
        by_cases hin : a ∈ s.lh
        · exact (hall a hin).1
        · exact h.recoverable.others a ha (by rw [hhead]; exact hin), hset a ha⟩⟩ }

/-- **`write_head`** with an empty header. -/
theorem erase (h : Image sb s g) (hpc : s.pc = .erase) (hidle : ∀ t, (s.proc t).active = false)
    (hlog : 0 < sb.nlog) :
    Image sb { s.writeHead sb with pc := .rest, up := true } g := by
  have hp := h.phase
  unfold Phase at hp
  rw [hpc] at hp
  obtain ⟨hlh, hplace⟩ := hp
  have hstart : ∀ a, sb.Home a → a ≠ sb.logstart := fun a ha => ha.ne_logstart hlog
  have hhead : readHead ((s.writeHead sb).disk sb.logstart) = [] := by
    rw [State.writeHead, disk_bwrite_self, h.fits.readHead_writeHead, hlh]
  have hb := h.coherent.bwrite sb.logstart (Log.writeHead (s.look sb.logstart) s.lh)
  exact
    { coherent :=
        { clean := hb.clean
          dirty := fun b buf hbuf hd => ⟨rfl, (hb.dirty b buf hbuf hd).2⟩
          lock := hb.lock
          held := hb.held }
      recoverable :=
        { fits := by
            show Fits sb (readHead ((s.writeHead sb).disk sb.logstart))
            rw [hhead]
            exact Fits.nil hlog
          copies := fun i a ha => by
            have ha' : (readHead ((s.writeHead sb).disk sb.logstart))[i]? = some a := ha
            rw [hhead] at ha'
            cases ha'
          others := fun a ha _ => (disk_bwrite_of_ne (hstart a ha)).trans (hplace a ha).1 }
      fits := h.fits
      view := fun _ a ha => (look_bwrite_of_ne (hstart a ha)).trans
        ((h.look_idle hidle (by rw [hlh]; exact List.not_mem_nil)).trans
          ((hplace a ha).1.trans (hplace a ha).2.symm))
      phase := ⟨rfl, hhead, fun b hbm => by
        have hbm' : b ∈ s.lh := hbm
        rw [hlh] at hbm'
        cases hbm'⟩ }

section Step

variable [Fintype τ]

/-- **A step of `commit` or `recover_from_log`.** -/
theorem advance (h : Image sb s g) (hroom : Room M s) (hlog : 0 < sb.nlog)
    (hs : Log.advance sb s = some s') :
    Image sb s' (if s.pc = .head then { g with durable := g.volatile } else g) := by
  have hidle : s.pc ≠ .rest → ∀ t, (s.proc t).active = false := fun hpc => hroom.idle (hroom.busy hpc)
  have hnot : ∀ {pc : Pc}, pc ≠ .head → s.pc = pc →
      (if s.pc = .head then { g with durable := g.volatile } else g) = g :=
    fun hne hpc => if_neg (by rw [hpc]; exact hne)
  rcases advance_cases hs with ⟨hpc, rfl⟩ | ⟨tail, b, hpc, hb, rfl⟩ | ⟨tail, hpc, hb, rfl⟩ |
    ⟨hpc, rfl⟩ | ⟨tail, b, hpc, hb, rfl⟩ | ⟨tail, hpc, hb, rfl⟩ | ⟨hpc, rfl⟩
  · rw [hnot (fun hp => Pc.noConfusion hp) hpc]
    refine h.boot ?_ hpc hlog
    by_contra hup
    rw [Bool.not_eq_false] at hup
    exact hroom.booted hup hpc
  · rw [hnot (fun hp => Pc.noConfusion hp) hpc]
    exact h.writeLog hpc hb
  · rw [hnot (fun hp => Pc.noConfusion hp) hpc]
    have hp := h.phase
    unfold Phase at hp
    rw [hpc] at hp
    obtain ⟨hu, hcopies⟩ := hp
    have hle := List.getElem?_eq_none_iff.mp hb
    refine ⟨h.coherent.moved _, h.recoverable, h.fits, h.view, ⟨hu.up, hu.header, hu.pinned⟩, ?_⟩
    intro i b hi
    have hlt : i < s.lh.length := (List.getElem?_eq_some_iff.mp hi).1
    exact hcopies i b (by omega) hi
  · rw [if_pos hpc]
    exact h.seal_log hpc (hidle (by rw [hpc]; decide)) hlog
  · rw [hnot (fun hp => Pc.noConfusion hp) hpc]
    exact h.installTrans hpc hb hlog
  · rw [hnot (fun hp => Pc.noConfusion hp) hpc]
    exact h.installed hpc hb hlog
  · rw [hnot (fun hp => Pc.noConfusion hp) hpc]
    exact h.erase hpc (hidle (by rw [hpc]; decide)) hlog

omit [Fintype τ] in
/-- **A crash** leaves what is durable. -/
theorem crash (h : Image sb s g) (hlog : 0 < sb.nlog) :
    Image sb (crash s) { g with volatile := g.durable } where
  coherent :=
    { clean := fun _ _ hb => by cases hb
      dirty := fun _ _ hb => by cases hb
      lock := fun _ _ _ hb => by cases hb
      held := fun _ _ ht => by cases ht }
  recoverable := h.recoverable
  fits := Fits.nil hlog
  view hup := by cases hup
  phase _ _ := rfl

/-- **Every step** keeps the invariant. -/
theorem step [DecidableEq τ] {e : Event τ} (h : Image sb s g) (hroom : Room M s)
    (hM : M < MAXOPBLOCKS) (hlog : LOGSIZE ≤ sb.nlog) (hok : limit sb M s e)
    (hs : apply sb s e = some s') : Image sb s' (record s g e) := by
  have hpos : 0 < sb.nlog := Nat.lt_of_lt_of_le (by decide) hlog
  cases e with
  | beginOp t =>
    obtain ⟨hup, ht, rfl⟩ := apply_beginOp hs
    have hnone : (s.proc t).target = none := by rcases ht with ht | ht <;> rw [ht] <;> rfl
    unfold beginOp
    split
    · exact h.control (target_update hnone.symm) (h.phase.procs _ _ _)
    · exact h.control (target_update hnone.symm) (h.phase.procs _ _ _)
  | modify t b v =>
    obtain ⟨mine, data, dirty, ht, hb, rfl⟩ := apply_modify hs
    have hup : s.up = true :=
      hroom.up_of_ne_out (t := t) (by rw [ht]; exact fun hp => Proc.noConfusion hp)
    have hc := hroom.not_committing (hroom.outstanding_pos (t := t) (by rw [ht]; rfl))
    exact h.modify (hroom.calm hup hc) ht hb hok.1
  | check t =>
    obtain ⟨mine, b, ht, -, rfl⟩ := apply_check hs
    refine h.control (target_update ?_) (h.phase.procs _ _ _)
    rw [ht]
    rfl
  | logWrite t =>
    obtain ⟨mine, b, buf, ht, hb, rfl⟩ := apply_logWrite hs
    have hup : s.up = true :=
      hroom.up_of_ne_out (t := t) (by rw [ht]; exact fun hp => Proc.noConfusion hp)
    have hc := hroom.not_committing (hroom.outstanding_pos (t := t) (by rw [ht]; rfl))
    have hbound := (hroom.write ht buf).bound hup
    have hsize : LOGSIZE = 3 * MAXOPBLOCKS := rfl
    exact h.write (hroom.calm hup hc) hup ht hb (by omega) (by omega)
  | endOp t =>
    obtain ⟨mine, ht, hc, rfl⟩ := apply_endOp hs
    have hup : s.up = true :=
      hroom.up_of_ne_out (t := t) (by rw [ht]; exact fun hp => Proc.noConfusion hp)
    have hpc := hroom.calm hup hc
    have hu := phase_rest h.phase hpc
    have htarget : ∀ x : Proc, x.target = none → ∀ u,
        (Function.update s.proc t x u).target = (s.proc u).target := fun x hx =>
      target_update (by rw [hx, ht]; rfl)
    unfold Log.endOp
    split
    · refine h.control (htarget _ rfl) ?_
      by_cases hlh : s.lh = []
      · exact rest_phase ⟨hu.up, hu.header, hu.pinned⟩ (if_pos hlh)
      · rw [if_neg hlh]
        exact ⟨⟨hu.up, hu.header, hu.pinned⟩, fun i b hi => absurd hi (Nat.not_lt_zero i)⟩
    · refine h.control (fun u => ?_) (h.phase.procs _ _ _)
      rw [wakeup_view Proc.target rfl]
      exact htarget _ rfl u
  | advance => exact h.advance hroom hpos hs
  | finish t =>
    obtain ⟨ht, hpc, rfl⟩ := apply_finish hs
    refine h.control (fun u => ?_) (h.phase.procs _ _ _)
    rw [wakeup_view Proc.target rfl]
    exact target_update (by rw [ht]; rfl) u
  | fill b =>
    cases hs
    exact h.bread b
  | evict b =>
    obtain ⟨data, hb, rfl⟩ := apply_evict hs
    exact h.evict hb
  | spurious t =>
    obtain ⟨ht, rfl⟩ := apply_spurious hs
    refine h.control (target_update ?_) (h.phase.procs _ _ _)
    rw [ht]
    rfl
  | crash =>
    cases hs
    exact h.crash hpos

/-- **Every run** keeps the invariant. -/
theorem reach [DecidableEq τ] {disk : Disk} {x : State τ × Record} (hM : M < MAXOPBLOCKS)
    (hlog : LOGSIZE ≤ sb.nlog) (hdisk : readHead (disk sb.logstart) = [])
    (h : (recorded sb M disk).Reach x) : Room M x.1 ∧ Image sb x.1 x.2 := by
  have hpos : 0 < sb.nlog := Nat.lt_of_lt_of_le (by decide) hlog
  refine Lts.Reach.invariant (I := fun x : State τ × Record => Room M x.1 ∧ Image sb x.1 x.2)
    ?_ ?_ h
  · rintro ⟨s, g⟩ ⟨hs, hg⟩
    obtain rfl : s = poweron disk := hs
    obtain rfl : g = ⟨disk, disk⟩ := hg
    have hrec : Recoverable sb disk disk := by
      refine ⟨?_, fun i b hi => ?_, fun _ _ _ => rfl⟩
      · rw [hdisk]
        exact Fits.nil hpos
      · rw [hdisk] at hi
        cases hi
    refine ⟨Room.poweron disk, ?_⟩
    exact
      { coherent :=
          { clean := fun _ _ hb => by cases hb
            dirty := fun _ _ hb => by cases hb
            lock := fun _ _ _ hb => by cases hb
            held := fun _ _ ht => by cases ht }
        recoverable := hrec
        fits := Fits.nil hpos
        view := fun hup => by cases hup
        phase := fun _ _ => rfl }
  · rintro ⟨s, g⟩ e ⟨s', g'⟩ ⟨hroom, himage⟩ ⟨hok, hs, hg⟩
    obtain rfl : g' = record s g e := hg
    exact ⟨hroom.step (Nat.le_of_lt hM) hok hs, himage.step hroom hM hlog hok hs⟩

end Step

end Image

/-- **Crash safety.**  Take any run of calls, commits, crashes and recoveries from a disk whose log
    is empty, where no call writes more than `M < MAXOPBLOCKS` blocks.  Whenever the system is up,
    `bread` returns for every home block what was last written to it since the last crash, and
    where nothing was, what was durable at that crash.  What is written becomes durable all at once,
    while no call is in progress; and as soon as the last call has ended and its commit is over, all
    that was written is durable. -/
theorem log_crash_safe [DecidableEq τ] [Fintype τ] {disk : Disk} {x : State τ × Record}
    (hM : M < MAXOPBLOCKS) (hlog : LOGSIZE ≤ sb.nlog) (hdisk : readHead (disk sb.logstart) = [])
    (h : (recorded sb M disk).Reach x) :
    (x.1.up = true → ∀ b, sb.Home b → x.1.look b = x.2.volatile b) ∧
      (x.1.pc = .head → ∀ t, (x.1.proc t).active = false) ∧
      (x.1.up = true → x.1.outstanding = 0 → x.1.committing = false →
        ∀ b, sb.Home b → x.2.volatile b = x.2.durable b) := by
  obtain ⟨hroom, himage⟩ := Image.reach hM hlog hdisk h
  refine ⟨himage.view, fun hpc => hroom.idle (hroom.busy (by rw [hpc]; decide)), ?_⟩
  intro hup hout hc b hb
  have hpc := hroom.calm hup hc
  have hlh := hroom.clean (.inr ⟨hpc, hout⟩)
  rw [← himage.view hup b hb,
    himage.look_idle (hroom.idle hout) (by rw [hlh]; exact List.not_mem_nil)]
  exact himage.disk_unsealed (Image.phase_rest himage.phase hpc) hb

/-- `log_write` of a block full of `c`, with all that comes before it. -/
def logs (t : τ) (b : Nat) (c : UInt8) : List (Event τ) :=
  [.fill b, .modify t b fun _ => c, .check t, .logWrite t]

/-- Steps of `commit` or `recover_from_log`. -/
def advances (n : Nat) : List (Event τ) := List.replicate n .advance

/-- The system comes up, a call of `p` is committed, and the machine crashes in the commit of one
    more of `p` and one of `q` when their blocks are in the log but its header is not written. -/
def crashedEarly (p q : τ) : List (Event τ) :=
  advances 3 ++ [.beginOp p] ++ logs p 100 1 ++ [.endOp p] ++ advances 6 ++ [.finish p] ++
  [.beginOp p, .beginOp q] ++ logs p 100 2 ++ logs q 101 2 ++ [.endOp p, .endOp q] ++
  advances 3 ++ [.crash] ++ advances 3

/-- The same two calls again, a crash when one of their blocks is in place and the other is not, and
    one more in the recovery. -/
def crashedLate (p q : τ) : List (Event τ) :=
  crashedEarly p q ++ [.beginOp p, .beginOp q] ++ logs p 100 3 ++ logs q 101 3 ++
  [.endOp q, .endOp p] ++ advances 5 ++ [.crash] ++ advances 2 ++ [.crash] ++ advances 5

/-- After the recovery from the first crash there is what the committed call wrote, and after that
    from the others what all calls wrote. -/
theorem log_crash_safe_crashed : ∃ x y : State (Fin NPROC) × Record,
    (recorded mkfs 9 fun _ _ => 0).Reach x ∧ (recorded mkfs 9 fun _ _ => 0).Reach y ∧
    [x.1.look 100 0, x.1.look 101 0, y.1.look 100 0, y.1.look 101 0] = [1, 0, 3, 3] ∧
    (∀ b, mkfs.Home b → x.1.look b = x.2.volatile b ∧ x.2.volatile b = x.2.durable b) ∧
    ∀ b, mkfs.Home b → y.1.look b = y.2.volatile b ∧ y.2.volatile b = y.2.durable b := by
  have hM : 9 < MAXOPBLOCKS := by decide
  have hsafe : ∀ x : State (Fin NPROC) × Record, (recorded mkfs 9 fun _ _ => 0).Reach x →
      [x.1.up, decide (x.1.outstanding = 0), !x.1.committing] = [true, true, true] →
      ∀ b, mkfs.Home b → x.1.look b = x.2.volatile b ∧ x.2.volatile b = x.2.durable b := by
    intro x hr hrest b hb
    obtain ⟨hview, -, hdurable⟩ := log_crash_safe hM (Nat.le_refl _) rfl hr
    simp only [List.cons.injEq, decide_eq_true_eq, Bool.not_eq_true', and_true] at hrest
    exact ⟨hview hrest.1 b hb, hdurable hrest.1 hrest.2.1 hrest.2.2 b hb⟩
  have hearly : ((crashedEarly (0 : Fin NPROC) 1).foldlM (recordedStep mkfs 9)
      (poweron fun _ _ => 0, ⟨fun _ _ => 0, fun _ _ => 0⟩)).map (fun x =>
        ([x.1.look 100 0, x.1.look 101 0],
          [x.1.up, decide (x.1.outstanding = 0), !x.1.committing])) =
      some ([1, 0], [true, true, true]) := by decide +kernel
  have hlate : ((crashedLate (0 : Fin NPROC) 1).foldlM (recordedStep mkfs 9)
      (poweron fun _ _ => 0, ⟨fun _ _ => 0, fun _ _ => 0⟩)).map (fun x =>
        ([x.1.look 100 0, x.1.look 101 0],
          [x.1.up, decide (x.1.outstanding = 0), !x.1.committing])) =
      some ([3, 3], [true, true, true]) := by decide +kernel
  obtain ⟨x, hx, hlook⟩ := Option.map_eq_some_iff.mp hearly
  obtain ⟨y, hy, hlook'⟩ := Option.map_eq_some_iff.mp hlate
  obtain ⟨hlook, hrest⟩ := Prod.mk.inj hlook
  obtain ⟨hlook', hrest'⟩ := Prod.mk.inj hlook'
  have hrx := recorded_reach hx
  have hry := recorded_reach hy
  refine ⟨x, y, hrx, hry, ?_, hsafe x hrx hrest, hsafe y hry hrest'⟩
  simp only [List.cons.injEq, and_true] at hlook hlook'
  simp only [hlook.1, hlook.2, hlook'.1, hlook'.2]

end Image

end OsCodes.Log
