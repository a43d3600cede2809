/-
  Room in the log.

  `begin_op` reserves `MAXOPBLOCKS` blocks of the log for every call that is in progress.  Where no
  call writes more than `M` blocks, the header never has more than `MAXOPBLOCKS + 2 * M` of them:
  a call that starts while others are in progress finds room for `MAXOPBLOCKS` for each of at least
  two.  `log_write` panics at `LOGSIZE` blocks also where the block is in the header already, so
  that `M` has to be below `MAXOPBLOCKS`.

  The same account shows that `begin_op` never sleeps for good: while a process sleeps there,
  a commit is under way or some call is in progress.

  `Room` is the account: `outstanding` is the number of calls in progress, the header has no more
  blocks than those calls and the finished ones of this transaction have logged, and what each
  call may still log fits as well.  `Room.begin`, `Room.write`, `Room.endOp` and `Room.finish` are
  the four events that change it; `Room.work` is a step of `commit`, and `Room.move` all the
  others.
-/
import OsCodes.Lib.Budget
import OsCodes.Xv6.Log

namespace OsCodes.Log

abbrev FSSIZE : Nat := 1000

/-- A block that `idestart` can reach and that is not the log's. -/
def Superblock.Home (sb : Superblock) (b : Nat) : Prop :=
  b < FSSIZE ∧ ¬ (sb.logstart ≤ b ∧ b < sb.logstart + sb.nlog)

instance (sb : Superblock) (b : Nat) : Decidable (sb.Home b) :=
  inferInstanceAs (Decidable (_ ∧ _))

/-! ## Calls in progress -/

namespace Proc

/-- Between `begin_op` and `end_op`. -/
def active : Proc → Bool
  | .inOp _ => true
  | .holding _ _ => true
  | .checked _ _ => true
  | _ => false

/-- The blocks that the call has logged. -/
def blocks : Proc → List Nat
  | .inOp mine => mine
  | .holding mine _ => mine
  | .checked mine _ => mine
  | _ => []

/-- The block that the call is about to log. -/
def target : Proc → Option Nat
  | .holding _ b => some b
  | .checked _ b => some b
  | _ => none

theorem blocks_eq_nil {p : Proc} (h : p.active = false) : p.blocks = [] := by
  cases p with
  | inOp mine => cases h
  | holding mine b => cases h
  | checked mine b => cases h
  | _ => rfl

/-- One for a call in progress. -/
def opens (p : Proc) : Nat := p.active.toNat

/-- How many more blocks a call in progress may log, of `M`. -/
def left (M : Nat) (p : Proc) : Nat := if p.active then M - p.blocks.length else 0

/-- No call logs more than `M` blocks, the next one included. -/
def Within (M : Nat) (p : Proc) : Prop :=
  p.blocks.length ≤ M ∧ ∀ b, p.target = some b → b ∈ p.blocks ∨ p.blocks.length < M

theorem within_nil {M : Nat} {p : Proc} (hb : p.blocks = []) (ht : p.target = none) : p.Within M :=
  ⟨by rw [hb]; exact Nat.zero_le M, fun b hp => by rw [ht] at hp; cases hp⟩

theorem left_le (M : Nat) (p : Proc) : p.left M ≤ p.opens * M := by
  unfold left opens
  cases p.active with
  | false => exact Nat.zero_le _
  | true =>
    rw [if_pos rfl, Bool.toNat_true]
    omega

end Proc

/-- The callers' part: every block written is a home block, and no call writes more than `M`. -/
def limit {τ : Type} (sb : Superblock) (M : Nat) (s : State τ) : Event τ → Prop
  | .modify t b _ => sb.Home b ∧
      (b ∈ (s.proc t).blocks ∨ (s.proc t).blocks.length < M)
  | _ => True

instance {τ : Type} (sb : Superblock) (M : Nat) (s : State τ) : DecidablePred (limit sb M s)
  | .modify _ _ _ => inferInstanceAs (Decidable (_ ∧ _))
  | .beginOp _ | .check _ | .logWrite _ | .endOp _ | .advance | .finish _ | .fill _ | .evict _
  | .spurious _ | .crash => .isTrue trivial

/-- Calls within a bound are within every larger one. -/
theorem limit_mono {τ : Type} {sb : Superblock} {M N : Nat} (h : M ≤ N) (s : State τ) (e : Event τ)
    (hok : limit sb M s e) : limit sb N s e := by
  cases e with
  | modify t b v => exact ⟨hok.1, hok.2.imp_right fun hlt => Nat.lt_of_lt_of_le hlt h⟩
  | _ => exact trivial

section Wakeup

variable {τ : Type} {proc : τ → Proc} {t : τ}

/-- `wakeup` touches the sleepers only. -/
theorem wakeup_view {β : Type} (V : Proc → β) (hV : V .woken = V .asleep) (proc : τ → Proc) (t : τ) :
    V (wakeup proc t) = V (proc t) := by
  unfold wakeup
  split
  · rename_i hs
    rw [hs, hV]
  · rfl

theorem wakeup_ne_asleep : wakeup proc t ≠ .asleep := by
  unfold wakeup
  split
  · exact fun h => Proc.noConfusion h
  · rename_i hne
    exact hne

theorem wakeup_eq_ending : wakeup proc t = .ending ↔ proc t = .ending := by
  unfold wakeup
  split
  · rename_i hs
    rw [hs]
    constructor <;> exact fun h => Proc.noConfusion h
  · rfl

end Wakeup

/-! ## The account -/

section Room

variable {τ : Type} [Fintype τ]

/-- What holds of `outstanding`, the header and the processes, whatever the blocks contain. -/
structure Room (M : Nat) (s : State τ) : Prop where
  count : s.outstanding = total Proc.opens s.proc
  down : s.up = false → ∀ t, s.proc t = .out
  /-- A commit runs in some process, and no call is in progress then. -/
  quiet : s.committing = true → s.outstanding = 0 ∧ ∃ t, s.proc t = .ending
  ending : ∀ t, s.proc t = .ending → s.committing = true
  single : ∀ t u, s.proc t = .ending → s.proc u = .ending → t = u
  booted : s.up = true → s.pc ≠ .boot
  risen : s.pc = .rest → s.up = true
  calm : s.up = true → s.committing = false → s.pc = .rest
  clean : s.pc = .erase ∨ s.pc = .rest ∧ s.outstanding = 0 → s.lh = []
  logged : ∀ t, ∀ b ∈ (s.proc t).blocks, b ∈ s.lh
  within : ∀ t, (s.proc t).Within M
  budget : 0 < s.outstanding →
    s.lh.length + total (Proc.left M) s.proc ≤ MAXOPBLOCKS + 2 * M
  bound : s.up = true → s.lh.length ≤ MAXOPBLOCKS + 2 * M
  sleep : ∀ t, s.proc t = .asleep →
    s.committing = true ∨ LOGSIZE < s.lh.length + (s.outstanding + 1) * MAXOPBLOCKS

variable {M : Nat} {s s' : State τ} {t : τ}

namespace Room

/-- The blocks' contents do not matter. -/
theorem data (h : Room M s) (d : Disk) (c : Nat → Option (Buf τ)) :
    Room M { s with disk := d, cache := c } where
  count := h.count
  down := h.down
  quiet := h.quiet
  ending := h.ending
  single := h.single
  booted := h.booted
  risen := h.risen
  calm := h.calm
  clean := h.clean
  logged := h.logged
  within := h.within
  budget := h.budget
  bound := h.bound
  sleep := h.sleep

theorem total_left_le (h : Room M s) : total (Proc.left M) s.proc ≤ s.outstanding * M := by
  rw [h.count]
  exact total_le_mul (Proc.left_le M)

theorem outstanding_pos (h : Room M s) (ht : (s.proc t).active = true) : 0 < s.outstanding := by
  have hle : (s.proc t).opens ≤ total Proc.opens s.proc := le_total (F := Proc.opens) t
  rw [Proc.opens, ht, Bool.toNat_true] at hle
  rw [h.count]
  omega

theorem up_of_ne_out (h : Room M s) (ht : s.proc t ≠ .out) : s.up = true := by
  by_contra hup
  rw [Bool.not_eq_true] at hup
  exact ht (h.down hup t)

/-- With a call in progress nobody commits. -/
theorem not_committing (h : Room M s) (hpos : 0 < s.outstanding) : s.committing = false := by
  by_contra hc
  rw [Bool.not_eq_false] at hc
  have := (h.quiet hc).1
  omega

/-- No call is in progress while blocks are being copied. -/
theorem busy (h : Room M s) (hpc : s.pc ≠ .rest) : s.outstanding = 0 := by
  cases hup : s.up with
  | false =>
    rw [h.count, total_eq_zero]
    intro t
    rw [h.down hup t]
    rfl
  | true =>
    by_contra hout
    exact hpc (h.calm hup (h.not_committing (Nat.pos_of_ne_zero hout)))

theorem idle (h : Room M s) (hout : s.outstanding = 0) (t : τ) : (s.proc t).active = false := by
  by_contra ht
  rw [Bool.not_eq_false] at ht
  have := h.outstanding_pos ht
  omega

/-- **A step of `commit` or `recover_from_log`.** -/
theorem work (h : Room M s) (hpc : s.pc ≠ .rest) {lh : List Nat} {pc : Pc} {up : Bool}
    (hclean : pc = .erase ∨ pc = .rest → lh = [])
    (hbound : up = true → lh.length ≤ MAXOPBLOCKS + 2 * M) (hboot : up = true → pc ≠ .boot)
    (hup : s.up = true → up = true) (hrest : up = true → s.up = true ∨ pc = .rest)
    (hrisen : pc = .rest → up = true) (d : Disk)
    (c : Nat → Option (Buf τ)) :
    Room M { s with lh := lh, pc := pc, up := up, disk := d, cache := c } := by
  have hout := h.busy hpc
  constructor
  case count => exact h.count
  case down =>
    intro hd
    refine h.down ?_
    by_contra hu
    rw [Bool.not_eq_false] at hu
    exact absurd (hup hu) (by rw [show up = false from hd]; decide)
  case quiet => exact h.quiet
  case ending => exact h.ending
  case single => exact h.single
  case booted => exact hboot
  case risen => exact hrisen
  case calm =>
    intro hu hc
    rcases hrest hu with hold | hnew
    · exact absurd (h.calm hold hc) hpc
    · exact hnew
  case clean =>
    rintro (hp | ⟨hp, -⟩)
    · exact hclean (.inl hp)
    · exact hclean (.inr hp)
  case logged =>
    intro t b hb
    have hb' : b ∈ (s.proc t).blocks := hb
    have hidle := h.idle hout t
    rw [Proc.blocks_eq_nil hidle] at hb'
    cases hb'
  case within => exact h.within
  case budget =>
    exact fun hp => absurd (show 0 < s.outstanding from hp) (by rw [hout]; exact Nat.lt_irrefl 0)
  case bound => exact hbound
  case sleep =>
    intro t ht
    have hu : s.up = true :=
      h.up_of_ne_out (t := t) (by rw [show s.proc t = .asleep from ht]; exact fun hp => Proc.noConfusion hp)
    refine .inl ?_
    show s.committing = true
    by_contra hc
    rw [Bool.not_eq_true] at hc
    exact hpc (h.calm hu hc)

theorem advance {sb : Superblock} (h : Room M s) (hs : advance sb s = some s') : Room M s' := by
  rcases advance_cases hs with ⟨hpc, rfl⟩ | ⟨tail, b, hpc, -, rfl⟩ | ⟨tail, hpc, -, rfl⟩ |
    ⟨hpc, rfl⟩ | ⟨tail, b, hpc, -, rfl⟩ | ⟨tail, hpc, -, rfl⟩ | ⟨hpc, rfl⟩
  · have hdown : ¬ s.up = true := fun hu => h.booted hu hpc
    exact h.work (by rw [hpc]; decide) (fun hp => by rcases hp with hp | hp <;> cases hp)
      (fun hu => absurd hu hdown) (fun _ hp => by cases hp) id .inl
      (fun hp => by cases hp) _ _
  · exact h.work (by rw [hpc]; exact fun hp => Pc.noConfusion hp)
      (fun hp => by rcases hp with hp | hp <;> cases hp) h.bound (fun _ hp => by cases hp) id .inl
      (fun hp => by cases hp) _ _
  · exact h.work (by rw [hpc]; exact fun hp => Pc.noConfusion hp)
      (fun hp => by rcases hp with hp | hp <;> cases hp) h.bound (fun _ hp => by cases hp) id .inl
      (fun hp => by cases hp) _ _
  · exact h.work (by rw [hpc]; exact fun hp => Pc.noConfusion hp)
      (fun hp => by rcases hp with hp | hp <;> cases hp) h.bound (fun _ hp => by cases hp) id .inl
      (fun hp => by cases hp) _ _
  · exact h.work (by rw [hpc]; exact fun hp => Pc.noConfusion hp)
      (fun hp => by rcases hp with hp | hp <;> cases hp) h.bound (fun _ hp => by cases hp) id .inl
      (fun hp => by cases hp) _ _
  · exact h.work (by rw [hpc]; exact fun hp => Pc.noConfusion hp) (fun _ => rfl)
      (fun _ => Nat.zero_le _) (fun _ hp => by cases hp) id .inl
      (fun hp => by cases hp) _ _
  · have hlh : s.lh = [] := h.clean (.inl hpc)
    exact h.work (by rw [hpc]; exact fun hp => Pc.noConfusion hp) (fun _ => hlh)
      (fun _ => by rw [hlh]; exact Nat.zero_le _) (fun _ hp => by cases hp) (fun _ => rfl)
      (fun _ => .inr rfl) (fun _ => rfl) _ _

theorem poweron (disk : Disk) : Room M (poweron disk : State τ) where
  count := (total_eq_zero.mpr fun _ => rfl).symm
  down _ _ := rfl
  quiet h := by cases h
  ending t h := by cases h
  single t u h := by cases h
  booted h := by cases h
  risen h := by cases h
  calm h := by cases h
  clean _ := rfl
  logged t b hb := by cases hb
  within t := Proc.within_nil rfl rfl
  budget h := absurd h (Nat.lt_irrefl 0)
  bound _ := Nat.zero_le _
  sleep t h := by cases h

variable [DecidableEq τ]

/-- A process moves on, with its call in progress or not as before. -/
theorem move (h : Room M s) {x : Proc} (hup : s.up = true)
    (hactive : x.active = (s.proc t).active) (hblocks : x.blocks = (s.proc t).blocks)
    (hwithin : x.Within M) (hending : x = .ending ↔ s.proc t = .ending)
    (hsleep : x = .asleep →
      s.committing = true ∨ LOGSIZE < s.lh.length + (s.outstanding + 1) * MAXOPBLOCKS) :
    Room M (setProc s t x) := by
  have hview : ∀ {β : Type} (V : Proc → β), V x = V (s.proc t) →
      ∀ u, V (Function.update s.proc t x u) = V (s.proc u) := by
    intro β V hV u
    by_cases hu : u = t
    · rw [hu, Function.update_self, hV]
    · rw [Function.update_of_ne hu]
  have hopens : x.opens = (s.proc t).opens := by rw [Proc.opens, Proc.opens, hactive]
  have hleft : x.left M = (s.proc t).left M := by rw [Proc.left, Proc.left, hactive, hblocks]
  have hend : ∀ u, Function.update s.proc t x u = .ending ↔ s.proc u = .ending := fun u => by
    have := hview (fun p => p = Proc.ending) (propext hending) u
    exact iff_of_eq this
  constructor
  case count => exact h.count.trans (total_congr (hview _ hopens)).symm
  case down => exact fun hd => absurd hup (by rw [show s.up = false from hd]; decide)
  case quiet =>
    intro hc
    obtain ⟨hout, u, hu⟩ := h.quiet hc
    exact ⟨hout, u, (hend u).mpr hu⟩
  case ending => exact fun u hu => h.ending u ((hend u).mp hu)
  case single => exact fun u w hu hw => h.single u w ((hend u).mp hu) ((hend w).mp hw)
  case booted => exact h.booted
  case risen => exact h.risen
  case calm => exact h.calm
  case clean => exact h.clean
  case logged =>
    intro u b hb
    have hb' : b ∈ (Function.update s.proc t x u).blocks := hb
    rw [hview Proc.blocks hblocks u] at hb'
    exact h.logged u b hb'
  case within =>
    exact (Function.forall_update_iff _ fun _ (p : Proc) => p.Within M).mpr
      ⟨hwithin, fun u _ => h.within u⟩
  case budget =>
    intro hpos
    have htotal : total (Proc.left M) (Function.update s.proc t x) = total (Proc.left M) s.proc :=
      total_congr (hview _ hleft)
    show s.lh.length + total (Proc.left M) (Function.update s.proc t x) ≤ _
    rw [htotal]
    exact h.budget hpos
  case bound => exact h.bound
  case sleep =>
    intro u hu
    rcases update_eq_cases hu with ⟨-, hx⟩ | ⟨-, hu'⟩
    · exact hsleep hx
    · exact h.sleep u hu'

/-- **`begin_op`** lets a call in where the log has room for it and for all others. -/
theorem begin (h : Room M s) (hM : M ≤ MAXOPBLOCKS) (hup : s.up = true)
    (ht : s.proc t = .out ∨ s.proc t = .woken) : Room M (beginOp s t) := by
  have hidle : (s.proc t).active = false ∧ (s.proc t).blocks = [] ∧ s.proc t ≠ .ending := by
    rcases ht with ht | ht <;> rw [ht] <;> exact ⟨rfl, rfl, fun hp => Proc.noConfusion hp⟩
  obtain ⟨hactive, hblocks, hne⟩ := hidle
  unfold beginOp
  split
  · rename_i hmay
    simp only [mayBegin, Bool.and_eq_true, Bool.not_eq_true', decide_eq_true_eq] at hmay
    obtain ⟨hc, hroom⟩ := hmay
    have hopens := total_update Proc.opens s.proc t (.inOp [])
    have hleft := total_update (Proc.left M) s.proc t (.inOp [])
    rw [show (s.proc t).opens = 0 by rw [Proc.opens, hactive]; rfl,
      show (Proc.inOp []).opens = 1 from rfl] at hopens
    rw [show (s.proc t).left M = 0 by rw [Proc.left, hactive]; rfl,
      show (Proc.inOp []).left M = M from rfl] at hleft
    have hend : ∀ {u}, Function.update s.proc t (.inOp []) u = .ending → s.proc u = .ending := by
      intro u hu
      rcases update_eq_cases hu with ⟨-, hx⟩ | ⟨-, hu⟩
      · cases hx
      · exact hu
    constructor
    case count =>
      show s.outstanding + 1 = total Proc.opens (Function.update s.proc t (.inOp []))
      rw [h.count]
      omega
    case down => exact fun hd => absurd hup (by rw [show s.up = false from hd]; decide)
    case quiet => exact fun hc' => absurd (show s.committing = true from hc') (by rw [hc]; decide)
    case ending => exact fun u hu => h.ending u (hend hu)
    case single => exact fun u w hu hw => h.single u w (hend hu) (hend hw)
    case booted => exact h.booted
    case risen => exact h.risen
    case calm => exact h.calm
    case clean =>
      rintro (hpc | ⟨-, hout⟩)
      · exact h.clean (.inl hpc)
      · exact absurd (show s.outstanding + 1 = 0 from hout) (by omega)
    case logged =>
      exact (Function.forall_update_iff _ fun _ (p : Proc) => ∀ b ∈ p.blocks, b ∈ s.lh).mpr
        ⟨fun b hb => absurd hb List.not_mem_nil, fun u _ => h.logged u⟩
    case within =>
      exact (Function.forall_update_iff _ fun _ (p : Proc) => p.Within M).mpr
        ⟨Proc.within_nil rfl rfl, fun u _ => h.within u⟩
    case budget =>
      intro _
      show s.lh.length + total (Proc.left M) (Function.update s.proc t (.inOp [])) ≤ _
      by_cases hout : s.outstanding = 0
      · -- the first call finds the header empty
        have hlh : s.lh = [] := h.clean (.inr ⟨h.calm hup hc, hout⟩)
        have hle := h.total_left_le
        rw [hout, Nat.zero_mul] at hle
        rw [hlh, List.length_nil]
        omega
      · have hle := h.total_left_le
        -- at least two calls now, with room for `MAXOPBLOCKS` each
        have hspare : 2 * (MAXOPBLOCKS - M) ≤ (s.outstanding + 1) * (MAXOPBLOCKS - M) :=
          Nat.mul_le_mul_right _ (by omega)
        have hsplit : (s.outstanding + 1) * (MAXOPBLOCKS - M) + (s.outstanding + 1) * M =
            (s.outstanding + 1) * MAXOPBLOCKS := by
          rw [← Nat.mul_add, Nat.sub_add_cancel hM]
        rw [Nat.succ_mul s.outstanding M] at hsplit
        have hsize : LOGSIZE = 3 * MAXOPBLOCKS := rfl
        omega
    case bound => exact h.bound
    case sleep =>
      intro u hu
      rcases update_eq_cases hu with ⟨-, hx⟩ | ⟨-, hu'⟩
      · cases hx
      · rcases h.sleep u hu' with hc' | hfull
        · exact .inl hc'
        · exact absurd hfull (by omega)
  · rename_i hmay
    refine h.move hup hactive.symm hblocks.symm ⟨Nat.zero_le _, fun b hb => by cases hb⟩
      ⟨fun hp => Proc.noConfusion hp, fun hp => absurd hp hne⟩ fun _ => ?_
    simp only [mayBegin, Bool.and_eq_true, Bool.not_eq_true', decide_eq_true_eq, not_and,
      Nat.not_le] at hmay
    by_cases hc : s.committing = true
    · exact .inl hc
    · exact .inr (hmay (by rwa [Bool.not_eq_true] at hc))

/-- **`log_write`** takes from the call's own share what it adds to the header. -/
theorem write (h : Room M s) {mine : List Nat} {b : Nat} (ht : s.proc t = .checked mine b)
    (buf : Buf τ) : Room M (logWrite s t mine b buf) := by
  have hup : s.up = true := h.up_of_ne_out (t := t) (by rw [ht]; exact fun hp => Proc.noConfusion hp)
  have hpos : 0 < s.outstanding := h.outstanding_pos (t := t) (by rw [ht]; rfl)
  have hc := h.not_committing hpos
  obtain ⟨hlen, htgt⟩ := h.within t
  have hlogged := h.logged t
  rw [ht] at hlen htgt hlogged
  have hfit : b ∈ mine ∨ mine.length < M := htgt b rfl
  have hlh : ∀ a ∈ s.lh, a ∈ if b ∈ s.lh then s.lh else s.lh ++ [b] := by
    intro a ha
    split
    · exact ha
    · exact List.mem_append_left _ ha
  have hb : b ∈ if b ∈ s.lh then s.lh else s.lh ++ [b] := by
    split
    · assumption
    · exact List.mem_append_right _ (List.mem_singleton_self b)
  have hgrow : s.lh.length ≤ (if b ∈ s.lh then s.lh else s.lh ++ [b]).length := by
    split
    · exact Nat.le_refl _
    · rw [List.length_append]
      exact Nat.le_add_right _ _
  have hopens := total_update Proc.opens s.proc t (.inOp (if b ∈ mine then mine else b :: mine))
  have hleft := total_update (Proc.left M) s.proc t (.inOp (if b ∈ mine then mine else b :: mine))
  rw [ht] at hopens hleft
  rw [show (Proc.checked mine b).opens = 1 from rfl,
    show (Proc.inOp (if b ∈ mine then mine else b :: mine)).opens = 1 from rfl] at hopens
  have hbudget := h.budget hpos
  -- what the header gains, the call can no longer use
  have hacc : (if b ∈ s.lh then s.lh else s.lh ++ [b]).length +
      total (Proc.left M) (Function.update s.proc t (.inOp (if b ∈ mine then mine else b :: mine))) ≤
        s.lh.length + total (Proc.left M) s.proc := by
    have hold : (Proc.checked mine b).left M = M - mine.length := rfl
    have hnew : (Proc.inOp (if b ∈ mine then mine else b :: mine)).left M =
        M - (if b ∈ mine then mine else b :: mine).length := rfl
    rw [hold, hnew] at hleft
    by_cases hbm : b ∈ mine
    · rw [if_pos (hlogged b hbm)]
      rw [if_pos hbm] at hleft ⊢
      omega
    · have hlt := hfit.resolve_left hbm
      rw [if_neg hbm] at hleft ⊢
      rw [List.length_cons] at hleft
      have hle : (if b ∈ s.lh then s.lh else s.lh ++ [b]).length ≤ s.lh.length + 1 := by
        split
        · exact Nat.le_succ _
        · rw [List.length_append, List.length_singleton]
      omega
  have hend : ∀ u, Function.update s.proc t
      (.inOp (if b ∈ mine then mine else b :: mine)) u ≠ .ending := by
    intro u hu
    rcases update_eq_cases hu with ⟨-, hx⟩ | ⟨-, hu⟩
    · cases hx
    · exact absurd (h.ending u hu) (by rw [hc]; decide)
  constructor
  case count =>
    show s.outstanding = total Proc.opens (Function.update s.proc t _)
    rw [h.count]
    omega
  case down => exact fun hd => absurd hup (by rw [show s.up = false from hd]; decide)
  case quiet => exact fun hc' => absurd (show s.committing = true from hc') (by rw [hc]; decide)
  case ending => exact fun u hu => absurd hu (hend u)
  case single => exact fun u _ hu => absurd hu (hend u)
  case booted => exact h.booted
  case risen => exact h.risen
  case calm => exact h.calm
  case clean =>
    rintro (hpc | ⟨-, hout⟩)
    · exact absurd (show s.pc = .erase from hpc) (by rw [h.calm hup hc]; decide)
    · exact absurd (show s.outstanding = 0 from hout) (by omega)
  case logged =>
    refine (Function.forall_update_iff _ fun _ (p : Proc) => ∀ a ∈ p.blocks,
      a ∈ if b ∈ s.lh then s.lh else s.lh ++ [b]).mpr
        ⟨fun a ha => ?_, fun u _ a ha => hlh a (h.logged u a ha)⟩
    have ha' : a ∈ if b ∈ mine then mine else b :: mine := ha
    split at ha'
    · exact hlh a (hlogged a ha')
    · rcases List.mem_cons.mp ha' with rfl | ha'
      · exact hb
      · exact hlh a (hlogged a ha')
  case within =>
    refine (Function.forall_update_iff _ fun _ (p : Proc) => p.Within M).mpr
      ⟨⟨?_, fun a ha => by cases ha⟩, fun u _ => h.within u⟩
    show (if b ∈ mine then mine else b :: mine).length ≤ M
    split
    · exact hlen
    · rename_i hbm
      exact hfit.resolve_left hbm
  case budget => exact fun _ => Nat.le_trans hacc hbudget
  case bound => exact fun _ => Nat.le_trans (Nat.le_trans (Nat.le_add_right _ _) hacc) hbudget
  case sleep =>
    intro u hu
    rcases update_eq_cases hu with ⟨-, hx⟩ | ⟨-, hu'⟩
    · cases hx
    · rcases h.sleep u hu' with hc' | hfull
      · exact .inl hc'
      · refine .inr (Nat.lt_of_lt_of_le hfull ?_)
        exact Nat.add_le_add_right hgrow _

/-- **`end_op`** gives the call's share back, and starts a commit if no call is left. -/
theorem endOp (h : Room M s) {mine : List Nat} (ht : s.proc t = .inOp mine) :
    Room M (Log.endOp s t) := by
  have hup : s.up = true := h.up_of_ne_out (t := t) (by rw [ht]; exact fun hp => Proc.noConfusion hp)
  have hpos : 0 < s.outstanding := h.outstanding_pos (t := t) (by rw [ht]; rfl)
  have hc := h.not_committing hpos
  have hnone : ∀ u, s.proc u ≠ .ending := fun u hu => absurd (h.ending u hu) (by rw [hc]; decide)
  have hopens : ∀ x : Proc, x.opens = 0 →
      total Proc.opens (Function.update s.proc t x) + 1 = s.outstanding := by
    intro x hx
    have := total_update Proc.opens s.proc t x
    rw [ht, show (Proc.inOp mine).opens = 1 from rfl, hx] at this
    rw [h.count]
    exact this
  unfold Log.endOp
  split
  · rename_i hlast
    have hzero := hopens .ending rfl
    have hend : ∀ {u}, Function.update s.proc t Proc.ending u = .ending → u = t := by
      intro u hu
      rcases update_eq_cases hu with ⟨hut, -⟩ | ⟨-, hu⟩
      · exact hut
      · exact absurd hu (hnone u)
    constructor
    case count =>
      show 0 = total Proc.opens (Function.update s.proc t .ending)
      omega
    case down => exact fun hd => absurd hup (by rw [show s.up = false from hd]; decide)
    case quiet => exact fun _ => ⟨rfl, t, Function.update_self _ _ _⟩
    case ending => exact fun _ _ => rfl
    case single => exact fun u w hu hw => (hend hu).trans (hend hw).symm
    case booted =>
      intro _
      show (if s.lh = [] then Pc.rest else .writeLog 0) ≠ .boot
      split <;> exact fun hp => Pc.noConfusion hp
    case risen => exact fun _ => hup
    case calm => exact fun _ hc' => Bool.noConfusion (show true = false from hc')
    case clean =>
      intro hpc
      have hpc' : (if s.lh = [] then Pc.rest else .writeLog 0) = .erase ∨
          (if s.lh = [] then Pc.rest else .writeLog 0) = .rest ∧ (0 : Nat) = 0 := hpc
      by_contra hne
      have hne' : s.lh ≠ [] := hne
      rw [if_neg hne'] at hpc'
      rcases hpc' with hp | ⟨hp, -⟩ <;> cases hp
    case logged =>
      exact (Function.forall_update_iff _ fun _ (p : Proc) => ∀ b ∈ p.blocks, b ∈ s.lh).mpr
        ⟨fun b hb => absurd hb List.not_mem_nil, fun u _ => h.logged u⟩
    case within =>
      exact (Function.forall_update_iff _ fun _ (p : Proc) => p.Within M).mpr
        ⟨Proc.within_nil rfl rfl, fun u _ => h.within u⟩
    case budget => exact fun hp => absurd (show 0 < 0 from hp) (Nat.lt_irrefl 0)
    case bound => exact h.bound
    case sleep => exact fun _ _ => .inl rfl
  · rename_i hmore
    have hcount := hopens .out rfl
    have hleft := total_update (Proc.left M) s.proc t .out
    rw [show (Proc.out).left M = 0 from rfl] at hleft
    have hbudget := h.budget hpos
    have hend : ∀ u, wakeup (Function.update s.proc t .out) u ≠ .ending := by
      intro u hu
      rw [wakeup_eq_ending] at hu
      rcases update_eq_cases hu with ⟨-, hx⟩ | ⟨-, hu⟩
      · cases hx
      · exact hnone u hu
    constructor
    case count =>
      show s.outstanding - 1 = total Proc.opens (wakeup (Function.update s.proc t .out))
      rw [total_congr (wakeup_view Proc.opens rfl (Function.update s.proc t .out))]
      omega
    case down => exact fun hd => absurd hup (by rw [show s.up = false from hd]; decide)
    case quiet => exact fun hc' => absurd (show s.committing = true from hc') (by rw [hc]; decide)
    case ending => exact fun u hu => absurd hu (hend u)
    case single => exact fun u _ hu => absurd hu (hend u)
    case booted => exact h.booted
    case risen => exact h.risen
    case calm => exact h.calm
    case clean =>
      rintro (hpc | ⟨-, hout⟩)
      · exact h.clean (.inl hpc)
      · exact absurd hout hmore
    case logged =>
      intro u
      show ∀ b ∈ (wakeup (Function.update s.proc t .out) u).blocks, b ∈ s.lh
      rw [wakeup_view Proc.blocks rfl]
      exact (Function.forall_update_iff _ fun _ (p : Proc) => ∀ b ∈ p.blocks, b ∈ s.lh).mpr
        ⟨fun b hb => absurd hb List.not_mem_nil, fun u _ => h.logged u⟩ u
    case within =>
      intro u
      show (wakeup (Function.update s.proc t .out) u).Within M
      rw [wakeup_view (Proc.Within M) rfl]
      exact (Function.forall_update_iff _ fun _ (p : Proc) => p.Within M).mpr
        ⟨Proc.within_nil rfl rfl, fun u _ => h.within u⟩ u
    case budget =>
      intro _
      show s.lh.length + total (Proc.left M) (wakeup (Function.update s.proc t .out)) ≤ _
      rw [total_congr (wakeup_view (Proc.left M) rfl (Function.update s.proc t .out))]
      omega
    case bound => exact h.bound
    case sleep => exact fun u hu => absurd hu wakeup_ne_asleep

/-- The end of a commit. -/
theorem finish (h : Room M s) (ht : s.proc t = .ending) (hpc : s.pc = .rest) :
    Room M (Log.finish s t) := by
  have hup : s.up = true := h.up_of_ne_out (t := t) (by rw [ht]; exact fun hp => Proc.noConfusion hp)
  have hout : s.outstanding = 0 := (h.quiet (h.ending t ht)).1
  have hend : ∀ u, wakeup (Function.update s.proc t .out) u ≠ .ending := by
    intro u hu
    rw [wakeup_eq_ending] at hu
    rcases update_eq_cases hu with ⟨-, hx⟩ | ⟨hne, hu⟩
    · cases hx
    · exact hne (h.single u t hu ht)
  constructor
  case count =>
    show s.outstanding = total Proc.opens (wakeup (Function.update s.proc t .out))
    rw [total_congr (wakeup_view Proc.opens rfl (Function.update s.proc t .out))]
    have := total_update Proc.opens s.proc t .out
    rw [ht, show (Proc.ending).opens = 0 from rfl, show (Proc.out).opens = 0 from rfl] at this
    rw [h.count]
    exact this.symm
  case down => exact fun hd => absurd hup (by rw [show s.up = false from hd]; decide)
  case quiet => exact fun hc => Bool.noConfusion (show false = true from hc)
  case ending => exact fun u hu => absurd hu (hend u)
  case single => exact fun u _ hu => absurd hu (hend u)
  case booted => exact h.booted
  case risen => exact h.risen
  case calm => exact fun _ _ => hpc
  case clean => exact fun _ => h.clean (.inr ⟨hpc, hout⟩)
  case logged =>
    intro u
    show ∀ b ∈ (wakeup (Function.update s.proc t .out) u).blocks, b ∈ s.lh
    rw [wakeup_view Proc.blocks rfl]
    exact (Function.forall_update_iff _ fun _ (p : Proc) => ∀ b ∈ p.blocks, b ∈ s.lh).mpr
      ⟨fun b hb => absurd hb List.not_mem_nil, fun u _ => h.logged u⟩ u
  case within =>
    intro u
    show (wakeup (Function.update s.proc t .out) u).Within M
    rw [wakeup_view (Proc.Within M) rfl]
    exact (Function.forall_update_iff _ fun _ (p : Proc) => p.Within M).mpr
      ⟨Proc.within_nil rfl rfl, fun u _ => h.within u⟩ u
  case budget =>
    exact fun hp => absurd (show 0 < s.outstanding from hp) (by rw [hout]; exact Nat.lt_irrefl 0)
  case bound => exact h.bound
  case sleep => exact fun u hu => absurd hu wakeup_ne_asleep

/-- **Every step** keeps the account. -/
theorem step {sb : Superblock} {e : Event τ} (hM : M ≤ MAXOPBLOCKS) (h : Room M s)
    (hok : limit sb M s e) (hs : apply sb s e = some s') : Room M s' := by
  cases e with
  | beginOp t =>
    obtain ⟨hup, ht, rfl⟩ := apply_beginOp hs
    exact h.begin hM hup ht
  | modify t b v =>
    obtain ⟨mine, data, dirty, ht, -, rfl⟩ := apply_modify hs
    have hup : s.up = true := h.up_of_ne_out (t := t) (by rw [ht]; exact fun hp => Proc.noConfusion hp)
    obtain ⟨-, hfit⟩ := hok
    rw [ht] at hfit
    have hwithin := h.within t
    rw [ht] at hwithin
    refine (h.move (t := t) (x := .holding mine b) hup ?_ ?_ ⟨hwithin.1, ?_⟩ ?_ ?_).data s.disk _
    · rw [ht]; rfl
    · rw [ht]; rfl
    · intro a ha
      cases ha
      exact hfit
    · rw [ht]
      constructor <;> exact fun hp => Proc.noConfusion hp
    · exact fun hp => Proc.noConfusion hp
  | check t =>
    obtain ⟨mine, b, ht, -, rfl⟩ := apply_check hs
    have hup : s.up = true := h.up_of_ne_out (t := t) (by rw [ht]; exact fun hp => Proc.noConfusion hp)
    have hwithin := h.within t
    rw [ht] at hwithin
    refine h.move hup ?_ ?_ hwithin ?_ ?_
    · rw [ht]; rfl
    · rw [ht]; rfl
    · rw [ht]
      constructor <;> exact fun hp => Proc.noConfusion hp
    · exact fun hp => Proc.noConfusion hp
  | logWrite t =>
    obtain ⟨mine, b, buf, ht, -, rfl⟩ := apply_logWrite hs
    exact h.write ht buf
  | endOp t =>
    obtain ⟨mine, ht, -, rfl⟩ := apply_endOp hs
    exact h.endOp ht
  | advance => exact h.advance hs
  | finish t =>
    obtain ⟨ht, hpc, rfl⟩ := apply_finish hs
    exact h.finish ht hpc
  | fill b =>
    cases hs
    exact h.data s.disk _
  | evict b =>
    obtain ⟨data, -, rfl⟩ := apply_evict hs
    exact h.data s.disk _
  | spurious t =>
    obtain ⟨ht, rfl⟩ := apply_spurious hs
    have hup : s.up = true := h.up_of_ne_out (t := t) (by rw [ht]; exact fun hp => Proc.noConfusion hp)
    refine h.move hup ?_ ?_ (Proc.within_nil rfl rfl) ?_ ?_
    · rw [ht]; rfl
    · rw [ht]; rfl
    · rw [ht]
      constructor <;> exact fun hp => Proc.noConfusion hp
    · exact fun hp => Proc.noConfusion hp
  | crash =>
    cases hs
    exact poweron s.disk

/-- **Every run** keeps the account. -/
theorem reach {sb : Superblock} {disk : Disk} (hM : M ≤ MAXOPBLOCKS)
    (h : ((system sb disk).guard (limit sb M)).Reach s) : Room M s :=
  Lts.Reach.invariant (fun s h0 => by rw [show s = Log.poweron disk from h0]; exact poweron disk)
    (fun _ _ _ hi hst => hi.step hM hst.1 hst.2) h

end Room

end Room

end OsCodes.Log
