/-
  The log's cache and the buffer cache.

  The model of the log knows of bio.c which blocks have a valid buffer, with what data.  `CacheStep`
  lists what may happen to such a cache and its disk: a block is read in, a buffer that nobody needs
  is dropped, and the holder of a buffer modifies it, pins it or writes it.  The log relies on no
  more than these (`log_cache_steps`), and the ring of buffers of one device behaves like that
  (`bio_refines_cache`).

  The two models are compared at their interface.  On the side of the log, `log_cache_steps` goes
  through its events and finds for each the steps of a cache that it needs.  On the side of the
  buffers, `view` says what the log sees: of each block of the device the buffer that holds it,
  with its data, its flags and who has changed it.  A step of the holder of a buffer is then seen
  at one block (`view_holder`), recycling drops what the buffer held (`step_miss`), and steps that
  move counts, locks or links are not seen at all (`step_quiet`); `bio_refines_cache` has one case
  for each event.
-/
import Mathlib.Logic.Relation
import OsCodes.Xv6.BioLaw
import OsCodes.Xv6.LogCrash

namespace OsCodes.Log

/-! ## What the log relies on -/

/-- A disk and the valid buffers for its blocks. -/
@[ext]
structure Cached (τ : Type) where
  disk : Disk
  cache : Nat → Option (Buf τ)

/-- What a cache may do: read a block in, take new data, write out, pin, let go, or nothing. -/
inductive CacheStep {τ : Type} (c : Cached τ) : Cached τ → Prop
  | same : CacheStep c c
  | fill (b : Nat) : c.cache b = none →
      CacheStep c { c with cache := Function.update c.cache b (some ⟨c.disk b, false, none⟩) }
  | evict (b : Nat) (data : Data) : c.cache b = some ⟨data, false, none⟩ →
      CacheStep c { c with cache := Function.update c.cache b none }
  | modify (b : Nat) (t : τ) (buf : Buf τ) (v : Data) : c.cache b = some buf →
      buf.lock = none ∨ buf.lock = some t →
      CacheStep c { c with cache := Function.update c.cache b (some ⟨v, buf.dirty, some t⟩) }
  | pin (b : Nat) (buf : Buf τ) : c.cache b = some buf →
      CacheStep c { c with cache := Function.update c.cache b (some ⟨buf.data, true, none⟩) }
  | write (b : Nat) (buf : Buf τ) : c.cache b = some buf →
      CacheStep c { disk := Function.update c.disk b buf.data
                    cache := Function.update c.cache b (some ⟨buf.data, false, none⟩) }

theorem CacheStep.to {τ : Type} {c d d' : Cached τ} (h : CacheStep c d) (hdisk : d'.disk = d.disk)
    (hcache : d'.cache = d.cache) : CacheStep c d' := by
  rw [Cached.ext hdisk hcache]
  exact h

section Uses

open Relation

variable {τ : Type}

/-- The part of the log's state that the cache is responsible for. -/
def State.cached (s : State τ) : Cached τ := ⟨s.disk, s.cache⟩

theorem bread_steps (s : State τ) (b : Nat) : CacheStep s.cached (s.bread b).cached := by
  cases hb : s.cache b with
  | some buf =>
    have heq : s.bread b = s := by simp only [State.bread, hb]
    rw [heq]
    exact .same
  | none =>
    have heq : s.bread b =
        { s with cache := Function.update s.cache b (some ⟨s.disk b, false, none⟩) } := by
      simp only [State.bread, hb]
    rw [heq]
    exact .fill b hb

/-- `bread`, new data, `bwrite`. -/
theorem bwrite_steps (s : State τ) (t : τ) {b : Nat}
    (hfree : ∀ buf, s.cache b = some buf → buf.lock = none) (v : Data) :
    ReflTransGen CacheStep s.cached (s.bwrite b v).cached := by
  obtain ⟨buf, hbuf, hlock⟩ : ∃ buf, (s.bread b).cached.cache b = some buf ∧ buf.lock = none := by
    cases hb : s.cache b with
    | some buf => exact ⟨buf, by simp only [State.cached, State.bread, hb], hfree buf hb⟩
    | none =>
      refine ⟨⟨s.disk b, false, none⟩, ?_, rfl⟩
      simp only [State.cached, State.bread, hb, Function.update_self]
  have hmod := CacheStep.modify b t buf v hbuf (.inl hlock)
  have hwrite := CacheStep.write (c := { (s.bread b).cached with
    cache := Function.update (s.bread b).cached.cache b (some ⟨v, buf.dirty, some t⟩) }) b
    ⟨v, buf.dirty, some t⟩ (Function.update_self _ _ _)
  have hend : (s.bwrite b v).cached =
      { disk := Function.update (s.bread b).cached.disk b v
        cache := Function.update (Function.update (s.bread b).cached.cache b
          (some ⟨v, buf.dirty, some t⟩)) b (some ⟨v, false, none⟩) } := by
    rw [Function.update_idem]
    cases hb : s.cache b with
    | some old => simp only [State.cached, State.bwrite, State.bread, hb]
    | none => simp only [State.cached, State.bwrite, State.bread, hb, Function.update_idem]
  rw [hend]
  exact ((ReflTransGen.single (bread_steps s b)).tail hmod).tail hwrite

variable [DecidableEq τ] [Fintype τ]

/-- **What the log does with its cache** is what a cache may do, as long as the system does not
    crash. -/
theorem log_cache_steps [Nonempty τ] {sb : Superblock} {M : Nat} {disk : Disk}
    {x : State τ × Record} (hM : M < MAXOPBLOCKS) (hlog : LOGSIZE ≤ sb.nlog)
    (hdisk : readHead (disk sb.logstart) = []) (h : (recorded sb M disk).Reach x) {e : Event τ}
    {s' : State τ} (hs : apply sb x.1 e = some s') (he : e ≠ .crash) :
    ReflTransGen CacheStep x.1.cached s'.cached := by
  obtain ⟨hroom, himage⟩ := Image.reach hM hlog hdisk h
  obtain ⟨s, g⟩ := x
  cases e with
  | beginOp t =>
    obtain ⟨-, -, rfl⟩ := apply_beginOp hs
    unfold beginOp
    split <;> exact .refl
  | modify t b v =>
    obtain ⟨mine, data, dirty, -, hb, rfl⟩ := apply_modify hs
    exact .single (.modify b t ⟨data, dirty, none⟩ v hb (.inl rfl))
  | check t =>
    obtain ⟨-, -, -, -, rfl⟩ := apply_check hs
    exact .refl
  | logWrite t =>
    obtain ⟨mine, b, buf, -, hb, rfl⟩ := apply_logWrite hs
    exact .single (.pin b buf hb)
  | endOp t =>
    obtain ⟨-, -, -, rfl⟩ := apply_endOp hs
    unfold endOp
    split <;> exact .refl
  | advance =>
    obtain ⟨t⟩ := ‹Nonempty τ›
    have hfree : s.pc ≠ .rest → Unlocked s := by
      intro hpc b buf hb
      cases hl : buf.lock with
      | none => rfl
      | some u =>
        have := himage.coherent.lock b buf u hb hl
        rw [Proc.target_eq_none (hroom.idle (hroom.busy hpc) u)] at this
        cases this
    rcases advance_cases hs with ⟨-, rfl⟩ | ⟨tail, b, hpc, -, rfl⟩ | ⟨tail, -, -, rfl⟩ |
      ⟨hpc, rfl⟩ | ⟨tail, b, hpc, -, rfl⟩ | ⟨tail, -, -, rfl⟩ | ⟨hpc, rfl⟩
    · exact .single (bread_steps s _)
    · have hf := (hfree (by rw [hpc]; exact fun hp => Pc.noConfusion hp)).bread b
      exact (ReflTransGen.single (bread_steps s b)).trans
        (bwrite_steps (s.bread b) t (fun buf hb => hf _ buf hb) _)
    · exact .refl
    · exact bwrite_steps s t (fun buf hb => hfree (by rw [hpc]; decide) _ buf hb) _
    · have hf := (hfree (by rw [hpc]; exact fun hp => Pc.noConfusion hp)).bread
        (sb.logstart + tail + 1)
      exact (ReflTransGen.single (bread_steps s _)).trans
        (bwrite_steps (s.bread _) t (fun buf hb => hf _ buf hb) _)
    · exact .refl
    · exact bwrite_steps s t (fun buf hb => hfree (by rw [hpc]; decide) _ buf hb) _
  | finish t =>
    obtain ⟨-, -, rfl⟩ := apply_finish hs
    exact .refl
  | fill b =>
    cases hs
    exact .single (bread_steps s b)
  | evict b =>
    obtain ⟨data, hb, rfl⟩ := apply_evict hs
    exact .single (.evict b data hb)
  | spurious t =>
    obtain ⟨-, rfl⟩ := apply_spurious hs
    exact .refl
  | crash => exact absurd rfl he

end Uses

end OsCodes.Log

namespace OsCodes.Bio

open Log (Data Cached CacheStep)

/-! ## What the buffers show -/

section View

variable {τ : Type}

/-- The client that has changed a buffer's data and not written them yet. -/
def toucher (s : State τ) (i : Fin NBUF) : Option τ :=
  (s.buf i).lock.filter fun t =>
    match s.phase t with
    | .has _ _ touched => touched
    | _ => false

/-- What the log sees of a buffer. -/
def entry (s : State τ) (i : Fin NBUF) : Log.Buf τ :=
  ⟨(s.buf i).data, (s.buf i).dirty, toucher s i⟩

/-- The buffer that holds the contents of a block. -/
def holder (s : State τ) (k : Block) : Option (Fin NBUF) :=
  (List.finRange NBUF).find? fun i => decide ((s.buf i).block = k) && (s.buf i).valid

/-- The cache of a device, as the log sees it. -/
def view (dev : Nat) (s : State τ) : Cached τ where
  disk b := s.disk ⟨dev, b⟩
  cache b := (holder s ⟨dev, b⟩).map (entry s)

variable [Fintype τ] {s s' : State τ} {C C' : Disk} {dev b : Nat} {i : Fin NBUF} {t : τ}

theorem toucher_eq_some (h : Good s C i) : toucher s i = some t ↔ ∃ k, s.phase t = .has k i true := by
  rw [toucher, Option.filter_eq_some_iff, h.lock t]
  constructor
  · rintro ⟨hholds, htouch⟩
    cases hp : s.phase t with
    | has k j touched =>
      rw [hp] at hholds htouch
      cases hholds
      have htouch' : touched = true := htouch
      rw [htouch']
      exact ⟨k, rfl⟩
    | _ => rw [hp] at htouch; cases htouch
  · rintro ⟨k, hk⟩
    rw [hk]
    exact ⟨rfl, rfl⟩

omit [Fintype τ] in
theorem holder_some {k : Block} (h : holder s k = some i) :
    (s.buf i).block = k ∧ (s.buf i).valid = true := by
  have := List.find?_some h
  simpa only [Bool.and_eq_true, decide_eq_true_eq] using this

theorem holder_eq (h : Inv s C) {k : Block} (hdev : k.dev ≠ 0) (hb : (s.buf i).block = k)
    (hv : (s.buf i).valid = true) : holder s k = some i := by
  cases hf : holder s k with
  | some j =>
    rw [h.keys j i (by rw [(holder_some hf).1]; exact hdev) ((holder_some hf).1.trans hb.symm)]
  | none =>
    have := List.find?_eq_none.mp hf i (List.mem_finRange i)
    rw [hv, Bool.and_true, decide_eq_true_eq] at this
    exact absurd hb this

omit [Fintype τ] in
theorem holder_none {k : Block} (h : ∀ i, (s.buf i).block = k → (s.buf i).valid = false) :
    holder s k = none := by
  refine List.find?_eq_none.mpr fun i _ hi => ?_
  rw [Bool.and_eq_true, decide_eq_true_eq] at hi
  rw [h i hi.1] at hi
  exact Bool.noConfusion hi.2

/-- A block is shown as before where its buffers are. -/
theorem view_congr (h : Inv s C) (h' : Inv s' C') {k : Block} (hdev : k.dev ≠ 0)
    (hsame : ∀ i, ((s'.buf i).block = k ∧ (s'.buf i).valid = true ↔
      (s.buf i).block = k ∧ (s.buf i).valid = true))
    (hentry : ∀ i, (s.buf i).block = k → (s.buf i).valid = true → entry s' i = entry s i) :
    (holder s' k).map (entry s') = (holder s k).map (entry s) := by
  cases hf : holder s k with
  | some i =>
    obtain ⟨hb, hv⟩ := holder_some hf
    obtain ⟨hb', hv'⟩ := (hsame i).mpr ⟨hb, hv⟩
    rw [holder_eq h' hdev hb' hv', Option.map_some, Option.map_some, hentry i hb hv]
  | none =>
    rw [holder_none, Option.map_none, Option.map_none]
    intro i hi
    by_contra hv
    rw [Bool.not_eq_false] at hv
    obtain ⟨hb, hv⟩ := (hsame i).mp ⟨hi, hv⟩
    rw [holder_eq h hdev hb hv] at hf
    cases hf

/-- What is shown of a buffer: its data, whether it is dirty, and who has changed it. -/
theorem entry_eq (h : Good s C i) (h' : Good s' C' i) (hdata : (s'.buf i).data = (s.buf i).data)
    (hdirty : (s'.buf i).dirty = (s.buf i).dirty)
    (htouch : ∀ u, (∃ k, s'.phase u = .has k i true) ↔ ∃ k, s.phase u = .has k i true) :
    entry s' i = entry s i := by
  have htoucher : toucher s' i = toucher s i := by
    refine Option.ext fun u => ?_
    rw [toucher_eq_some h', toucher_eq_some h, htouch u]
  rw [entry, entry, hdata, hdirty, htoucher]

/-- Nothing that is shown changes. -/
theorem view_quiet (h : Inv s C) (h' : Inv s' C') (hdev : dev ≠ 0) (hdisk : s'.disk = s.disk)
    (hbuf : ∀ j, (s'.buf j).block = (s.buf j).block ∧ (s'.buf j).valid = (s.buf j).valid ∧
      (s'.buf j).data = (s.buf j).data ∧ (s'.buf j).dirty = (s.buf j).dirty)
    (htouch : ∀ u j, (∃ k, s'.phase u = .has k j true) ↔ ∃ k, s.phase u = .has k j true) :
    view dev s' = view dev s := by
  refine Cached.ext (by simp only [view, hdisk]) (funext fun b => ?_)
  refine view_congr h h' hdev (fun j => ?_) fun j _ _ => ?_
  · rw [(hbuf j).1, (hbuf j).2.1]
  · exact entry_eq (h.good j) (h'.good j) (hbuf j).2.2.1 (hbuf j).2.2.2 fun u => htouch u j

/-- The other buffers are shown as before. -/
theorem view_other (h : Inv s C) (h' : Inv s' C') {k k' : Block} (hk : k.dev ≠ 0) (hne : k ≠ k')
    (hold : (s.buf i).block = k') (hnew : (s'.buf i).block = k')
    (hbuf : ∀ j, j ≠ i → s'.buf j = s.buf j)
    (htouch : ∀ u j, j ≠ i → ((∃ k, s'.phase u = .has k j true) ↔ ∃ k, s.phase u = .has k j true)) :
    (holder s' k).map (entry s') = (holder s k).map (entry s) := by
  refine view_congr h h' hk (fun j => ?_) fun j hj _ => ?_
  · by_cases hji : j = i
    · rw [hji, hold, hnew]
      constructor <;> exact fun hb => absurd hb.1.symm hne
    · rw [hbuf j hji]
  · have hji : j ≠ i := by
      rintro rfl
      exact hne (hj.symm.trans hold)
    exact entry_eq (h.good j) (h'.good j) (by rw [hbuf j hji]) (by rw [hbuf j hji])
      fun u => htouch u j hji

/-- **A step of the client that holds a buffer** is seen at its block only. -/
theorem view_holder (h : Inv s C) (h' : Inv s' C') (hb : dev ≠ 0)
    (hold : (s.buf i).block = ⟨dev, b⟩) (hnew : (s'.buf i).block = ⟨dev, b⟩)
    (hvalid : (s'.buf i).valid = true) (hbuf : ∀ j, j ≠ i → s'.buf j = s.buf j)
    (htouch : ∀ u j, j ≠ i → ((∃ k, s'.phase u = .has k j true) ↔ ∃ k, s.phase u = .has k j true)) :
    (view dev s').cache = Function.update (view dev s).cache b (some (entry s' i)) := by
  funext a
  by_cases hab : a = b
  · rw [hab, Function.update_self]
    show (holder s' ⟨dev, b⟩).map (entry s') = _
    rw [holder_eq h' hb hnew hvalid]
    rfl
  · rw [Function.update_of_ne hab]
    exact view_other h h' hb (fun heq => hab (Block.mk.inj heq).2) hold hnew hbuf htouch

/-- The other devices see nothing of a step at a buffer of one device. -/
theorem view_elsewhere (h : Inv s C) (h' : Inv s' C') (hdev : dev ≠ 0) {k : Block} (hk : k.dev ≠ dev)
    (hold : (s.buf i).block = k) (hnew : (s'.buf i).block = k)
    (hdisk : ∀ k', k' ≠ k → s'.disk k' = s.disk k') (hbuf : ∀ j, j ≠ i → s'.buf j = s.buf j)
    (htouch : ∀ u j, j ≠ i → ((∃ k, s'.phase u = .has k j true) ↔ ∃ k, s.phase u = .has k j true)) :
    view dev s' = view dev s := by
  have hne : ∀ a, (⟨dev, a⟩ : Block) ≠ k := by
    rintro a rfl
    exact hk rfl
  exact Cached.ext (funext fun a => hdisk _ (hne a))
    (funext fun a => view_other h h' hdev (hne a) hold hnew hbuf htouch)

omit [Fintype τ] in
/-- The touched buffers, where a client moves on with its own. -/
theorem touch_update [DecidableEq τ] {p : Phase} {k : Block} (ht : (s.phase t).at? = some (k, i))
    (hp : p.at? = some (k, i)) (u : τ) (j : Fin NBUF) (hj : j ≠ i) :
    (∃ k, Function.update s.phase t p u = .has k j true) ↔ ∃ k, s.phase u = .has k j true := by
  by_cases hu : u = t
  · rw [hu, Function.update_self]
    constructor
    · rintro ⟨k', rfl⟩
      cases hp
      exact absurd rfl hj
    · rintro ⟨k', hk'⟩
      rw [hk'] at ht
      cases ht
      exact absurd rfl hj
  · rw [Function.update_of_ne hu]

omit [Fintype τ] in
/-- The touched buffers, where a client that has touched none moves on. -/
theorem touch_keep [DecidableEq τ] {p : Phase} (ht : ∀ k j, s.phase t ≠ .has k j true)
    (hp : ∀ k j, p ≠ .has k j true) (u : τ) (j : Fin NBUF) :
    (∃ k, Function.update s.phase t p u = .has k j true) ↔ ∃ k, s.phase u = .has k j true := by
  by_cases hu : u = t
  · rw [hu, Function.update_self]
    exact ⟨fun ⟨k, hk⟩ => absurd hk (hp k j), fun ⟨k, hk⟩ => absurd hk (ht k j)⟩
  · rw [Function.update_of_ne hu]

end View

/-! ## The refinement -/

section Refines

variable {τ : Type} [Fintype τ] [DecidableEq τ] {s s' : State τ} {C C' : Disk} {dev : Nat}
  {i : Fin NBUF} {t : τ} {k : Block}

/-- **Recycling a buffer** drops what it held, if it held anything of this device. -/
theorem step_miss (h : Inv s C) (hdev : dev ≠ 0) (ht : s.phase t = .out) (hk : k.dev ≠ 0)
    (hc : cached s k = none) (hv : victim s = some i) :
    CacheStep (view dev s) (view dev (setPhase (setBuf s i
      { s.buf i with block := k, valid := false, dirty := false, refcnt := 1 }) t (.want k i))) := by
  have h' := h.miss ht hk hc hv
  obtain ⟨href, hdirty⟩ := h.victim_some hv
  have hno := (h.good i).no_client href
  have htouch := touch_keep (s := s) (t := t) (p := .want k i)
    (fun k' j hp => by rw [ht] at hp; cases hp) fun k' j hp => by cases hp
  generalize hs' : setPhase (setBuf s i
    { s.buf i with block := k, valid := false, dirty := false, refcnt := 1 }) t (.want k i) = s' at h' ⊢
  have hself : (s'.buf i).valid = false := by
    rw [← hs']
    simp only [setPhase, setBuf, Function.update_self]
  have hbuf : ∀ j, j ≠ i → s'.buf j = s.buf j := by
    rw [← hs']
    exact fun j hj => Function.update_of_ne hj _ _
  have hdisk : s'.disk = s.disk := by rw [← hs']; rfl
  have hentry : ∀ j, j ≠ i → entry s' j = entry s j := fun j hj =>
    entry_eq (h.good j) (h'.good j) (by rw [hbuf j hj]) (by rw [hbuf j hj]) fun u => by
      rw [← hs']
      exact htouch u j
  -- a block that the recycled buffer did not hold
  have hother : ∀ a, ((s.buf i).block = ⟨dev, a⟩ → (s.buf i).valid = false) →
      (view dev s').cache a = (view dev s).cache a := by
    intro a ha
    refine view_congr h h' hdev (fun j => ?_) fun j hj hvj => ?_
    · by_cases hji : j = i
      · rw [hji, hself]
        constructor
        · exact fun hb => absurd hb.2 (by decide)
        · exact fun hb => absurd (ha hb.1) (by rw [hb.2]; decide)
      · rw [hbuf j hji]
    · refine hentry j ?_
      rintro rfl
      rw [ha hj] at hvj
      cases hvj
  by_cases hold : (s.buf i).block.dev = dev ∧ (s.buf i).valid = true
  · obtain ⟨hd, hvalid⟩ := hold
    have hblock : (s.buf i).block = ⟨dev, (s.buf i).block.blockno⟩ := by rw [← hd]
    have hshown : (view dev s).cache (s.buf i).block.blockno = some ⟨(s.buf i).data, false, none⟩ := by
      have htoucher : toucher s i = none := by
        cases hto : toucher s i with
        | none => rfl
        | some u =>
          obtain ⟨k', hk'⟩ := (toucher_eq_some (h.good i)).mp hto
          exact absurd (by rw [hk']; rfl) (hno u k')
      show (holder s ⟨dev, _⟩).map (entry s) = _
      rw [holder_eq h hdev hblock hvalid, Option.map_some, entry, hdirty, htoucher]
    have hcache : (view dev s').cache =
        Function.update (view dev s).cache (s.buf i).block.blockno none := by
      funext a
      by_cases ha : a = (s.buf i).block.blockno
      · rw [ha, Function.update_self]
        show (holder s' ⟨dev, _⟩).map (entry s') = none
        rw [holder_none, Option.map_none]
        intro j hj
        by_cases hji : j = i
        · rw [hji]
          exact hself
        · rw [hbuf j hji, ← hblock] at hj
          exact absurd hj (h.block_ne (by rw [hd]; exact hdev) hji)
      · rw [Function.update_of_ne ha]
        refine hother a fun hb => absurd ?_ ha
        rw [hb]
    have hview : view dev s' = { view dev s with
        cache := Function.update (view dev s).cache (s.buf i).block.blockno none } :=
      Cached.ext (by simp only [view, hdisk]) hcache
    rw [hview]
    exact .evict _ _ hshown
  · have hview : view dev s' = view dev s := by
      refine Cached.ext (by simp only [view, hdisk]) (funext fun a => hother a fun hb => ?_)
      by_contra hvalid
      rw [Bool.not_eq_false] at hvalid
      exact hold ⟨by rw [hb], hvalid⟩
    rw [hview]
    exact .same

omit [DecidableEq τ] in
/-- The holder of a buffer is the only one who may have touched it. -/
theorem toucher_holder (h : Good s C i) (ht : (s.phase t).holds = some i) :
    toucher s i = none ∨ toucher s i = some t := by
  cases hto : toucher s i with
  | none => exact .inl rfl
  | some u =>
    obtain ⟨k', hk'⟩ := (toucher_eq_some h).mp hto
    rw [h.holder_unique (t := u) (by rw [hk']; rfl) ht]
    exact .inr rfl

/-- **A step of the client that holds a buffer.** -/
theorem step_holder (h : Inv s C) (h' : Inv s' C') (hdev : dev ≠ 0)
    (hat : (s.phase t).at? = some (k, i)) (touched : Bool)
    (hphase : s'.phase = Function.update s.phase t (.has k i touched))
    (hblock : (s'.buf i).block = (s.buf i).block) (hbuf : ∀ j, j ≠ i → s'.buf j = s.buf j)
    (hdisk : ∀ k', k' ≠ k → s'.disk k' = s.disk k')
    (hstep : ∀ b, k = ⟨dev, b⟩ → toucher s' i = (if touched then some t else none) →
      (view dev s').cache = Function.update (view dev s).cache b (some (entry s' i)) →
      (view dev s').disk = Function.update (view dev s).disk b (s'.disk k) →
      CacheStep (view dev s) (view dev s')) :
    CacheStep (view dev s) (view dev s') := by
  have hold := ((h.good i).block t k hat).1
  have htouch : ∀ u j, j ≠ i → ((∃ k, s'.phase u = .has k j true) ↔ ∃ k, s.phase u = .has k j true) := by
    rw [hphase]
    exact touch_update hat rfl
  have hself : s'.phase t = .has k i touched := by rw [hphase, Function.update_self]
  by_cases hk : k.dev = dev
  · obtain ⟨kdev, b⟩ := k
    obtain rfl : kdev = dev := hk
    refine hstep b rfl ?_ ?_ ?_
    · refine Option.ext fun u => ?_
      rw [toucher_eq_some (h'.good i)]
      constructor
      · rintro ⟨k', hk'⟩
        obtain rfl := (h'.good i).holder_unique (t := u) (by rw [hk']; rfl) (by rw [hself]; rfl)
        rw [hself] at hk'
        cases hk'
        rfl
      · intro hu
        cases touched with
        | false => cases hu
        | true =>
          cases hu
          exact ⟨_, hself⟩
    · exact view_holder h h' hdev hold (hblock.trans hold)
        ((h'.good i).having t _ touched hself) hbuf htouch
    · funext a
      by_cases hab : a = b
      · rw [hab, Function.update_self]
        rfl
      · rw [Function.update_of_ne hab]
        exact hdisk _ fun heq => hab (Block.mk.inj heq).2
  · rw [view_elsewhere h h' hdev hk hold (hblock.trans hold) hdisk hbuf htouch]
    exact .same

omit [DecidableEq τ] in
/-- What is shown of a buffer that `bread` returned. -/
theorem view_has (h : Inv s C) {b : Nat} {touched : Bool} (ht : s.phase t = .has ⟨dev, b⟩ i touched) :
    (view dev s).cache b = some (entry s i) := by
  obtain ⟨hblock, hdev⟩ := (h.good i).block t ⟨dev, b⟩ (by rw [ht]; rfl)
  show (holder s ⟨dev, b⟩).map (entry s) = _
  rw [holder_eq h hdev hblock ((h.good i).having t _ touched ht)]
  rfl

omit [Fintype τ] in
/-- Setting one buffer and one client leaves the other buffers. -/
theorem setBuf_other {b : Buf τ} {p : Phase} (j : Fin NBUF) (hj : j ≠ i) :
    (setPhase (setBuf s i b) t p).buf j = s.buf j :=
  Function.update_of_ne hj _ _

/-- **A step that shows nothing**: neither the data of a buffer nor its flags change, and the client
    has not changed data. -/
theorem step_quiet (h : Inv s C) (h' : Inv s' C') (hdev : dev ≠ 0) {p : Phase}
    (hdisk : s'.disk = s.disk) (hphase : s'.phase = Function.update s.phase t p)
    (ht : ∀ k j, s.phase t ≠ .has k j true) (hp : ∀ k j, p ≠ .has k j true)
    (hbuf : ∀ j, (s'.buf j).block = (s.buf j).block ∧ (s'.buf j).valid = (s.buf j).valid ∧
      (s'.buf j).data = (s.buf j).data ∧ (s'.buf j).dirty = (s.buf j).dirty) :
    CacheStep (view dev s) (view dev s') := by
  rw [view_quiet h h' hdev hdisk hbuf (by rw [hphase]; exact touch_keep ht hp)]
  exact .same

omit [Fintype τ] in
/-- Of one buffer, only the count or the lock changes. -/
theorem setBuf_quiet {b : Buf τ} {p : Phase} (hblock : b.block = (s.buf i).block)
    (hvalid : b.valid = (s.buf i).valid) (hdata : b.data = (s.buf i).data)
    (hdirty : b.dirty = (s.buf i).dirty) (j : Fin NBUF) :
    ((setPhase (setBuf s i b) t p).buf j).block = (s.buf j).block ∧
      ((setPhase (setBuf s i b) t p).buf j).valid = (s.buf j).valid ∧
      ((setPhase (setBuf s i b) t p).buf j).data = (s.buf j).data ∧
      ((setPhase (setBuf s i b) t p).buf j).dirty = (s.buf j).dirty := by
  by_cases hj : j = i
  · rw [hj]
    simp only [setPhase, setBuf, Function.update_self]
    exact ⟨hblock, hvalid, hdata, hdirty⟩
  · rw [setBuf_other j hj]
    exact ⟨rfl, rfl, rfl, rfl⟩

omit [Fintype τ] [DecidableEq τ] in
/-- A client that is not between `bread` and `brelse` has not changed data. -/
theorem untouched {p : Phase} (ht : s.phase t = p) (hp : ∀ k j, p ≠ .has k j true) (k : Block)
    (j : Fin NBUF) : s.phase t ≠ .has k j true := by
  rw [ht]
  exact hp k j

/-- `bread` of a block that was not cached fills it in. -/
theorem step_read (h : Inv s C) (hdev : dev ≠ 0) (ht : s.phase t = .read k i) :
    CacheStep (view dev s) (view dev (setPhase (iderw s i) t (.has k i false))) := by
  have h' := h.read ht
  have hat : (s.phase t).at? = some (k, i) := by rw [ht]; rfl
  have hg := h.good i
  have hvalid := hg.reading t k ht
  have hdirty : (s.buf i).dirty = false := by
    by_contra hd
    rw [Bool.not_eq_false] at hd
    exact absurd (hg.dirty hd) (by rw [hvalid]; decide)
  obtain ⟨hblock, hkdev⟩ := hg.block t k hat
  have hio : iderw s i = setBuf s i
      { s.buf i with data := s.disk (s.buf i).block, valid := true } := by
    simp only [iderw, hdirty]
    rfl
  rw [hio] at h' ⊢
  refine step_holder h h' hdev hat false rfl
    (by simp only [setPhase, setBuf, Function.update_self]) (fun j hj => setBuf_other j hj)
    (fun _ _ => rfl) fun b hb hto hcache _ => ?_
  have hnone : (view dev s).cache b = none := by
    show (holder s ⟨dev, b⟩).map (entry s) = none
    rw [holder_none, Option.map_none]
    intro j hj
    rw [← hb] at hj
    rw [← h.keys i j (by rw [hblock]; exact hkdev) (hblock.trans hj.symm)]
    exact hvalid
  have hentry : entry (setPhase (setBuf s i { s.buf i with
      data := s.disk (s.buf i).block, valid := true }) t (.has k i false)) i =
        ⟨(view dev s).disk b, false, none⟩ := by
    have hdata : s.disk (s.buf i).block = (view dev s).disk b := by
      rw [hblock, hb]
      rfl
    rw [entry, hto]
    simp only [setPhase, setBuf, Function.update_self, hdirty, hdata]
    rfl
  rw [hentry] at hcache
  exact (CacheStep.fill b hnone).to rfl hcache

theorem step_modify {touched : Bool} (h : Inv s C) (hdev : dev ≠ 0)
    (ht : s.phase t = .has k i touched) (v : Data) : CacheStep (view dev s)
      (view dev (setPhase (setBuf s i { s.buf i with data := v }) t (.has k i true))) := by
  have hat : (s.phase t).at? = some (k, i) := by rw [ht]; rfl
  refine step_holder h (h.modify ht v) hdev hat true rfl
    (by simp only [setPhase, setBuf, Function.update_self]) (fun j hj => setBuf_other j hj)
    (fun _ _ => rfl) fun b hb hto hcache _ => ?_
  rw [hb] at ht
  have hentry : entry (setPhase (setBuf s i { s.buf i with data := v }) t (.has k i true)) i =
      ⟨v, (entry s i).dirty, some t⟩ := by
    rw [entry, hto]
    simp only [setPhase, setBuf, Function.update_self, entry]
    rfl
  rw [hentry] at hcache
  exact (CacheStep.modify b t (entry s i) v (view_has h ht)
    (toucher_holder (h.good i) (by rw [ht]; rfl))).to rfl hcache

theorem step_pin {touched : Bool} (h : Inv s C) (hdev : dev ≠ 0)
    (ht : s.phase t = .has k i touched) : CacheStep (view dev s)
      (view dev (setPhase (setBuf s i { s.buf i with dirty := true }) t (.has k i false))) := by
  have hat : (s.phase t).at? = some (k, i) := by rw [ht]; rfl
  refine step_holder h (h.pin ht) hdev hat false rfl
    (by simp only [setPhase, setBuf, Function.update_self]) (fun j hj => setBuf_other j hj)
    (fun _ _ => rfl) fun b hb hto hcache _ => ?_
  rw [hb] at ht
  have hentry : entry (setPhase (setBuf s i { s.buf i with dirty := true }) t (.has k i false)) i =
      ⟨(entry s i).data, true, none⟩ := by
    rw [entry, hto]
    simp only [setPhase, setBuf, Function.update_self, entry]
    rfl
  rw [hentry] at hcache
  exact (CacheStep.pin b (entry s i) (view_has h ht)).to rfl hcache

/-- `bwrite` is the only step that changes the disk. -/
theorem step_bwrite {touched : Bool} (h : Inv s C) (hdev : dev ≠ 0)
    (ht : s.phase t = .has k i touched) : CacheStep (view dev s) (view dev (setPhase
      (iderw (setBuf s i { s.buf i with dirty := true }) i) t (.has k i false))) := by
  have h' := h.bwrite ht
  have hat : (s.phase t).at? = some (k, i) := by rw [ht]; rfl
  have hblock : (s.buf i).block = k := (h.content_at ht).1
  have hio : iderw (setBuf s i { s.buf i with dirty := true }) i =
      { setBuf s i { s.buf i with valid := true, dirty := false } with
        disk := Function.update s.disk k (s.buf i).data } := by
    simp only [iderw, setBuf, Function.update_self, if_true, Function.update_idem, hblock]
  rw [hio] at h' ⊢
  refine step_holder h h' hdev hat false rfl
    (by simp only [setPhase, setBuf, Function.update_self])
    (fun j hj => Function.update_of_ne hj _ _)
    (fun _ hk => Function.update_of_ne hk _ _) fun b hb hto hcache hdisk => ?_
  rw [hb] at ht
  have hentry : entry (setPhase { setBuf s i { s.buf i with valid := true, dirty := false } with
      disk := Function.update s.disk k (s.buf i).data } t (.has k i false)) i =
        ⟨(entry s i).data, false, none⟩ := by
    rw [entry, hto]
    simp only [setPhase, setBuf, Function.update_self, entry]
    rfl
  rw [hentry] at hcache
  exact (CacheStep.write b (entry s i) (view_has h ht)).to
    (hdisk.trans (by simp only [setPhase, Function.update_self, entry])) hcache

/-- The rest of `brelse` moves the buffer in the ring, which is not shown. -/
theorem step_unref (h : Inv s C) (hdev : dev ≠ 0) (ht : s.phase t = .released k i) :
    CacheStep (view dev s) (view dev (unref s t i)) := by
  have hsame : (unref s t i).disk = s.disk ∧ (unref s t i).phase = Function.update s.phase t .out ∧
      (unref s t i).buf =
        (setPhase (setBuf s i { s.buf i with refcnt := (s.buf i).refcnt - 1 }) t .out).buf := by
    unfold unref
    split <;> exact ⟨rfl, rfl, rfl⟩
  obtain ⟨hdisk, hphase, hbuf⟩ := hsame
  refine step_quiet h (h.unref ht) hdev hdisk hphase
    (untouched ht fun _ _ hp => by cases hp) (fun _ _ hp => by cases hp) ?_
  rw [hbuf]
  exact setBuf_quiet rfl rfl rfl rfl

/-- **The ring of buffers is such a cache.**  In every state that polite clients reach, a step of any
    of them is, for each device, one of the steps that a cache may do. -/
theorem bio_refines_cache {disk : Disk} {x : State τ × Record} (h : (recorded disk).Reach x)
    {e : Event τ} (hok : polite x.1 e) {s' : State τ} (hs : apply x.1 e = some s') {dev : Nat}
    (hdev : dev ≠ 0) : CacheStep (view dev x.1) (view dev s') := by
  obtain ⟨hinv, -⟩ := reach_inv h
  have hinv' := hinv.step hok hs
  obtain ⟨s, g⟩ := x
  cases e with
  | bget t k =>
    obtain ⟨ht, hs⟩ := apply_bget hs
    rcases bget_cases hs with ⟨i, -, rfl⟩ | ⟨i, hc, hv, rfl⟩
    · exact step_quiet hinv hinv' hdev rfl rfl (untouched ht fun _ _ hp => by cases hp)
        (fun _ _ hp => by cases hp) (setBuf_quiet rfl rfl rfl rfl)
    · exact step_miss hinv hdev ht hok hc hv
  | acquire t =>
    obtain ⟨k, i, ht, -, rfl⟩ := apply_acquire hs
    exact step_quiet hinv hinv' hdev rfl rfl (untouched ht fun _ _ hp => by cases hp)
      (fun _ _ hp => by split at hp <;> cases hp) (setBuf_quiet rfl rfl rfl rfl)
  | read t =>
    obtain ⟨k, i, ht, rfl⟩ := apply_read hs
    exact step_read hinv hdev ht
  | modify t v =>
    obtain ⟨k, i, touched, ht, rfl⟩ := apply_modify hs
    exact step_modify hinv hdev ht v
  | pin t =>
    obtain ⟨k, i, touched, ht, rfl⟩ := apply_pin hs
    exact step_pin hinv hdev ht
  | bwrite t =>
    obtain ⟨k, i, touched, ht, rfl⟩ := apply_bwrite hs
    exact step_bwrite hinv hdev ht
  | release t =>
    obtain ⟨k, i, touched, ht, rfl⟩ := apply_release hs
    exact step_quiet hinv hinv' hdev rfl rfl hok (fun _ _ hp => by cases hp)
      (setBuf_quiet rfl rfl rfl rfl)
  | unref t =>
    obtain ⟨k, i, ht, rfl⟩ := apply_unref hs
    exact step_unref hinv hdev ht

theorem bio_refines_cache_rewritten : ∃ (x : State (Fin 2) × Record) (s' : State (Fin 2)),
    x.1.phase 0 = .has ⟨1, 5⟩ 1 true ∧ apply x.1 (.bwrite 0) = some s' ∧
      CacheStep (view 1 x.1) (view 1 s') := by
  obtain ⟨x, h, hx, -⟩ := rewritten_reach
  obtain ⟨s', hs'⟩ : ∃ s', apply x.1 (.bwrite 0) = some s' := by
    simp only [apply, hx]
    exact ⟨_, rfl⟩
  have hok : polite x.1 (.bwrite 0) := trivial
  exact ⟨x, s', hx, hs', bio_refines_cache h hok hs' (by decide)⟩

end Refines

end OsCodes.Bio
