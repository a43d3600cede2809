/-
  Which file a handle was opened on.

  The program's handles hold bare inode numbers.  To say that a handle is open on a file that
  has not been deleted since, a run records its history: every successful create is numbered,
  an inode carries the number of the create that filled it, and a slot of the handle array the
  number of the file that the open behind it resolved.  A handle is live while the two agree.

  Nothing in the program depends on the record; it is a ghost, and `Lts.withGhost` adds it.  The
  last section computes runs from a disk that is formatted over zeros, by calls that find zeros in
  their uninitialised memory, with a test for which calls are allowed.  `runCalls_reach` turns
  what such a run comes to into a reachable state, so that a law can be applied there.
-/
import OsCodes.SimpleFS.Effect

namespace OsCodes.SimpleFS

open Bytes

/-- The record of a run. -/
structure History where
  /-- the create event that each inode in use comes from -/
  inst : Fin 8 → Option Nat
  /-- the create event behind each open handle -/
  slot : Fin 20 → Option Nat
  /-- the number of create events -/
  next : Nat
  /-- some write has returned -1 -/
  failed : Bool

namespace History

/-- Before the first call. -/
def empty : History := ⟨fun _ => none, fun _ => none, 0, false⟩

/-- The record after a call made in `fs`. -/
def after (fs : FS) (g : History) (e : Event) : History :=
  match e.op with
  | .create _ =>
    if 0 ≤ e.ret.val then
      { g with inst := fun i => if (i.val : Int) = e.ret.val then some g.next else g.inst i,
               next := g.next + 1 }
    else g
  | .delete f =>
    { g with inst := fun i => if fs.disk.lookup f = some i then none else g.inst i }
  | .openFile f =>
    { g with slot := fun h =>
        if (h.val : Int) = e.ret.val then (fs.disk.lookup f).bind g.inst else g.slot h }
  | .close h => { g with slot := Function.update g.slot h none }
  | .seek .. | .read .. => g
  | .write .. => { g with failed := g.failed || e.ret.val == -1 }

/-- Handle `h` is open on the file that is in inode `i`. -/
def LiveAt (g : History) (h : Fin 20) (i : Fin 8) : Prop :=
  ∃ k, g.slot h = some k ∧ g.inst i = some k

/-- Handle `h` is open on a file not deleted since. -/
def Live (g : History) (h : Fin 20) : Prop := ∃ i, g.LiveAt h i

instance (g : History) (h : Fin 20) (i : Fin 8) : Decidable (g.LiveAt h i) :=
  decidable_of_iff ((g.slot h).isSome ∧ g.slot h = g.inst i)
    ⟨fun ⟨hs, he⟩ => (Option.isSome_iff_exists.mp hs).imp fun _ hk => ⟨hk, he ▸ hk⟩,
      fun ⟨_, hs, hi⟩ => ⟨Option.isSome_iff_exists.mpr ⟨_, hs⟩, hs.trans hi.symm⟩⟩

instance (g : History) (h : Fin 20) : Decidable (g.Live h) :=
  inferInstanceAs (Decidable (∃ i, g.LiveAt h i))

end History

/-- The record agrees with the file system. -/
structure Tracks (fs : FS) (g : History) : Prop where
  inUse : ∀ i, (g.inst i).isSome ↔ fs.disk.InUse i
  instLt : ∀ {i k}, g.inst i = some k → k < g.next
  instOne : ∀ {i j k}, g.inst i = some k → g.inst j = some k → i = j
  slotLt : ∀ {h k}, g.slot h = some k → k < g.next
  closed : ∀ h, g.slot h = none ↔ (fs.fileHandleArray h).inodeNumber = -1
  bound : ∀ h, (fs.fileHandleArray h).inodeNumber = -1 ∨ ∃ i, fs.Bound h i
  live : ∀ {h i}, g.LiveAt h i → fs.Bound h i

theorem ofInt_fin8_ne_neg_one (i : Fin 8) : Int32.ofInt i.val ≠ -1 := by
  intro h
  have hi := toInt_ofInt_fin (by omega) i
  rw [h] at hi
  have : (-1 : Int32).toInt = -1 := by decide
  omega

theorem Disk.lookup_inUse {d : Disk} {f : CStr} {i : Fin 8} (h : d.lookup f = some i) :
    d.InUse i := (Inode.isFile_iff.mp (lookup_some h)).1

namespace Tracks

variable {fs fs' : FS} {g : History}

theorem inUse_of_live (h : Tracks fs g) {k : Fin 20} {i : Fin 8} (hl : g.LiveAt k i) :
    fs.disk.InUse i := by
  obtain ⟨n, -, hi⟩ := hl
  exact (h.inUse i).mp (by rw [hi]; rfl)

/-- Calls that move no inode in or out of use, keep the inode number of every handle, and leave
    the record of inodes and handles. -/
theorem unmoved (h : Tracks fs g) {g' : History}
    (hst : ∀ i, (fs'.disk.inode i).status = (fs.disk.inode i).status)
    (hnum : ∀ k, (fs'.fileHandleArray k).inodeNumber = (fs.fileHandleArray k).inodeNumber)
    (hinst : g'.inst = g.inst) (hslot : g'.slot = g.slot) (hnext : g'.next = g.next) :
    Tracks fs' g' where
  inUse i := by rw [hinst, Disk.InUse, hst]; exact h.inUse i
  instLt hk := by rw [hinst] at hk; rw [hnext]; exact h.instLt hk
  instOne hi hj := by rw [hinst] at hi hj; exact h.instOne hi hj
  slotLt hk := by rw [hslot] at hk; rw [hnext]; exact h.slotLt hk
  closed k := by rw [hslot, hnum]; exact h.closed k
  bound k := by simp only [FS.Bound, hnum]; exact h.bound k
  live hl := by
    rw [FS.Bound, hnum]
    obtain ⟨n, hs, hi⟩ := hl
    rw [hslot] at hs
    rw [hinst] at hi
    exact h.live ⟨n, hs, hi⟩

theorem created (h : Tracks fs g) {u : Uninit} {tempBuf : Mem} {i : Fin 8}
    {new : Inode} {f : CStr} (hfree : fs.disk.sb.inodeFreelist i = flagFree)
    (hnew : NewInode new f) :
    Tracks { fs with disk := fs.disk.created tempBuf i new }
      (g.after fs ⟨.create f, u, ⟨i.val, []⟩⟩) := by
  have hinst : ∀ j : Fin 8, (g.after fs ⟨.create f, u, ⟨i.val, []⟩⟩).inst j =
      if j = i then some g.next else g.inst j := by
    intro j
    simp only [History.after, if_pos (show (0 : Int) ≤ i.val by omega), Fin.ext_iff, Int.ofNat_inj]
  have hnext : (g.after fs ⟨.create f, u, ⟨i.val, []⟩⟩).next = g.next + 1 := by
    simp only [History.after, if_pos (show (0 : Int) ≤ i.val by omega)]
  have hslot : (g.after fs ⟨.create f, u, ⟨i.val, []⟩⟩).slot = g.slot := by
    simp only [History.after, if_pos (show (0 : Int) ≤ i.val by omega)]
  have hinode : ∀ j, j ≠ i → (fs.disk.created tempBuf i new).inode j = fs.disk.inode j := by
    intro j hj
    rw [Disk.created, Disk.inode_setInode_ne _ _ _ hj, Disk.inode_writeSuperBlock]
  have hself : (fs.disk.created tempBuf i new).inode i = new := Disk.inode_setInode_self ..
  constructor
  · intro j
    rw [hinst j, Disk.InUse]
    by_cases hj : j = i
    · subst hj
      rw [if_pos rfl, hself]
      simp [hnew.status]
    · rw [if_neg hj, hinode j hj]
      exact h.inUse j
  · intro j k hk
    rw [hinst j] at hk
    rw [hnext]
    split at hk
    · cases hk; omega
    · have := h.instLt hk; omega
  · -- the new number is in no other inode
    intro j j' k hj hj'
    rw [hinst j] at hj
    rw [hinst j'] at hj'
    split at hj <;> split at hj'
    · rename_i h1 h2; rw [h1, h2]
    · cases hj; exact absurd (h.instLt hj') (by omega)
    · cases hj'; exact absurd (h.instLt hj) (by omega)
    · exact h.instOne hj hj'
  · intro k n hn
    rw [hslot] at hn
    rw [hnext]
    have := h.slotLt hn
    omega
  · intro k
    rw [hslot]
    exact h.closed k
  · exact h.bound
  · -- and behind no handle
    rintro k j ⟨n, hs, hi⟩
    rw [hslot] at hs
    rw [hinst j] at hi
    split at hi
    · cases hi
      exact absurd (h.slotLt hs) (by omega)
    · exact h.live ⟨n, hs, hi⟩

theorem deleted (h : Tracks fs g) {e : Event} {f : CStr} {i : Fin 8} {d' : Disk}
    (he : e.op = .delete f) (hl : fs.disk.lookup f = some i) (hdel : Deleted fs.disk d' i) :
    Tracks { fs with disk := d' } (g.after fs e) := by
  have hinst : ∀ j, (g.after fs e).inst j = if j = i then none else g.inst j := by
    intro j
    simp only [History.after, he, hl, Option.some.injEq, eq_comm]
  have hslot : (g.after fs e).slot = g.slot := by simp only [History.after, he]
  have hnext : (g.after fs e).next = g.next := by simp only [History.after, he]
  have hold : ∀ {j k}, (g.after fs e).inst j = some k → j ≠ i ∧ g.inst j = some k := by
    intro j k hk
    rw [hinst j] at hk
    split at hk
    · cases hk
    · rename_i hj; exact ⟨hj, hk⟩
  constructor
  · intro j
    rw [hinst j, Disk.InUse]
    by_cases hj : j = i
    · subst hj
      rw [if_pos rfl, hdel.status]
      decide
    · rw [if_neg hj, hdel.inode_ne j hj]
      exact h.inUse j
  · intro j k hk
    rw [hnext]
    exact h.instLt (hold hk).2
  · intro j j' k hj hj'
    exact h.instOne (hold hj).2 (hold hj').2
  · intro k n hn
    rw [hslot] at hn
    rw [hnext]
    exact h.slotLt hn
  · intro k
    rw [hslot]
    exact h.closed k
  · exact h.bound
  · rintro k j ⟨n, hs, hi⟩
    rw [hslot] at hs
    exact h.live ⟨n, hs, (hold hi).2⟩

theorem opened (h : Tracks fs g) {u : Uninit} {f : CStr} {i : Fin 8} {k : Fin 20}
    (hl : fs.disk.lookup f = some i) :
    Tracks (fs.setHandle k { offset := 0, inodeNumber := Int32.ofInt i.val })
      (g.after fs ⟨.openFile f, u, ⟨k.val, []⟩⟩) := by
  have hslot : ∀ k', (g.after fs ⟨.openFile f, u, ⟨k.val, []⟩⟩).slot k' =
      if k' = k then g.inst i else g.slot k' := by
    intro k'
    simp only [History.after, hl, Option.bind_some, Fin.ext_iff, Int.ofNat_inj]
  obtain ⟨n, hn⟩ := Option.isSome_iff_exists.mp ((h.inUse i).mpr (Disk.lookup_inUse hl))
  constructor
  · exact h.inUse
  · exact h.instLt
  · exact h.instOne
  · intro k' m hm
    rw [hslot k'] at hm
    split at hm
    · exact h.instLt hm
    · exact h.slotLt hm
  · intro k'
    rw [hslot k']
    by_cases hk : k' = k
    · rw [if_pos hk, hk, FS.setHandle_self, hn]
      exact ⟨fun hc => (by cases hc), fun hc => absurd hc (ofInt_fin8_ne_neg_one i)⟩
    · rw [if_neg hk, FS.setHandle_ne _ _ _ hk]
      exact h.closed k'
  · intro k'
    simp only [FS.Bound]
    by_cases hk : k' = k
    · rw [hk, FS.setHandle_self]
      exact .inr ⟨i, rfl⟩
    · rw [FS.setHandle_ne _ _ _ hk]
      exact h.bound k'
  · rintro k' j ⟨m, hs, hi⟩
    rw [hslot k'] at hs
    rw [FS.Bound]
    by_cases hk : k' = k
    · rw [if_pos hk] at hs
      rw [hk, FS.setHandle_self, h.instOne hs hi]
    · rw [if_neg hk] at hs
      rw [FS.setHandle_ne _ _ _ hk]
      exact h.live ⟨m, hs, hi⟩

theorem closing (h : Tracks fs g) {u : Uninit} {r : Ret} {k : Fin 20} :
    Tracks (fs.setHandle k { offset := 0, inodeNumber := -1 }) (g.after fs ⟨.close k, u, r⟩) := by
  have hslot : (g.after fs ⟨.close k, u, r⟩).slot = Function.update g.slot k none := rfl
  constructor
  · exact h.inUse
  · exact h.instLt
  · exact h.instOne
  · intro k' m hm
    rw [hslot] at hm
    by_cases hk : k' = k
    · rw [hk, Function.update_self] at hm
      cases hm
    · rw [Function.update_of_ne hk] at hm
      exact h.slotLt hm
  · intro k'
    rw [hslot]
    by_cases hk : k' = k
    · rw [hk, Function.update_self, FS.setHandle_self]
      simp
    · rw [Function.update_of_ne hk, FS.setHandle_ne _ _ _ hk]
      exact h.closed k'
  · intro k'
    simp only [FS.Bound]
    by_cases hk : k' = k
    · rw [hk, FS.setHandle_self]
      exact .inl rfl
    · rw [FS.setHandle_ne _ _ _ hk]
      exact h.bound k'
  · rintro k' j ⟨m, hs, hi⟩
    rw [hslot] at hs
    rw [FS.Bound]
    by_cases hk : k' = k
    · rw [hk, Function.update_self] at hs
      cases hs
    · rw [Function.update_of_ne hk] at hs
      rw [FS.setHandle_ne _ _ _ hk]
      exact h.live ⟨m, hs, hi⟩

/-- **Every outcome keeps the record in step with the file system.** -/
theorem effect {e : Event} (h : Tracks fs g)
    (he : Effect fs e.op e.ret fs') : Tracks fs' (g.after fs e) := by
  obtain ⟨op, u, r⟩ := e
  cases he with
  | createRefused =>
    exact h.unmoved (fun _ => rfl) (fun _ => rfl) (by simp [History.after])
      (by simp [History.after]) (by simp [History.after])
  | created _ hfree hnew => exact h.created hfree hnew
  | deleteNone hl =>
    refine h.unmoved (fun _ => rfl) (fun _ => rfl) ?_ rfl rfl
    simp [History.after, hl]
  | deleted hl hdel => exact h.deleted rfl hl hdel
  | openRefused =>
    refine h.unmoved (fun _ => rfl) (fun _ => rfl) rfl ?_ rfl
    funext k
    simp only [History.after, if_neg (show ¬ (k.val : Int) = -1 by omega)]
  | opened hl => exact h.opened hl
  | closed => exact h.closing
  | @sought k =>
    refine h.unmoved (fun _ => rfl) (fun k' => ?_) rfl rfl rfl
    by_cases hk : k' = k
    · rw [hk, FS.setHandle_self]
    · rw [FS.setHandle_ne _ _ _ hk]
  | read => exact h.unmoved (fun _ => rfl) (fun _ => rfl) rfl rfl rfl
  | write hw =>
    refine h.unmoved (fun i => ?_) (fun k => by rw [hw.handles]) rfl rfl rfl
    rcases hw.outcome with ⟨-, hl⟩ | ⟨-, j, o, n, -, -, -, -, -, hwr⟩
    · rw [hl.sbOnly.inode]
    · by_cases hi : i = j
      · rw [hi, hwr.status]
      · rw [hwr.inode_ne i hi]

theorem start (h : Fresh fs) : Tracks fs History.empty where
  inUse i := by
    rw [Disk.InUse, h.status]
    exact ⟨fun hs => (by cases hs), fun hs => absurd hs (by decide)⟩
  instLt hk := by cases hk
  instOne hk := by cases hk
  slotLt hk := by cases hk
  closed k := by rw [h.handle k]; simp [History.empty]
  bound k := .inl (by rw [h.handle k])
  live := by
    rintro k i ⟨n, hs, -⟩
    cases hs

end Tracks

/-- SimpleFS with the record of its run. -/
def simplefsHistory : Lts (FS × History) Event := simplefs.withGhost .empty History.after

/-- A run starts from a fresh file system. -/
theorem start_fresh {s : FS × History} (h : simplefsHistory.start s) : Fresh s.1 := by
  obtain ⟨⟨tempBuf, name, hrun⟩, -⟩ := h
  obtain ⟨fs, hrun', hfresh⟩ := formatDisk_fresh tempBuf name
  rw [Except.ok.inj (hrun.symm.trans hrun')]
  exact hfresh

/-! ## Runs that can be computed -/

/-- Calls that find zeros wherever they do not initialise their memory. -/
def Uninit.zero : Uninit := ⟨fun _ _ => 0, fun _ => 0⟩

section Computed

variable {σ : Type} (fs : σ → FS) (put : σ → Event → FS → σ) (ok : σ → Event → Bool)

/-- The state behind a call that finds zeros, if `ok` allows the call. -/
def call (s : σ) (op : Op) : Option σ :=
  (Ops.exec .zero (fs s) op).toOption.bind fun x =>
    if ok s ⟨op, .zero, x.1⟩ = true then some (put s ⟨op, .zero, x.1⟩ x.2) else none

/-- The state behind a list of such calls, from a disk formatted over zeros. -/
def runCalls (start : FS → σ) (l : List Op) : Option σ :=
  (formatDisk (fun _ => 0) fun _ => 0).toOption.bind fun d => l.foldlM (call fs put ok) (start d)

variable {fs put ok} {L : Lts σ Event} {start : FS → σ} {l : List Op} {s : σ}

/-- Where the calls are steps of `L`, the state behind them is reachable. -/
theorem runCalls_reach (h0 : ∀ tempBuf name d, formatDisk tempBuf name = .ok d → L.start (start d))
    (hs : ∀ s e d, e.op ∈ l → ok s e = true →
      Ops.exec e.uninit (fs s) e.op = .ok (e.ret, d) → L.step s e (put s e d))
    (h : runCalls fs put ok start l = some s) : L.Reach s := by
  obtain ⟨d, hd, hrun⟩ := Option.bind_eq_some_iff.mp h
  refine Lts.Reach.foldlM ?_ (.start (h0 _ _ d (toOption_eq_some.mp hd))) hrun
  intro op hop s s' hcall
  obtain ⟨⟨ret, d'⟩, hexec, hcall⟩ := Option.bind_eq_some_iff.mp hcall
  obtain ⟨hok, hput⟩ := Option.ite_none_right_eq_some.mp hcall
  rw [← Option.some.inj hput]
  exact ⟨⟨op, .zero, ret⟩, hs s _ d' hop hok (toOption_eq_some.mp hexec)⟩

end Computed

/-- Such a run with its history, of a client that makes the calls of `ok`. -/
def runGuarded (ok : FS × History → Event → Bool) : List Op → Option (FS × History) :=
  runCalls Prod.fst (fun s e d => (d, s.2.after s.1 e)) ok fun d => (d, .empty)

theorem runGuarded_reach {check : FS × History → Event → Bool} {ok : FS × History → Event → Prop}
    {l : List Op} {s : FS × History} (h : runGuarded check l = some s)
    (hok : ∀ s e, e.op ∈ l → check s e = true → ok s e) : (simplefsHistory.guard ok).Reach s := by
  refine runCalls_reach ?_ ?_ h
  · exact fun tempBuf name d hd => ⟨⟨tempBuf, name, hd⟩, rfl⟩
  · exact fun s e d he hc hexec => ⟨hok s e he hc, hexec, rfl⟩

/-- A run of any calls. -/
def runFormatted : List Op → Option (FS × History) := runGuarded fun _ _ => true

theorem runFormatted_reach {ok : FS × History → Event → Prop} {l : List Op} {s : FS × History}
    (h : runFormatted l = some s) (hok : ∀ s e, e.op ∈ l → ok s e) :
    (simplefsHistory.guard ok).Reach s :=
  runGuarded_reach h fun s e he _ => hok s e he

/-- A run with a record of its own beside its history. -/
def runRecorded {γ : Type} (upd : FS × History → γ → Event → γ) (g₀ : γ)
    (ok : (FS × History) × γ → Event → Bool) : List Op → Option ((FS × History) × γ) :=
  runCalls (fun s => s.1.1) (fun s e d => ((d, s.1.2.after s.1.1 e), upd s.1 s.2 e)) ok
    fun d => ((d, .empty), g₀)

theorem runRecorded_reach {γ : Type} {upd : FS × History → γ → Event → γ} {g₀ : γ}
    {check : (FS × History) × γ → Event → Bool} {ok : (FS × History) × γ → Event → Prop}
    {l : List Op} {s : (FS × History) × γ} (h : runRecorded upd g₀ check l = some s)
    (hok : ∀ s e, e.op ∈ l → check s e = true → ok s e) :
    ((simplefsHistory.withGhost g₀ upd).guard ok).Reach s := by
  refine runCalls_reach ?_ ?_ h
  · exact fun tempBuf name d hd => ⟨⟨⟨tempBuf, name, hd⟩, rfl⟩, rfl⟩
  · exact fun s e d he hc hexec => ⟨hok s e he hc, ⟨hexec, rfl⟩, rfl⟩

/-- `"a"` and `"b"`. -/
def nameA : CStr := ⟨[97], by decide⟩
def nameB : CStr := ⟨[98], by decide⟩

end OsCodes.SimpleFS
