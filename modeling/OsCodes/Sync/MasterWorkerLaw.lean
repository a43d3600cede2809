/-
  What the masters and the workers of master-worker.c do with the items.

  `Book` is about the counters, the buffer and the output: it survives every turn because a master
  appends the next item and a worker moves the last one to the output.  `Inv` says what a thread
  knows that is blocked (the buffer is full, or empty, and there is work left) or has exited (there
  is no work left).  Exactly-once delivery is `Book` at the end; that nobody is left behind is
  `Inv` alone.

  1. `Book.once`: with all items produced and the buffer empty, each item has been passed on once;
  2. `Inv.put` and `Inv.take` are the two turns that change the counters.  Each broadcasts to the
     threads of the other kind, whose reason to be blocked it takes away;
  3. `exactly_once` is `Book` in every state and, once all threads have exited, what `check.awk`
     looks for: nothing is missing and nothing comes twice;
  4. `never_deadlocks` says that a thread that has not exited is not alone asleep, and that nobody
     is left blocked at the end.

  The numbers of masters, of workers, of items and of places in the buffer are any; progress needs
  one master, one worker and one place.
-/
import OsCodes.Sync.MasterWorker
import Mathlib.Data.List.Perm.Basic

namespace OsCodes.MasterWorker

open Monitor

/-! ## Items -/

/-- The items before `k`, in order. -/
def items (k : Nat) : List Int := (List.range k).map fun i : Nat => (i : Int)

theorem items_succ (k : Nat) : items (k + 1) = items k ++ [(k : Int)] := by
  rw [items, List.range_succ, List.map_append]
  rfl

theorem mem_items {k : Nat} {i : Int} (h0 : 0 ≤ i) (hk : i < k) : i ∈ items k :=
  List.mem_map.mpr ⟨i.toNat, List.mem_range.mpr (by omega), by omega⟩

theorem items_nodup (k : Nat) : (items k).Nodup :=
  List.nodup_range.map fun _ _ h => Int.ofNat_inj.mp h

/-- What has been produced, in the order of the output. -/
def producedNums (out : List Line) : List Int :=
  out.filterMap fun
    | .produced num _ => some num
    | .consumed _ _ => none

/-- The numbers that were consumed, in the order of the output. -/
def consumedNums (out : List Line) : List Int :=
  out.filterMap fun
    | .produced _ _ => none
    | .consumed num _ => some num

/-- `buffer[0..curr_buf_size)`. -/
def buffered (s : Shared) : List Int :=
  (List.range s.currBufSize.toNat).map fun i : Nat => s.buffer i

/-! ## The books -/

/-- The counters agree, and every item produced so far has been consumed or is in the buffer. -/
structure Book (a : Args) (s : Shared) : Prop where
  nonneg : 0 ≤ s.currBufSize
  room : s.currBufSize ≤ a.maxBufSize
  read : 0 ≤ s.itemRead
  balance : s.itemToProduce = s.itemRead + s.currBufSize
  bound : s.itemToProduce ≤ a.totalItems
  produced : producedNums s.output = items s.itemToProduce.toNat
  delivered : (consumedNums s.output ++ buffered s).Perm (items s.itemToProduce.toNat)

/-- The items before the next one, with it. -/
theorem items_toNat_succ {i : Int} (hi : 0 ≤ i) : items (i + 1).toNat = items i.toNat ++ [i] := by
  have hsucc : (i + 1).toNat = i.toNat + 1 := by omega
  rw [hsucc, items_succ]
  have hcast : (i.toNat : Int) = i := by omega
  rw [hcast]

theorem Book.put {a : Args} {s : Shared} (h : Book a s) (id : Nat)
    (hroom : s.currBufSize ≠ a.maxBufSize) (hwork : s.itemToProduce < a.totalItems) :
    Book a (put id s) := by
  have hnonneg := h.nonneg
  have hr := h.room
  have hread := h.read
  have hbal := h.balance
  have hpos : 0 ≤ s.itemToProduce := by omega
  -- the slots below the new one are as before
  have hbuf : buffered (MasterWorker.put id s) = buffered s ++ [s.itemToProduce] := by
    show (List.range (s.currBufSize + 1).toNat).map
      (fun i : Nat => Function.update s.buffer s.currBufSize s.itemToProduce i) = _
    have hsucc : (s.currBufSize + 1).toNat = s.currBufSize.toNat + 1 := by omega
    have hlast : (s.currBufSize.toNat : Int) = s.currBufSize := by omega
    rw [hsucc, List.range_succ, List.map_append, buffered]
    refine congrArg₂ (· ++ ·) (List.map_congr_left fun i hi => ?_) ?_
    · have hlt := List.mem_range.mp hi
      exact Function.update_of_ne (by omega) _ _
    · show [Function.update s.buffer s.currBufSize s.itemToProduce s.currBufSize.toNat] = _
      rw [hlast, Function.update_self]
  have hprod : producedNums (MasterWorker.put id s).output =
      producedNums s.output ++ [s.itemToProduce] := List.filterMap_append
  have hcons : consumedNums (MasterWorker.put id s).output = consumedNums s.output := by
    show consumedNums (s.output ++ [.produced s.itemToProduce id]) = _
    rw [consumedNums, List.filterMap_append]
    exact List.append_nil _
  have hnext : (MasterWorker.put id s).itemToProduce = s.itemToProduce + 1 := rfl
  refine ⟨?_, ?_, hread, ?_, ?_, ?_, ?_⟩
  · show 0 ≤ s.currBufSize + 1
    omega
  · show s.currBufSize + 1 ≤ a.maxBufSize
    omega
  · show s.itemToProduce + 1 = s.itemRead + (s.currBufSize + 1)
    omega
  · show s.itemToProduce + 1 ≤ a.totalItems
    omega
  · rw [hprod, hnext, items_toNat_succ hpos, h.produced]
  · rw [hbuf, hcons, hnext, items_toNat_succ hpos, ← List.append_assoc]
    exact h.delivered.append_right _

theorem Book.take {a : Args} {s : Shared} (h : Book a s) (id : Nat)
    (hsome : s.currBufSize ≠ 0) : Book a (take id s) := by
  have hnonneg := h.nonneg
  have hr := h.room
  have hread := h.read
  have hbal := h.balance
  have hbuf : buffered s = buffered (MasterWorker.take id s) ++ [s.buffer (s.currBufSize - 1)] := by
    show _ = (List.range (s.currBufSize - 1).toNat).map (fun i : Nat => s.buffer i) ++ _
    have hsucc : s.currBufSize.toNat = (s.currBufSize - 1).toNat + 1 := by omega
    have hlast : ((s.currBufSize - 1).toNat : Int) = s.currBufSize - 1 := by omega
    rw [buffered, hsucc, List.range_succ, List.map_append, List.map_singleton, hlast]
  have hprod : producedNums (MasterWorker.take id s).output = producedNums s.output := by
    show producedNums (s.output ++ [.consumed (s.buffer (s.currBufSize - 1)) id]) = _
    rw [producedNums, List.filterMap_append]
    exact List.append_nil _
  have hcons : consumedNums (MasterWorker.take id s).output =
      consumedNums s.output ++ [s.buffer (s.currBufSize - 1)] := List.filterMap_append
  have hnext : (MasterWorker.take id s).itemToProduce = s.itemToProduce := rfl
  refine ⟨?_, ?_, ?_, ?_, h.bound, ?_, ?_⟩
  · show 0 ≤ s.currBufSize - 1
    omega
  · show s.currBufSize - 1 ≤ a.maxBufSize
    omega
  · show 0 ≤ s.itemRead + 1
    omega
  · show s.itemToProduce = s.itemRead + 1 + (s.currBufSize - 1)
    omega
  · rw [hprod, hnext, h.produced]
  · have hdel := h.delivered
    rw [hbuf] at hdel
    rw [hcons, hnext, List.append_assoc]
    exact (List.perm_append_comm.append_left _).trans hdel

/-! ## The invariant -/

section Invariant

variable {a : Args} {m n : Nat}

/-- The books are right; a blocked thread has work left but no room for it, or nothing to take; an
    exited thread has seen that there is no work left. -/
structure Inv (a : Args) (s : St m n) : Prop where
  book : Book a s.shared
  masterBlocked : ∀ {id c p}, s.status (.master id) = .blocked c p →
    c = .ofM ∧ s.shared.currBufSize = a.maxBufSize ∧ s.shared.itemToProduce < a.totalItems
  workerBlocked : ∀ {id c p}, s.status (.worker id) = .blocked c p →
    c = .ofW ∧ s.shared.currBufSize = 0 ∧ s.shared.itemRead < a.totalItems
  masterExited : ∀ {id}, s.status (.master id) = .out .exited →
    a.totalItems ≤ s.shared.itemToProduce
  workerExited : ∀ {id}, s.status (.worker id) = .out .exited → a.totalItems ≤ s.shared.itemRead

/-- Another thread that has exited had done so before the step. -/
theorem exited_before {t u : Thread m n} {x : Turns} {s s' : St m n}
    (hrun : Runs .some t x s s') (hu : u ≠ t) {p : Phase} (ho : s'.status u = .out p) :
    s.status u = .out p := by
  rcases hrun.other hu with heq | ⟨c, q, -, hw⟩
  · rw [← heq, ho]
  · rw [hw] at ho
    cases ho

/-- A turn that leaves the counters alone: what it says of its own thread is all that is new. -/
theorem Inv.idle {t : Thread m n} {x : Turns} {s s' : St m n} (h : Inv a s)
    (hrun : Runs .some t x s s') (hx : x.shared = s.shared)
    (hmb : ∀ {id c p}, t = .master id → x.next.status = .blocked c p →
      c = .ofM ∧ s.shared.currBufSize = a.maxBufSize ∧ s.shared.itemToProduce < a.totalItems)
    (hwb : ∀ {id c p}, t = .worker id → x.next.status = .blocked c p →
      c = .ofW ∧ s.shared.currBufSize = 0 ∧ s.shared.itemRead < a.totalItems)
    (hme : ∀ {id}, t = .master id → x.next.status = .out .exited →
      a.totalItems ≤ s.shared.itemToProduce)
    (hwe : ∀ {id}, t = .worker id → x.next.status = .out .exited →
      a.totalItems ≤ s.shared.itemRead) : Inv a s' := by
  have hsame : s'.shared = s.shared := hrun.shared.trans hx
  rw [← hsame] at hmb hwb hme hwe
  have hself := hrun.self
  refine ⟨hsame ▸ h.book, fun {id c p} hb => ?_, fun {id c p} hb => ?_, fun {id} ho => ?_,
    fun {id} ho => ?_⟩
  · by_cases ht : .master id = t
    · exact hmb ht.symm (hself ▸ ht ▸ hb)
    · rw [hsame]
      exact h.masterBlocked (hrun.blocked ht hb)
  · by_cases ht : .worker id = t
    · exact hwb ht.symm (hself ▸ ht ▸ hb)
    · rw [hsame]
      exact h.workerBlocked (hrun.blocked ht hb)
  · by_cases ht : .master id = t
    · exact hme ht.symm (hself ▸ ht ▸ ho)
    · rw [hsame]
      exact h.masterExited (exited_before hrun ht ho)
  · by_cases ht : .worker id = t
    · exact hwe ht.symm (hself ▸ ht ▸ ho)
    · rw [hsame]
      exact h.workerExited (exited_before hrun ht ho)

/-- A master that puts an item: no master was blocked, and no worker is after the broadcast. -/
theorem Inv.put {id : Fin m} {s s' : St m n} (h : Inv a s)
    (hroom : s.shared.currBufSize ≠ a.maxBufSize)
    (hwork : s.shared.itemToProduce < a.totalItems)
    (hrun : Runs .some (.master id)
      ⟨MasterWorker.put id s.shared, [.broadcast .ofW], .leave .looping⟩ s s') : Inv a s' := by
  have hshared : s'.shared = MasterWorker.put id s.shared := hrun.shared
  have hself : s'.status (.master id) = .out .looping := hrun.self
  refine ⟨hshared ▸ h.book.put id hroom hwork, fun {i c p} hb => ?_, fun {i c p} hb => ?_,
    fun {i} ho => ?_, fun {i} ho => ?_⟩
  · by_cases hi : i = id
    · rw [hi, hself] at hb
      cases hb
    · have hbefore := hrun.blocked (fun heq => hi (Thread.master.inj heq)) hb
      exact absurd (h.masterBlocked hbefore).2.1 hroom
  · have hne : Thread.worker i ≠ .master id := by
      intro heq
      cases heq
    have hc := (h.workerBlocked (hrun.blocked hne hb)).1
    rw [hc] at hb
    exact absurd hb (hrun.broadcast (List.mem_singleton.mpr rfl) hne)
  · by_cases hi : i = id
    · rw [hi, hself] at ho
      cases ho
    · have hdone := h.masterExited (exited_before hrun (fun heq => hi (Thread.master.inj heq)) ho)
      omega
  · have hne : Thread.worker i ≠ .master id := by
      intro heq
      cases heq
    rw [hshared]
    exact h.workerExited (exited_before hrun hne ho)

/-- A worker that takes an item: no worker was blocked, and no master is after the broadcast. -/
theorem Inv.take {id : Fin n} {s s' : St m n} (h : Inv a s) (hsome : s.shared.currBufSize ≠ 0)
    (hrun : Runs .some (.worker id)
      ⟨MasterWorker.take id s.shared, [.broadcast .ofM], .leave .looping⟩ s s') : Inv a s' := by
  have hshared : s'.shared = MasterWorker.take id s.shared := hrun.shared
  have hself : s'.status (.worker id) = .out .looping := hrun.self
  refine ⟨hshared ▸ h.book.take id hsome, fun {i c p} hb => ?_, fun {i c p} hb => ?_,
    fun {i} ho => ?_, fun {i} ho => ?_⟩
  · have hne : Thread.master i ≠ .worker id := by
      intro heq
      cases heq
    have hc := (h.masterBlocked (hrun.blocked hne hb)).1
    rw [hc] at hb
    exact absurd hb (hrun.broadcast (List.mem_singleton.mpr rfl) hne)
  · by_cases hi : i = id
    · rw [hi, hself] at hb
      cases hb
    · have hbefore := hrun.blocked (fun heq => hi (Thread.worker.inj heq)) hb
      exact absurd (h.workerBlocked hbefore).2.1 hsome
  · have hne : Thread.master i ≠ .worker id := by
      intro heq
      cases heq
    rw [hshared]
    exact h.masterExited (exited_before hrun hne ho)
  · by_cases hi : i = id
    · rw [hi, hself] at ho
      cases ho
    · have hdone := h.workerExited (exited_before hrun (fun heq => hi (Thread.worker.inj heq)) ho)
      rw [hshared]
      show a.totalItems ≤ s.shared.itemRead + 1
      omega

/-- **The step lemma**, by the round that the thread makes: a number put into the buffer, one taken
    out, or neither. -/
theorem Inv.step {s s' : St m n} {e : Event (Thread m n) Unit} (h : Inv a s)
    (hst : (masterWorker a m n).step s e s') : Inv a s' := by
  rcases step_cases hst with ⟨t, x, hturn, hrun⟩ | ⟨hs, hstir⟩
  · cases hturn with
    | masterExit hdone =>
      refine h.idle hrun rfl (fun _ hb => ?_) (fun _ hb => ?_) (fun _ _ => hdone)
        fun ht _ => ?_
      · cases hb
      · cases hb
      · cases ht
    | masterWait hfull hwork =>
      refine h.idle hrun rfl (fun _ hb => ?_) (fun ht _ => ?_) (fun _ ho => ?_) fun _ ho => ?_
      · cases hb
        exact ⟨rfl, hfull, hwork⟩
      · cases ht
      · cases ho
      · cases ho
    | put hroom hwork => exact h.put hroom hwork hrun
    | workerExit hdone =>
      refine h.idle hrun rfl (fun _ hb => ?_) (fun _ hb => ?_) (fun ht _ => ?_)
        fun _ _ => hdone
      · cases hb
      · cases hb
      · cases ht
    | workerWait hempty hwork =>
      refine h.idle hrun rfl (fun ht _ => ?_) (fun _ hb => ?_) (fun _ ho => ?_) fun _ ho => ?_
      · cases ht
      · cases hb
        exact ⟨rfl, hempty, hwork⟩
      · cases ho
      · cases ho
    | take hsome _ => exact h.take hsome hrun
  · have hout : ∀ {t p}, s'.status t = .out p → s.status t = .out p := by
      intro t p ho
      rcases hstir t with heq | ⟨c, q, -, hw⟩
      · rw [← heq, ho]
      · rw [hw] at ho
        cases ho
    exact ⟨hs ▸ h.book, fun hb => hs ▸ h.masterBlocked (hstir.blocked hb),
      fun hb => hs ▸ h.workerBlocked (hstir.blocked hb), fun ho => hs ▸ h.masterExited (hout ho),
      fun ho => hs ▸ h.workerExited (hout ho)⟩

/-- **The run lemma**: the counts are right in every state that the threads reach. -/
theorem inv (htotal : 0 ≤ a.totalItems) (hmax : 0 ≤ a.maxBufSize) {s : St m n}
    (hr : (masterWorker a m n).Reach s) : Inv a s := by
  refine hr.invariant (fun s h0 => ?_) fun s e s' h hst => h.step hst
  obtain ⟨⟨buffer, hs⟩, hout⟩ := h0
  refine ⟨?_, fun {id c p} hb => ?_, fun {id c p} hb => ?_, fun {id} ho => ?_, fun {id} ho => ?_⟩
  · rw [hs]
    exact ⟨Int.le_refl 0, hmax, Int.le_refl 0, rfl, htotal, rfl, List.Perm.nil⟩
  · rw [hout] at hb
    cases hb
  · rw [hout] at hb
    cases hb
  · rw [hout] at ho
    cases ho
  · rw [hout] at ho
    cases ho

end Invariant

/-! ## Delivery -/

/-- `prod[i]` of check.awk: how often the number was produced. -/
def prod (out : List Line) (i : Int) : Nat := (producedNums out).count i

/-- `cons[i]` of check.awk: how often the number was consumed. -/
def cons (out : List Line) (i : Int) : Nat := (consumedNums out).count i

/-- check.awk has nothing to report: each number below `max` was produced once and consumed once. -/
def check (max : Nat) (out : List Line) : Bool :=
  (List.range max).countP (fun i : Nat => prod out i == 1 && cons out i == 1) == max

theorem check_eq_true {max : Nat} {out : List Line}
    (h : ∀ i : Nat, i < max → prod out i = 1 ∧ cons out i = 1) : check max out = true := by
  have hall : (List.range max).countP (fun i : Nat => prod out i == 1 && cons out i == 1) =
      (List.range max).length := by
    refine List.countP_eq_length.mpr fun i hi => ?_
    obtain ⟨hp, hc⟩ := h i (List.mem_range.mp hi)
    rw [hp, hc]
    rfl
  rw [check, hall, List.length_range]
  exact beq_self_eq_true max

/-- When all is produced and the buffer is empty, every item has been passed on once. -/
theorem Book.once {a : Args} {s : Shared} (h : Book a s)
    (hdone : a.totalItems ≤ s.itemToProduce) (hread : a.totalItems ≤ s.itemRead) {i : Int}
    (h0 : 0 ≤ i) (hi : i < a.totalItems) : prod s.output i = 1 ∧ cons s.output i = 1 := by
  have hnonneg := h.nonneg
  have hbal := h.balance
  have hbound := h.bound
  have hmem : i ∈ items s.itemToProduce.toNat := mem_items h0 (by omega)
  have hone := List.count_eq_one_of_mem (items_nodup _) hmem
  have hempty : buffered s = [] := by
    have hz : s.currBufSize = 0 := by omega
    rw [buffered, hz]
    rfl
  constructor
  · rw [prod, h.produced]
    exact hone
  · have hdel := h.delivered
    rw [hempty, List.append_nil] at hdel
    rw [cons, hdel.count_eq]
    exact hone

/-- **Exactly-once delivery**: items are produced in order, each is consumed once or in the buffer,
    and once all threads have exited each has been produced once and consumed once. -/
theorem exactly_once {a : Args} (htotal : 0 ≤ a.totalItems) (hmax : 1 ≤ a.maxBufSize) {m n : Nat}
    {s : St m n} (hr : (masterWorker a m n).Reach s) :
    0 ≤ s.shared.currBufSize ∧ s.shared.currBufSize ≤ a.maxBufSize ∧
    s.shared.itemToProduce = s.shared.itemRead + s.shared.currBufSize ∧
    0 ≤ s.shared.itemRead ∧ s.shared.itemToProduce ≤ a.totalItems ∧
    producedNums s.shared.output = items s.shared.itemToProduce.toNat ∧
    (consumedNums s.shared.output ++ buffered s.shared).Perm
      (items s.shared.itemToProduce.toNat) ∧
    (0 < m → 0 < n → (∀ t, s.status t = .out .exited) →
      (∀ i, 0 ≤ i → i < a.totalItems →
        prod s.shared.output i = 1 ∧ cons s.shared.output i = 1) ∧
      check a.totalItems.toNat s.shared.output = true) := by
  have h := inv htotal (Int.le_trans (by decide) hmax) hr
  have hb := h.book
  refine ⟨hb.nonneg, hb.room, hb.balance, hb.read, hb.bound, hb.produced, hb.delivered,
    fun hm hn hall => ?_⟩
  have hdone := h.masterExited (hall (.master ⟨0, hm⟩))
  have hread := h.workerExited (hall (.worker ⟨0, hn⟩))
  refine ⟨fun i h0 hi => hb.once hdone hread h0 hi, check_eq_true fun i hi => ?_⟩
  exact hb.once hdone hread (by omega) (by omega)

/-- One master and one worker pass one item and exit. -/
theorem one_item : ∃ s : St 1 1, (masterWorker ⟨1, 1⟩ 1 1).Reach s ∧
    ∀ t, s.status t = .out .exited := by
  have h0 : (masterWorker ⟨1, 1⟩ 1 1).Reach ⟨⟨0, 0, 0, fun _ => 0, []⟩, fun _ => .out .looping⟩ :=
    .start ⟨⟨_, rfl⟩, fun _ => rfl⟩
  have h1 := reach_enter (.master 0 : Thread 1 1) () h0 rfl rfl ⟨_, rfl, rfl⟩
  have h2 := reach_enter (.worker 0 : Thread 1 1) () h1 rfl rfl ⟨_, rfl, rfl⟩
  have h3 := reach_enter (.master 0 : Thread 1 1) () h2 rfl rfl rfl
  have h4 := reach_enter (.worker 0 : Thread 1 1) () h3 rfl rfl rfl
  refine ⟨_, h4, fun t => ?_⟩
  match t with
  | .master 0 => rfl
  | .worker 0 => rfl

theorem exactly_once_one_item : ∃ s : St 1 1, (masterWorker ⟨1, 1⟩ 1 1).Reach s ∧
    prod s.shared.output 0 = 1 ∧ cons s.shared.output 0 = 1 := by
  obtain ⟨s, hr, hall⟩ := one_item
  obtain ⟨-, -, -, -, -, -, -, hend⟩ := exactly_once (by decide) (by decide) hr
  exact ⟨s, hr, (hend (by decide) (by decide) hall).1 0 (by decide) (by decide)⟩

/-! ## Progress -/

/-- **Nobody is left behind**: while some thread has not exited, one that has not is not blocked;
    and once everything has been consumed, nobody is blocked. -/
theorem never_deadlocks {a : Args} (htotal : 0 ≤ a.totalItems) (hmax : 1 ≤ a.maxBufSize)
    {m n : Nat} (hm : 0 < m) (hn : 0 < n) {s : St m n} (hr : (masterWorker a m n).Reach s) :
    ((∃ t, s.status t ≠ .out .exited) →
      ∃ t, s.status t ≠ .out .exited ∧ ∀ c p, s.status t ≠ .blocked c p) ∧
    (a.totalItems ≤ s.shared.itemRead → ∀ t c p, s.status t ≠ .blocked c p) := by
  have h := inv htotal (Int.le_trans (by decide) hmax) hr
  have hb := h.book
  have hnonneg := hb.nonneg
  have hbal := hb.balance
  have hbound := hb.bound
  have hend : a.totalItems ≤ s.shared.itemRead → ∀ t c p, s.status t ≠ .blocked c p := by
    intro hread t c p hbl
    cases t with
    | master id =>
      have hwork := (h.masterBlocked hbl).2.2
      omega
    | worker id =>
      have hwork := (h.workerBlocked hbl).2.2
      omega
  refine ⟨fun hex => ?_, hend⟩
  obtain ⟨t, ht⟩ := hex
  by_contra hstuck
  -- then every thread is blocked or has exited
  have hall : ∀ u, s.status u ≠ .out .exited → ∃ c p, s.status u = .blocked c p := by
    intro u hu
    by_contra hno
    exact hstuck ⟨u, hu, fun c p hbl => hno ⟨c, p, hbl⟩⟩
  have hread : a.totalItems ≤ s.shared.itemRead := by
    by_cases hw : s.status (.worker ⟨0, hn⟩) = .out .exited
    · exact h.workerExited hw
    · -- a blocked worker has an empty buffer, so the first master can neither wait nor be done
      obtain ⟨c, p, hbl⟩ := hall _ hw
      obtain ⟨-, hempty, hleft⟩ := h.workerBlocked hbl
      by_cases hms : s.status (.master ⟨0, hm⟩) = .out .exited
      · have hdone := h.masterExited hms
        omega
      · obtain ⟨d, q, hmb⟩ := hall _ hms
        have hfull := (h.masterBlocked hmb).2.1
        omega
  obtain ⟨c, p, hbl⟩ := hall t ht
  exact hend hread t c p hbl

theorem never_deadlocks_one_item : ∃ s : St 1 1, (masterWorker ⟨1, 1⟩ 1 1).Reach s ∧
    ∀ t c p, s.status t ≠ .blocked c p := by
  have h0 : (masterWorker ⟨1, 1⟩ 1 1).Reach ⟨⟨0, 0, 0, fun _ => 0, []⟩, fun _ => .out .looping⟩ :=
    .start ⟨⟨_, rfl⟩, fun _ => rfl⟩
  have h1 := reach_enter (.master 0 : Thread 1 1) () h0 rfl rfl ⟨_, rfl, rfl⟩
  have h2 := reach_enter (.worker 0 : Thread 1 1) () h1 rfl rfl ⟨_, rfl, rfl⟩
  exact ⟨_, h2, (never_deadlocks (by decide) (by decide) (by decide) (by decide) h2).2
    (by decide)⟩

end OsCodes.MasterWorker
