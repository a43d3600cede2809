/-
  What both allocators share: the memory, the pointers they return, the client's calls and its
  record of the blocks it holds.

  The two allocators of `malloc-code` have one interface: a request for a number of bytes,
  answered with an address or `NULL`, and `dealloc` of an address.  Neither keeps a list of the
  blocks it has handed out, so the laws need one: `Event` is a call with its answer, `after` the
  client's blocks behind it, and `client` turns an allocator into a system whose states are pairs
  of its globals and this list.  A law about "every sequence of calls" is then a law about the
  reachable states of such a system, with a guard that says which calls are allowed.

  - `Pointer` has a third value besides `NULL` and an address: where control leaves the function
    without a `return`, the caller sees whatever is there (`Pointer.MayBe`).
  - `runGuarded` and `runCalls` compute runs through given calls, and `runGuarded_reach` says that
    what they come to is reachable; the concrete runs of the other modules are made of them.
  - `deallocAll_ok` is the induction for a client that gives everything back, in any order.

  A store of the client is one byte; longer ones are sequences of them.
-/
import OsCodes.Lib.FirstFit
import OsCodes.Lib.Tiling
import OsCodes.Lib.Lts

namespace OsCodes.Malloc

/-- `memset(p, 0, n)`. -/
def memset (mem : Int → UInt8) (p : Int) (n : Nat) : Int → UInt8 :=
  fun a => if p ≤ a ∧ a < p + n then 0 else mem a

theorem memset_inside (mem : Int → UInt8) {p a : Int} {n : Nat} (h : p ≤ a) (h' : a < p + n) :
    memset mem p n a = 0 := if_pos ⟨h, h'⟩

/-- What was zero stays zero. -/
theorem memset_zero {mem : Int → UInt8} {p a : Int} {n : Nat} (h : mem a = 0) :
    memset mem p n a = 0 := by
  unfold memset
  split
  · rfl
  · exact h

/-- What a call hands back: `NULL`, an address, or, where control leaves the function without a
    `return`, whatever happens to be there. -/
inductive Pointer
  | null
  | at (a : Int)
  | undefined
  deriving DecidableEq

/-- The caller may see the address `a`. -/
def Pointer.MayBe (a : Int) : Pointer → Prop
  | .null => False
  | .at b => a = b
  | .undefined => True

/-- A block that the client holds: its address and the size it asked for. -/
structure Block where
  pos : Int
  size : Int
  deriving DecidableEq

/-- Address `a` is in the block. -/
def Block.has (a : Int) (b : Block) : Bool := decide (b.pos ≤ a ∧ a < b.pos + b.size)

theorem Block.has_iff {a : Int} {b : Block} : b.has a = true ↔ b.pos ≤ a ∧ a < b.pos + b.size := by
  rw [has, decide_eq_true_eq]

/-- The blocks have no address in common. -/
def Block.Disjoint (b b' : Block) : Prop := b.pos + b.size ≤ b'.pos ∨ b'.pos + b'.size ≤ b.pos

/-- The blocks after a request for `size` bytes was answered. -/
def gained (live : List Block) (size : Int) : Pointer → List Block
  | .at a => ⟨a, size⟩ :: live
  | _ => live

/-- The blocks after one at `pos` was given back. -/
def dropped (live : List Block) (pos : Int) : List Block := live.eraseP fun b => b.pos = pos

/-- What a client does: the two calls, and a store of one byte.  `ω` is what a request meets in
    its surroundings. -/
inductive Call (ω : Type)
  | alloc (world : ω) (size : Int)
  | dealloc (pos : Int)
  | store (pos : Int) (v : UInt8)

/-- A call and what it returned. -/
structure Event (ω : Type) where
  call : Call ω
  ret : Pointer

/-- The client's blocks after an event. -/
def after {ω : Type} (live : List Block) (e : Event ω) : List Block :=
  match e.call with
  | .alloc _ size => gained live size e.ret
  | .dealloc pos => dropped live pos
  | .store .. => live

section Runs

variable {σ ω : Type}

/-- An allocator as a system, with the blocks that are live. -/
def client (start : σ → Prop) (exec : σ → Call ω → Option (Pointer × σ)) :
    Lts (σ × List Block) (Event ω) :=
  Lts.withGhost { start, step := fun s e s' => exec s e.call = some (e.ret, s') } []
    fun _ live e => after live e

/-- A run through given calls, as long as `ok` allows them. -/
def runGuarded (ok : σ × List Block → Call ω → Bool) (exec : σ → Call ω → Option (Pointer × σ))
    (l : List (Call ω)) (s : σ × List Block) : Option (σ × List Block) :=
  l.foldlM (fun s c => if ok s c = true then
    (exec s.1 c).map fun x => (x.2, after s.2 ⟨c, x.1⟩) else none) s

/-- The state that the calls lead to is reachable. -/
theorem runGuarded_reach {start : σ → Prop} {exec : σ → Call ω → Option (Pointer × σ)}
    {check : σ × List Block → Call ω → Bool} {ok : σ × List Block → Event ω → Prop}
    (l : List (Call ω)) {s s' : σ × List Block} (h : ((client start exec).guard ok).Reach s)
    (hok : ∀ s e, e.call ∈ l → check s e.call = true → ok s e)
    (hrun : runGuarded check exec l s = some s') : ((client start exec).guard ok).Reach s' := by
  refine Lts.Reach.foldlM (fun c hc s s' hcall => ?_) h hrun
  obtain ⟨hcheck, hcall⟩ := Option.ite_none_right_eq_some.mp hcall
  obtain ⟨⟨ret, s₁⟩, hexec, hs⟩ := Option.map_eq_some_iff.mp hcall
  rw [← hs]
  exact ⟨⟨c, ret⟩, hok _ _ hc hcheck, hexec, rfl⟩

/-- A run through any calls. -/
def runCalls (exec : σ → Call ω → Option (Pointer × σ)) (l : List (Call ω))
    (s : σ × List Block) : Option (σ × List Block) := runGuarded (fun _ _ => true) exec l s

theorem runCalls_reach {start : σ → Prop} {exec : σ → Call ω → Option (Pointer × σ)}
    {ok : σ × List Block → Event ω → Prop} (l : List (Call ω)) {s s' : σ × List Block}
    (h : ((client start exec).guard ok).Reach s) (hok : ∀ s e, e.call ∈ l → ok s e)
    (hrun : runCalls exec l s = some s') : ((client start exec).guard ok).Reach s' :=
  runGuarded_reach l h (fun s e he _ => hok s e he) hrun

end Runs

/-- Giving back a block that is held takes one from the list. -/
theorem dropped_split {live : List Block} {pos : Int} (h : ∃ b ∈ live, b.pos = pos) :
    ∃ l₁ b l₂, live = l₁ ++ b :: l₂ ∧ b.pos = pos ∧ dropped live pos = l₁ ++ l₂ := by
  obtain ⟨b, hb, hpos⟩ := h
  obtain ⟨b', l₁, l₂, -, hp, hlive, herase⟩ :=
    List.exists_of_eraseP (p := fun b => decide (b.pos = pos)) hb (by simpa using hpos)
  exact ⟨l₁, b', l₂, hlive, by simpa using hp, herase⟩

/-- Where the address names the block, that block is the one taken from the list. -/
theorem dropped_eq_erase {live : List Block} {b : Block}
    (h : ∀ b' ∈ live, b'.pos = b.pos → b' = b) : dropped live b.pos = live.erase b := by
  induction live with
  | nil => rfl
  | cons b' live ih =>
    by_cases hb : b' = b
    · rw [hb, dropped, List.eraseP_cons_of_pos (by simp), List.erase_cons_head]
    · have hpos : b'.pos ≠ b.pos := fun hpos => hb (h b' List.mem_cons_self hpos)
      rw [dropped, List.eraseP_cons_of_neg (by simpa using hpos),
        List.erase_cons_tail (by simpa using hb)]
      exact congrArg _ (ih fun x hx => h x (List.mem_cons_of_mem _ hx))

/-- A client that gives back one block after the other. -/
def deallocAll {σ : Type} (dealloc : Int → σ → Option σ) : List Int → σ → Option σ
  | [], s => some s
  | pos :: rest, s => do
    let s' ← dealloc pos s
    deallocAll dealloc rest s'

/-- **Giving back all live blocks**, in any order: what every single `dealloc` keeps holds at the
    end, with no block left. -/
theorem deallocAll_ok {σ : Type} {dealloc : Int → σ → Option σ} {I : σ → List Block → Prop}
    (hstep : ∀ s live pos, I s live → (∃ b ∈ live, b.pos = pos) →
      ∃ s', dealloc pos s = some s' ∧ I s' (dropped live pos)) :
    ∀ (order : List Int) {s : σ} {live : List Block}, I s live →
      order.Perm (live.map Block.pos) → ∃ s', deallocAll dealloc order s = some s' ∧ I s' [] := by
  intro order
  induction order with
  | nil =>
    intro s live h hperm
    have hnil : live = [] := List.map_eq_nil_iff.mp hperm.nil_eq.symm
    rw [hnil] at h
    exact ⟨s, rfl, h⟩
  | cons pos rest ih =>
    intro s live h hperm
    have hpos := List.mem_map.mp (hperm.subset List.mem_cons_self)
    obtain ⟨s₁, hrun, hs₁⟩ := hstep s live pos h hpos
    obtain ⟨l₁, b, l₂, hlive, hb, hdrop⟩ := dropped_split hpos
    have hrest : rest.Perm ((dropped live pos).map Block.pos) := by
      rw [hlive, List.map_append, List.map_cons, hb] at hperm
      rw [hdrop, List.map_append]
      exact (hperm.trans List.perm_middle).cons_inv
    obtain ⟨s', hrun', hs'⟩ := ih hs₁ hrest
    refine ⟨s', ?_, hs'⟩
    rw [deallocAll, hrun]
    exact hrun'

end OsCodes.Malloc
