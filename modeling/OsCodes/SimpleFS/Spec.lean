/-
  What SimpleFS is for: a map from file names to byte strings, and handles with an offset.

  `Spec` is the abstract file system, `Spec.after` its reaction to a call and the return value
  that the call had, `Spec.Allows` which return values are right, and `Spec.Appending` the calls
  of clients that write at the end of a file only.  Nothing here mentions a disk.

  A file is its bytes.  A handle whose file was deleted is `stale` and may be closed; the program
  keeps no such difference, which is why the clients of the refinement make no other call through
  it.  `Allows` leaves open what the program leaves open: which inode number a create returns,
  which handle an open returns, and whether a write fails for lack of blocks.
-/
import OsCodes.SimpleFS.Ops

namespace OsCodes.SimpleFS

open Bytes

/-- A name of 1 to 7 characters. -/
def Short (f : CStr) : Prop := 1 ≤ f.len ∧ f.len ≤ 7

/-- A handle: closed, open on a file deleted since, or open on a file at an offset. -/
inductive Slot
  | free
  | stale
  | live (filename : CStr) (offset : Nat)
  deriving DecidableEq

/-- The abstract file system: what each name holds, and what each handle is on. -/
structure Spec where
  file : CStr → Option (List UInt8)
  handle : Fin 20 → Slot

namespace Spec

/-- After formatting. -/
def empty : Spec := ⟨fun _ => none, fun _ => .free⟩

/-- Eight files exist, so that no further create succeeds. -/
def Full (s : Spec) : Prop :=
  ∃ name : Fin 8 → CStr, Function.Injective name ∧ ∀ i, (s.file (name i)).isSome

/-- The file system with another content under one name. -/
def setFile (s : Spec) (f : CStr) (content : Option (List UInt8)) : Spec :=
  { s with file := Function.update s.file f content }

/-- The file system with another state of one handle. -/
def setHandle (s : Spec) (h : Fin 20) (slot : Slot) : Spec :=
  { s with handle := Function.update s.handle h slot }

section Set

variable (s : Spec) (f : CStr) (content : Option (List UInt8)) (h : Fin 20) (slot : Slot)

@[simp] theorem file_setFile_self : (s.setFile f content).file f = content :=
  Function.update_self ..

theorem file_setFile_ne {g : CStr} (hg : g ≠ f) : (s.setFile f content).file g = s.file g :=
  Function.update_of_ne hg ..

@[simp] theorem handle_setHandle_self : (s.setHandle h slot).handle h = slot :=
  Function.update_self ..

theorem handle_setHandle_ne {k : Fin 20} (hk : k ≠ h) :
    (s.setHandle h slot).handle k = s.handle k := Function.update_of_ne hk ..

end Set

/-- The bytes that a write of `nbytes` takes from the buffer. -/
def written (buf : Mem) (nbytes : Int32) : List UInt8 := (List.range nbytes.toInt.toNat).map buf

/-- A handle when the file `filename` is deleted. -/
def dropped (filename : CStr) : Slot → Slot
  | .live g o => if g = filename then .stale else .live g o
  | slot => slot

/-- The file system after a call that returned `r`. -/
def after (s : Spec) : Op → Ret → Spec
  | .create f, r => if 0 ≤ r.val then s.setFile f (some []) else s
  | .delete f, _ => { s.setFile f none with handle := fun h => dropped f (s.handle h) }
  | .openFile f, r =>
    { s with handle := fun h => if (h.val : Int) = r.val then .live f 0 else s.handle h }
  | .close h, _ => s.setHandle h .free
  | .seek h nseek, _ =>
    match s.handle h with
    | .live f o => s.setHandle h (.live f (o + nseek.toInt).toNat)
    | _ => s
  | .read .., _ => s
  | .write h buf nbytes, r =>
    match s.handle h with
    | .live f _ =>
      if r.val = 0 then s.setFile f ((s.file f).map fun bytes => bytes ++ written buf nbytes)
      else s
    | _ => s

/-- Which returns are right: what a call may answer in a state of the abstract file system. -/
def Allows (s : Spec) : Op → Ret → Prop
  | .create f, r => r.data = [] ∧ -1 ≤ r.val ∧ (r.val = -1 ↔ (s.file f).isSome ∨ s.Full)
  | .delete _, r | .close _, r | .seek .., r => r = ⟨0, []⟩
  | .openFile f, r => r.data = [] ∧
    (r.val ≠ -1 ↔ (s.file f).isSome ∧ ∃ h, s.handle h = .free) ∧
    (r.val ≠ -1 → ∃ h : Fin 20, r.val = h.val ∧ s.handle h = .free)
  | .read h nbytes, r => ∀ f o bytes, s.handle h = .live f o → s.file f = some bytes →
    r = if 0 ≤ nbytes.toInt ∧ o + nbytes.toInt ≤ bytes.length then
      ⟨0, (bytes.drop o).take nbytes.toInt.toNat⟩ else ⟨-1, []⟩
  | .write _ _ nbytes, r => r = ⟨0, []⟩ ∧ 0 ≤ nbytes.toInt ∨ r = ⟨-1, []⟩

/-- The calls of clients that use handles on existing files, keep offsets in 0..256, and write at
    the end of a file and no zero byte. -/
def Appending (s : Spec) : Op → Prop
  | .create f | .delete f | .openFile f => Short f
  | .close _ => True
  | .seek h nseek => ∃ f o, s.handle h = .live f o ∧
    0 ≤ (o : Int) + nseek.toInt ∧ (o : Int) + nseek.toInt ≤ 256
  | .read h nbytes => ∃ f o, s.handle h = .live f o ∧
    -2147483648 ≤ (o : Int) + nbytes.toInt ∧ (o : Int) + nbytes.toInt < 2147483648
  | .write h buf nbytes => ∃ f bytes, s.handle h = .live f bytes.length ∧ s.file f = some bytes ∧
    -2147483648 ≤ (bytes.length : Int) + nbytes.toInt ∧
    (bytes.length : Int) + nbytes.toInt < 2147483648 ∧
    ∀ k : Nat, (k : Int) < nbytes.toInt → buf k ≠ 0

/-- Whether a handle is open on a file at an offset with `P` can be decided where `P` can. -/
instance (s : Spec) (h : Fin 20) (P : CStr → Nat → Prop) [∀ f o, Decidable (P f o)] :
    Decidable (∃ f o, s.handle h = .live f o ∧ P f o) :=
  match hs : s.handle h with
  | .live f o => decidable_of_iff (P f o)
    ⟨fun hp => ⟨f, o, rfl, hp⟩, fun ⟨_, _, heq, hp⟩ => by cases heq; exact hp⟩
  | .free | .stale => isFalse fun ⟨_, _, heq, _⟩ => by cases heq

instance (buf : Mem) (nbytes : Int32) :
    Decidable (∀ k : Nat, (k : Int) < nbytes.toInt → buf k ≠ 0) :=
  decidable_of_iff (∀ k ∈ List.range nbytes.toInt.toNat, buf k ≠ 0)
    ⟨fun hall k hk => hall k (List.mem_range.mpr (by omega)),
      fun hall k hk => hall k (by have := List.mem_range.mp hk; omega)⟩

instance (s : Spec) (op : Op) : Decidable (s.Appending op) :=
  match op with
  | .create _ | .delete _ | .openFile _ => inferInstanceAs (Decidable (_ ∧ _))
  | .close _ => inferInstanceAs (Decidable True)
  | .seek h _ | .read h _ => inferInstanceAs (Decidable (∃ f o, s.handle h = .live f o ∧ _))
  | .write h buf nbytes =>
    decidable_of_iff (∃ f o, s.handle h = .live f o ∧ ∃ bytes ∈ s.file f, bytes.length = o ∧
        -2147483648 ≤ (bytes.length : Int) + nbytes.toInt ∧
        (bytes.length : Int) + nbytes.toInt < 2147483648 ∧
        ∀ k : Nat, (k : Int) < nbytes.toInt → buf k ≠ 0)
      ⟨fun ⟨f, _, hl, bytes, hf, ho, hcond⟩ => ⟨f, bytes, by rw [hl, ho], hf, hcond⟩,
        fun ⟨f, bytes, hl, hf, hcond⟩ => ⟨f, _, hl, bytes, hf, rfl, hcond⟩⟩

end Spec

end OsCodes.SimpleFS
