/-
  A FIFO: the bytes that were written and not yet read, and which of its two ends are open.

  A `read` takes what is there up to a number of bytes, blocks while there is nothing and a
  writer, and finds the end of the file where there is no writer.  The bytes are gone when both
  ends are closed.  `Carries` is the view of a FIFO whose users only write and read whole frames.

  `Carries f q l` says that the bytes of `q` are the frames `f x` of the elements of `l`, one
  behind the other.  It survives a write of a frame, and a read of one frame's length takes the
  first element or finds nothing.  Reads of other lengths are the user's business: the bytes have
  no marks of their own.
-/
import Mathlib.Tactic.Common

namespace OsCodes

/-- A FIFO with the bytes in it, and which of its ends are open. -/
structure Fifo (β : Type) where
  bytes : List β
  reader : Bool
  writer : Bool

namespace Fifo

variable {α β : Type}

/-- `write`; without a reader the writer is killed (`none`). -/
def write (bs : List β) (q : Fifo β) : Option (Fifo β) :=
  if q.reader then some { q with bytes := q.bytes ++ bs } else none

/-- `read` of up to `m` bytes, `none` while it blocks. -/
def read (m : Nat) (q : Fifo β) : Option (List β × Fifo β) :=
  if q.bytes = [] ∧ q.writer = true then none
  else some (q.bytes.take m, { q with bytes := q.bytes.drop m })

/-- What nobody can read any more, and no writer is there to keep it, is gone. -/
def closeReader (q : Fifo β) : Fifo β :=
  { q with reader := false, bytes := if q.writer then q.bytes else [] }

/-- A reader still finds the bytes that are there; without one they are gone. -/
def closeWriter (q : Fifo β) : Fifo β :=
  { q with writer := false, bytes := if q.reader then q.bytes else [] }

theorem write_eq_some {q : Fifo β} (h : q.reader = true) (bs : List β) :
    q.write bs = some { q with bytes := q.bytes ++ bs } := if_pos h

/-- A read blocks exactly on an empty FIFO that has a writer. -/
theorem read_eq_none_iff {m : Nat} {q : Fifo β} :
    q.read m = none ↔ q.bytes = [] ∧ q.writer = true := by
  unfold read
  split <;> simp_all

/-- A read that has something to take, or nothing to wait for. -/
theorem read_eq_some {m : Nat} {q : Fifo β} (h : q.bytes ≠ [] ∨ q.writer = false) :
    q.read m = some (q.bytes.take m, { q with bytes := q.bytes.drop m }) := by
  refine if_neg ?_
  rintro ⟨hbytes, hwriter⟩
  rcases h with h | h
  · exact h hbytes
  · rw [hwriter] at h
    cases h

theorem bytes_of_read {m : Nat} {q q' : Fifo β} {bs : List β} (h : q.read m = some (bs, q')) :
    q.bytes = bs ++ q'.bytes ∧ q'.reader = q.reader ∧ q'.writer = q.writer := by
  unfold read at h
  split at h
  · cases h
  · cases h
    exact ⟨(List.take_append_drop m q.bytes).symm, rfl, rfl⟩

/-- Closing keeps the bytes or loses them all. -/
theorem closeReader_bytes (q : Fifo β) : q.closeReader.bytes = q.bytes ∨
    q.closeReader.bytes = [] ∧ q.writer = false := by
  unfold closeReader
  cases q.writer with
  | true => exact .inl rfl
  | false => exact .inr ⟨rfl, rfl⟩

theorem closeWriter_bytes (q : Fifo β) : q.closeWriter.bytes = q.bytes ∨
    q.closeWriter.bytes = [] ∧ q.reader = false := by
  unfold closeWriter
  cases q.reader with
  | true => exact .inl rfl
  | false => exact .inr ⟨rfl, rfl⟩

/-- Closing one end of a FIFO that is open at the other, or empty, loses nothing. -/
theorem closeReader_kept {q : Fifo β} (h : q.writer = true ∨ q.bytes = []) :
    q.closeReader.bytes = q.bytes := by
  rcases q.closeReader_bytes with hb | ⟨hb, hw⟩
  · exact hb
  · rcases h with h | h
    · rw [hw] at h
      cases h
    · rw [hb, h]

theorem closeWriter_kept {q : Fifo β} (h : q.reader = true ∨ q.bytes = []) :
    q.closeWriter.bytes = q.bytes := by
  rcases q.closeWriter_bytes with hb | ⟨hb, hr⟩
  · exact hb
  · rcases h with h | h
    · rw [hr] at h
      cases h
    · rw [hb, h]

/-! ## Frames -/

section Frames

variable {encode : α → List β} {m : Nat} {q q' : Fifo β} {l : List α}

/-- The FIFO holds the frames of the list, and nothing else. -/
def Carries (encode : α → List β) (q : Fifo β) (l : List α) : Prop := q.bytes = l.flatMap encode

theorem Carries.write (h : Carries encode q l) {a : α} (hw : q.write (encode a) = some q') :
    Carries encode q' (l ++ [a]) ∧ q'.reader = q.reader ∧ q'.writer = q.writer := by
  unfold Fifo.write at hw
  split at hw
  · cases hw
    refine ⟨?_, rfl, rfl⟩
    show q.bytes ++ encode a = (l ++ [a]).flatMap encode
    rw [List.flatMap_append, ← show q.bytes = l.flatMap encode from h, List.flatMap_singleton]
  · cases hw

/-- A read of one frame's length from a FIFO with a frame takes the first. -/
theorem Carries.read_cons {a : α} (h : Carries encode q (a :: l)) (hm : (encode a).length = m)
    (hpos : 0 < m) : q.read m = some (encode a, { q with bytes := l.flatMap encode }) := by
  have h : q.bytes = encode a ++ l.flatMap encode := h
  have hne : q.bytes ≠ [] := by
    intro hnil
    rw [hnil] at h
    have hlen := congrArg List.length h
    rw [List.length_append, hm] at hlen
    simp only [List.length_nil] at hlen
    omega
  rw [read_eq_some (.inl hne), h, List.take_left' hm, List.drop_left' hm]

/-- What a read of one frame's length finds. -/
theorem Carries.read (h : Carries encode q l) (hm : ∀ a, (encode a).length = m) (hpos : 0 < m)
    {bs : List β} (hr : q.read m = some (bs, q')) :
    (∃ a l', l = a :: l' ∧ bs = encode a ∧ Carries encode q' l' ∧ q'.reader = q.reader ∧
      q'.writer = q.writer) ∨ l = [] ∧ q.writer = false := by
  cases l with
  | nil =>
    right
    refine ⟨rfl, ?_⟩
    by_contra hw
    rw [read_eq_none_iff.2 ⟨h, by simpa using hw⟩] at hr
    cases hr
  | cons a l' =>
    rw [h.read_cons (hm a) hpos] at hr
    cases hr
    exact .inl ⟨a, l', rfl, rfl, rfl, rfl, rfl⟩

end Frames

end Fifo

end OsCodes
