/-
  The chat of `send.c` and `receive.c` over `/tmp/myfifo`.

  Both programs open the FIFO anew for every line, and `open` waits for the other end.  A line
  travels with its NUL; nothing else separates two of them, and one `read` takes up to 100 bytes.
  So a line is lost where the sender comes back before the receiver has read
  (`chat_loses_line`), and where both ends are closed with bytes inside.  `Clean` says what the
  reads and closes of a run have to find for every line to arrive (`chat_delivers`).

  The process that has called `open` counts as an end also while it waits.  The texts of the
  prompts are left out.
-/
import OsCodes.Lib.Fifo
import OsCodes.Lib.Bytes
import OsCodes.Lib.Lts

namespace OsCodes.Chat

open Bytes (CStr)
open Fifo (Carries)

/-! ## The programs -/

/-- `"end\n"` -/
def endLine : CStr := ⟨[101, 110, 100, 10], by decide⟩

/-- What `write(fd, arr, strlen(arr)+1)` writes: the line with its NUL. -/
def frame (arr : CStr) : List UInt8 := arr.chars ++ [0]

/-- What `strcmp` and `printf` see of a buffer. -/
def cString (arr : List UInt8) : List UInt8 := arr.takeWhile (· ≠ 0)

/-- The sender: before and in its `open`, before `fgets`, `write` and `close`. -/
inductive Sender
  | opening
  | blocked
  | opened
  | typed (arr : CStr)
  | wrote (arr : CStr)
  | done
  | killed
  deriving DecidableEq

/-- The receiver: before and in its `open`, before `read`, `printf` and `close`. -/
inductive Receiver
  | opening
  | blocked
  | opened
  | got
  | printed
  | done
  deriving DecidableEq

/-- Both programs with the FIFO, the lines that `fgets` is still to deliver, the buffer of the
    receiver and what it has printed. -/
structure State where
  sender : Sender
  receiver : Receiver
  fifo : Fifo UInt8
  input : List CStr
  arr : List UInt8
  printed : List (List UInt8)

/-- `open` returns when the other end comes. -/
def Sender.release : Sender → Sender
  | .blocked => .opened
  | x => x

/-- `open` for reading returns once there is a writer. -/
def Receiver.release : Receiver → Receiver
  | .blocked => .opened
  | x => x

/-- The next step of `send.c`: a line is typed and written, and behind the last the FIFO
    is closed. -/
def State.send (s : State) : Option State :=
  match s.sender with
  | .opening =>
    if s.fifo.reader then
      some { s with
        sender := .opened
        receiver := s.receiver.release
        fifo := { s.fifo with writer := true } }
    else some { s with sender := .blocked, fifo := { s.fifo with writer := true } }
  | .opened =>
    match s.input with
    | [] => none
    | arr :: input => some { s with sender := .typed arr, input := input }
  | .typed arr =>
    match s.fifo.write (frame arr) with
    | some q => some { s with sender := .wrote arr, fifo := q }
    | none => some { s with sender := .killed, fifo := s.fifo.closeWriter }
  | .wrote arr =>
    -- `return` closes the FIFO as `close` does
    some { s with
      sender := if arr = endLine then .done else .opening
      fifo := s.fifo.closeWriter }
  | .blocked => none
  | .done => none
  | .killed => none

/-- The next step of `receive.c`: a line is read and printed, until `end` comes. -/
def State.receive (s : State) : Option State :=
  match s.receiver with
  | .opening =>
    if s.fifo.writer then
      some { s with
        receiver := .opened
        sender := s.sender.release
        fifo := { s.fifo with reader := true } }
    else some { s with receiver := .blocked, fifo := { s.fifo with reader := true } }
  | .opened =>
    match s.fifo.read 100 with
    | some r =>
      some { s with receiver := .got, fifo := r.2, arr := r.1 ++ s.arr.drop r.1.length }
    | none => none
  | .got =>
    if cString s.arr = endLine.chars then
      some { s with receiver := .done, fifo := s.fifo.closeReader }
    else
      some { s with
        receiver := .printed
        arr := 0 :: s.arr.tail
        printed := s.printed ++ [cString s.arr] }
  | .printed => some { s with receiver := .opening, fifo := s.fifo.closeReader }
  | .blocked => none
  | .done => none

/-- Who takes the next step of a run. -/
inductive Party
  | sender
  | receiver

/-- One step of the party that is named, if it can take one. -/
def State.step (s : State) : Party → Option State
  | .sender => s.send
  | .receiver => s.receive

/-- Before the two programs have opened the FIFO, with any bytes in the receiver's buffer. -/
def Start (lines : List CStr) (s : State) : Prop :=
  s.sender = .opening ∧ s.receiver = .opening ∧ s.fifo = ⟨[], false, false⟩ ∧ s.input = lines ∧
    s.printed = []

/-- **The two programs** in any interleaving, with these lines to send. -/
def chat (lines : List CStr) : Lts State Party := ⟨Start lines, fun s p s' => s.step p = some s'⟩

/-! ## Clean runs -/

/-- The sender is about to write, or to close. -/
def Sender.writes : Sender → Bool
  | .typed _ => true
  | _ => false

def Sender.closes : Sender → Bool
  | .wrote _ => true
  | _ => false

/-- No `write` finds the FIFO without a reader. -/
def Heard (s : State) : Party → Prop
  | .sender => s.sender.writes = true → s.fifo.reader = true
  | .receiver => True

/-- The bytes that a `read` takes are those of one line. -/
def OneLine (bytes : List UInt8) : Prop :=
  (bytes.take 100).count 0 = 1 ∧ (bytes.take 100).getLast? = some 0

/-- The `read` takes one line, and a `close` that leaves the FIFO without an end leaves it
    empty. -/
def Clean (s : State) : Party → Prop
  | .sender => s.sender.closes = true → s.fifo.reader = true ∨ s.fifo.bytes = []
  | .receiver => (s.receiver = .opened → OneLine s.fifo.bytes) ∧
      (s.receiver = .printed → s.fifo.writer = true ∨ s.fifo.bytes = [])

/-- A dialogue: the lines before the `end` are as `fgets` delivers them. -/
def Dialogue (before : List CStr) : Prop := ∀ l ∈ before, l.len ≤ 99 ∧ l ≠ endLine

/-- What a chat with these lines before the `end` promises of a state. -/
structure Delivered (before : List CStr) (s : State) : Prop where
  inOrder : s.printed <+: before.map CStr.chars
  all : s.receiver = .done → s.printed = before.map CStr.chars
  goes : s.receiver ≠ .done → ∃ p s', s.step p = some s'

end OsCodes.Chat
