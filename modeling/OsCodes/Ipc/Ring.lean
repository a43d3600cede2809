/-
  The shared-memory ring of `shm-posix-producer-orig.c` and `shm-posix-consumer-orig.c`.

  There are `n` slots (`SIZE/8` in the code) and `N` messages (1000).  The producer fills all
  slots, then waits for the index of a slot that was read before it writes the next message; the
  indices travel as ints through `/tmp/wfifo` and back through `/tmp/rfifo`, and one byte in
  `/tmp/confirm` ends the run.  The producer numbers its messages; a slot holds the number of its
  message, 0 for `freeeee`, and `none` for what is no whole message.  A `memcpy` takes its time:
  it begins and ends in steps of their own.

  The programs are modelled from where their three FIFOs are open and the memory is mapped.

  A step of the relation is one system call or one half of a `memcpy`; the loops' heads are steps
  as well, so that the counters of the source can be read off the states.  What an `int` is after
  a `read` that returns other bytes than those of one `int` is left open (`Reads`), and so is what
  a slot holds after a `memcpy` that another one has met (`none`); the laws show that neither
  happens.  A `write` to a FIFO whose reader is gone kills the program (`writeFails`).
-/
import OsCodes.Lib.Fifo
import OsCodes.Lib.Lts

namespace OsCodes.Ring

/-! ## Ints in a FIFO -/

/-- A byte of an int: the int and the place of the byte. -/
abbrev IntByte := Nat × Nat

/-- The four bytes of an index, as one `write` puts them into a FIFO. -/
def bytesOf (j : Nat) : List IntByte := [(j, 0), (j, 1), (j, 2), (j, 3)]

/-- `j` is what a `read` into an int leaves there: the int whose bytes were read, and anything
    where they are not the bytes of one. -/
def Reads (bs : List IntByte) (j : Nat) : Prop := ∀ v, bs = bytesOf v → j = v

/-! ## The programs -/

/-- The two loops of the producer that write messages, at turn `i`. -/
inductive Loop
  | first (i : Nat)
  | again (i : Nat)
  deriving DecidableEq

/-- The producer: at the head of a loop, before, in and behind a `memcpy` of a message to slot
    `j`, at its last `read`, and with so many FIFOs closed. -/
inductive Producer
  | fill (i : Nat)
  | first (i : Nat)
  | again (i : Nat)
  | hold (l : Loop) (j : Nat)
  | storing (l : Loop) (j : Nat)
  | stored (l : Loop) (j : Nat)
  | confirm
  | closing (k : Nat)
  | done
  | killed
  deriving DecidableEq

/-- The consumer: at the head of its loop, before, in and behind the `memcpy` from slot `j`, at
    its last `write`, and with so many FIFOs closed. -/
inductive Consumer
  | loop (i : Nat)
  | hold (i j : Nat)
  | copying (i j : Nat) (str : Option Nat)
  | copied (i j : Nat)
  | confirm
  | closing (k : Nat)
  | done
  | killed
  deriving DecidableEq

/-- Both programs, the memory, the number of messages the producer has written and what the
    consumer has copied out. -/
structure State where
  producer : Producer
  consumer : Consumer
  slots : Nat → Option Nat
  written : Nat
  copied : List (Option Nat)
  wfifo : Fifo IntByte
  rfifo : Fifo IntByte
  confirm : Fifo Unit

/-- The next turn of the loop in which the producer is. -/
def Loop.next : Loop → Producer
  | .first i => .first (i + 1)
  | .again i => .again (i + 1)

section Steps

variable (n N : Nat)

/-- The next step of the producer; where it waits in a `read`, there is none. -/
inductive ProducerStep : State → State → Prop
  | fill {s : State} {i : Nat} : s.producer = .fill i → i < n →
      ProducerStep s
        { s with producer := .fill (i + 1), slots := Function.update s.slots i (some 0) }
  | filled {s : State} {i : Nat} : s.producer = .fill i → ¬ i < n →
      ProducerStep s { s with producer := .first 0 }
  | first {s : State} {i : Nat} : s.producer = .first i → i < n →
      ProducerStep s { s with producer := .hold (.first i) i }
  | firstDone {s : State} {i : Nat} : s.producer = .first i → ¬ i < n →
      ProducerStep s { s with producer := .again 0 }
  /-- `read(fifo_read, &j, sizeof(int))` -/
  | again {s : State} {i j : Nat} {bs : List IntByte} {q : Fifo IntByte} :
      s.producer = .again i → i < N - n → s.rfifo.read 4 = some (bs, q) → Reads bs j →
      ProducerStep s { s with producer := .hold (.again i) j, rfifo := q }
  | againDone {s : State} {i : Nat} : s.producer = .again i → ¬ i < N - n →
      ProducerStep s { s with producer := .confirm }
  | store {s : State} {l : Loop} {j : Nat} : s.producer = .hold l j →
      ProducerStep s
        { s with producer := .storing l j, slots := Function.update s.slots j none }
  | stored {s : State} {l : Loop} {j : Nat} : s.producer = .storing l j →
      ProducerStep s { s with
        producer := .stored l j
        slots := Function.update s.slots j (some (s.written + 1))
        written := s.written + 1 }
  /-- `write(fifo_write, &j, sizeof(int))` -/
  | write {s : State} {l : Loop} {j : Nat} {q : Fifo IntByte} : s.producer = .stored l j →
      s.wfifo.write (bytesOf j) = some q →
      ProducerStep s { s with producer := l.next, wfifo := q }
  | writeFails {s : State} {l : Loop} {j : Nat} : s.producer = .stored l j →
      s.wfifo.write (bytesOf j) = none → ProducerStep s { s with producer := .killed }
  | confirm {s : State} {bs : List Unit} {q : Fifo Unit} : s.producer = .confirm →
      s.confirm.read 1 = some (bs, q) →
      ProducerStep s { s with producer := .closing 0, confirm := q }
  | closeWrite {s : State} : s.producer = .closing 0 →
      ProducerStep s { s with producer := .closing 1, wfifo := s.wfifo.closeWriter }
  | closeRead {s : State} : s.producer = .closing 1 →
      ProducerStep s { s with producer := .closing 2, rfifo := s.rfifo.closeReader }
  | closeConfirm {s : State} : s.producer = .closing 2 →
      ProducerStep s { s with producer := .done, confirm := s.confirm.closeReader }

/-- The next step of the consumer; where it waits in a `read`, there is none. -/
inductive ConsumerStep : State → State → Prop
  /-- `read(fifo_write, &j, sizeof(int))` -/
  | read {s : State} {i j : Nat} {bs : List IntByte} {q : Fifo IntByte} :
      s.consumer = .loop i → i < N → s.wfifo.read 4 = some (bs, q) → Reads bs j →
      ConsumerStep s { s with consumer := .hold i j, wfifo := q }
  | loopDone {s : State} {i : Nat} : s.consumer = .loop i → ¬ i < N →
      ConsumerStep s { s with consumer := .confirm }
  | copy {s : State} {i j : Nat} : s.consumer = .hold i j →
      ConsumerStep s { s with consumer := .copying i j (s.slots j) }
  /-- What was copied is a message only where the slot has not changed under the `memcpy`. -/
  | copied {s : State} {i j : Nat} {str : Option Nat} : s.consumer = .copying i j str →
      ConsumerStep s { s with
        consumer := .copied i j
        copied := s.copied ++ [if s.slots j = str then str else none] }
  /-- `write(fifo_read, &j, sizeof(int))` -/
  | write {s : State} {i j : Nat} {q : Fifo IntByte} : s.consumer = .copied i j →
      s.rfifo.write (bytesOf j) = some q →
      ConsumerStep s { s with consumer := .loop (i + 1), rfifo := q }
  | writeFails {s : State} {i j : Nat} : s.consumer = .copied i j →
      s.rfifo.write (bytesOf j) = none → ConsumerStep s { s with consumer := .killed }
  | confirm {s : State} {q : Fifo Unit} : s.consumer = .confirm →
      s.confirm.write [()] = some q →
      ConsumerStep s { s with consumer := .closing 0, confirm := q }
  | confirmFails {s : State} : s.consumer = .confirm → s.confirm.write [()] = none →
      ConsumerStep s { s with consumer := .killed }
  | closeWrite {s : State} : s.consumer = .closing 0 →
      ConsumerStep s { s with consumer := .closing 1, wfifo := s.wfifo.closeReader }
  | closeRead {s : State} : s.consumer = .closing 1 →
      ConsumerStep s { s with consumer := .closing 2, rfifo := s.rfifo.closeWriter }
  | closeConfirm {s : State} : s.consumer = .closing 2 →
      ConsumerStep s { s with consumer := .done, confirm := s.confirm.closeWriter }

/-- Who takes the next step of a run. -/
inductive Party
  | producer
  | consumer

/-- A step of the party that is named. -/
def Step (s : State) : Party → State → Prop
  | .producer, s' => ProducerStep n N s s'
  | .consumer, s' => ConsumerStep N s s'

/-- Behind the opening of the FIFOs, with no message anywhere. -/
def Start (s : State) : Prop :=
  s.producer = .fill 0 ∧ s.consumer = .loop 0 ∧ (∀ j, s.slots j = none) ∧ s.written = 0 ∧
    s.copied = [] ∧ s.wfifo = ⟨[], true, true⟩ ∧ s.rfifo = ⟨[], true, true⟩ ∧
    s.confirm = ⟨[], true, true⟩

/-- **The two programs**, in any interleaving. -/
def ring : Lts State Party := ⟨Start, Step n N⟩

end Steps

/-! ## Who has which index -/

/-- The indices in a FIFO, four bytes each. -/
def indices (q : Fifo IntByte) : List Nat := (q.bytes.filter fun b => b.2 = 0).map Prod.fst

/-- The slot that the producer has taken and not yet passed on. -/
def Producer.hand : Producer → List Nat
  | .hold _ j => [j]
  | .storing _ j => [j]
  | .stored _ j => [j]
  | _ => []

/-- The slot that the consumer has taken and not yet given back. -/
def Consumer.hand : Consumer → List Nat
  | .hold _ j => [j]
  | .copying _ j _ => [j]
  | .copied _ j => [j]
  | _ => []

/-- The indices on their way to the consumer, in its hands, on their way back, and in the hands
    of the producer. -/
def owned (s : State) : List Nat :=
  indices s.wfifo ++ s.consumer.hand ++ indices s.rfifo ++ s.producer.hand

/-- Both programs have returned from `main`. -/
def Finished (s : State) : Prop := s.producer = .done ∧ s.consumer = .done

end OsCodes.Ring
