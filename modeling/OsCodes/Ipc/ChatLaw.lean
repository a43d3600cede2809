/-
  Clean runs of the chat deliver every line.

  The lines are, in order, those that were printed, the one that was read, those in the FIFO, the
  one that was typed and those still to be typed (`Inv.whole`).  A clean read moves exactly one
  line (`oneLine_read`), and a clean close loses none.  Every step of such a run makes `rank`
  smaller, so the runs end.

  The module has one lemma for each place of a program (`send_opening`, `send_opened`, ...,
  `receive_printed`), and `Inv.send` and `Inv.receive` put them together, one case each.  What a
  step does to the two ends of the FIFO is in the fields `writer`, `reader`, `senderWaits` and
  `receiverWaits` of the invariant; `kept` says that no byte is left in a FIFO that nobody has
  open, where the kernel would drop it.
-/
import OsCodes.Ipc.Chat

namespace OsCodes.Chat

open Bytes (CStr)
open Fifo (Carries)

/-! ## Lines in the FIFO -/

theorem chars_inj {l l' : CStr} (h : l.chars = l'.chars) : l = l' := by
  cases l
  cases l'
  cases h
  rfl

theorem length_frame (l : CStr) : (frame l).length = l.len + 1 := by
  rw [frame, List.length_append, List.length_singleton]
  rfl

theorem count_frame (l : CStr) : (frame l).count 0 = 1 := by
  rw [frame, List.count_append, List.count_eq_zero_of_not_mem l.noNul]
  rfl

/-- A buffer that begins with a line and its NUL spells the line. -/
theorem cString_frame (l : CStr) (rest : List UInt8) : cString (frame l ++ rest) = l.chars := by
  have hall : ∀ b ∈ l.chars, (decide (b ≠ 0)) = true := by
    intro b hb
    refine decide_eq_true ?_
    rintro rfl
    exact l.noNul hb
  rw [cString, frame, List.append_assoc, List.takeWhile_append_of_pos hall]
  exact List.append_nil l.chars

/-- **A clean read takes the first line.** -/
theorem oneLine_read {q q' : Fifo UInt8} {l : CStr} {ls : List CStr} {bs : List UInt8}
    (h : Carries frame q (l :: ls)) (hl : l.len ≤ 99) (hone : OneLine q.bytes)
    (hread : q.read 100 = some (bs, q')) : bs = frame l ∧ Carries frame q' ls := by
  have hbytes : q.bytes = frame l ++ ls.flatMap frame := h
  have hlen := length_frame l
  -- the line is a prefix of what is taken, and what comes behind it has no NUL
  have htake : q.bytes.take 100 = frame l ++ (ls.flatMap frame).take (100 - (l.len + 1)) := by
    rw [hbytes, List.take_append, hlen, List.take_of_length_le (by omega)]
  obtain ⟨hcount, hlast⟩ := hone
  rw [htake] at hcount hlast
  rw [List.count_append, count_frame] at hcount
  have hnil : (ls.flatMap frame).take (100 - (l.len + 1)) = [] := by
    by_contra hne
    rw [List.getLast?_append, List.getLast?_eq_some_getLast hne, Option.some_or] at hlast
    have hmem := List.getLast_mem hne
    rw [Option.some.inj hlast] at hmem
    have := List.count_pos_iff.mpr hmem
    omega
  rw [hnil, List.append_nil] at htake
  rw [Fifo.read_eq_some (.inl (by rw [hbytes, frame]; simp))] at hread
  cases hread
  refine ⟨htake, ?_⟩
  have hsplit := List.take_append_drop 100 q.bytes
  rw [htake, hbytes] at hsplit
  show q.bytes.drop 100 = ls.flatMap frame
  rw [hbytes]
  exact List.append_cancel_left hsplit

/-! ## The invariant -/

/-- A line as `fgets` delivers it, and not the last. -/
def Text (l : CStr) : Prop := l.len ≤ 99 ∧ l ≠ endLine

/-- The lines up to the last. -/
def ToEnd (ls : List CStr) : Prop := ∃ before, ls = before ++ [endLine] ∧ ∀ l ∈ before, Text l

/-- The line is in the sender's hands and not yet written. -/
def Sender.hand : Sender → List CStr
  | .typed l => [l]
  | _ => []

/-- The line is in the receiver's buffer and not yet printed. -/
def Receiver.hand (arr : List UInt8) : Receiver → List (List UInt8)
  | .got => [cString arr]
  | .done => [cString arr]
  | _ => []

/-- The program has the FIFO open. -/
def Sender.holds : Sender → Bool
  | .opening => false
  | .done => false
  | .killed => false
  | _ => true

/-- Has the receiver its end of the FIFO open? -/
def Receiver.holds : Receiver → Bool
  | .opening => false
  | .done => false
  | _ => true

/-- What is still to be typed. -/
def Sender.Rest (input : List CStr) : Sender → Prop
  | .typed l => l.len ≤ 99 ∧ if l = endLine then input = [] else ToEnd input
  | .wrote l => if l = endLine then input = [] else ToEnd input
  | .done => input = []
  | .killed => False
  | _ => ToEnd input

/-- What holds in every state of a clean run, where `sent` are the lines in the FIFO: all lines of
    the dialogue are somewhere, in order, and the ends that are open are those that the two programs
    hold. -/
structure Inv (before : List CStr) (s : State) (sent : List CStr) : Prop where
  whole : s.printed ++ s.receiver.hand s.arr ++
    (sent ++ s.sender.hand ++ s.input).map CStr.chars = (before ++ [endLine]).map CStr.chars
  noEnd : endLine.chars ∉ s.printed
  carries : Carries frame s.fifo sent
  short : ∀ l ∈ sent, l.len ≤ 99
  rest : s.sender.Rest s.input
  writer : s.fifo.writer = s.sender.holds
  reader : s.fifo.reader = s.receiver.holds
  senderWaits : s.sender = .blocked → s.fifo.reader = false
  receiverWaits : s.receiver = .blocked → s.fifo.writer = false ∧ s.fifo.bytes = []
  /-- no line without an end of the FIFO -/
  kept : s.fifo.reader = false → s.fifo.writer = false → s.fifo.bytes = []
  /-- the chat is over with the last line in the receiver's hands -/
  ended : s.receiver = .done → cString s.arr = endLine.chars

theorem toEnd_ne_nil {ls : List CStr} (h : ToEnd ls) : ls ≠ [] := by
  obtain ⟨before, rfl, -⟩ := h
  simp

/-- Typing a line. -/
theorem toEnd_cons {l : CStr} {ls : List CStr} (h : ToEnd (l :: ls)) :
    l.len ≤ 99 ∧ if l = endLine then ls = [] else ToEnd ls := by
  obtain ⟨before, heq, htext⟩ := h
  cases before with
  | nil =>
    cases heq
    exact ⟨by decide, by rw [if_pos rfl]⟩
  | cons b before =>
    obtain ⟨rfl, rfl⟩ := List.cons.inj heq
    obtain ⟨hlen, hne⟩ := htext l List.mem_cons_self
    rw [if_neg hne]
    exact ⟨hlen, before, rfl, fun b hb => htext b (List.mem_cons_of_mem _ hb)⟩

/-! ## Waiting ends -/

@[simp] theorem Sender.hand_release (x : Sender) : x.release.hand = x.hand := by
  cases x <;> rfl

@[simp] theorem Sender.holds_release (x : Sender) : x.release.holds = x.holds := by
  cases x <;> rfl

@[simp] theorem Sender.rest_release (x : Sender) (input : List CStr) :
    x.release.Rest input = x.Rest input := by
  cases x <;> rfl

theorem Sender.release_ne (x : Sender) : x.release ≠ .blocked := by
  cases x <;> (intro h; cases h)

@[simp] theorem Receiver.hand_release (x : Receiver) (arr : List UInt8) :
    x.release.hand arr = x.hand arr := by
  cases x <;> rfl

@[simp] theorem Receiver.holds_release (x : Receiver) : x.release.holds = x.holds := by
  cases x <;> rfl

theorem Receiver.release_ne (x : Receiver) : x.release ≠ .blocked := by
  cases x <;> (intro h; cases h)

theorem Receiver.release_done {x : Receiver} (h : x.release = .done) : x = .done := by
  cases x <;> first | rfl | cases h

/-! ## The rank -/

/-- The steps that the sender has still to take, with `k` lines to be typed. -/
def Sender.rank (k : Nat) : Sender → Nat
  | .blocked => 4 * k - 1
  | .opened => 4 * k - 1
  | .typed _ => 4 * k + 2
  | .wrote _ => 4 * k + 1
  | _ => 4 * k

/-- The steps that the receiver has still to take, with `k` lines to be read. -/
def Receiver.rank (k : Nat) : Receiver → Nat
  | .blocked => 4 * k - 1
  | .opened => 4 * k - 1
  | .got => 4 * k + 2
  | .printed => 4 * k + 1
  | _ => 4 * k

@[simp] theorem Sender.rank_release (k : Nat) (x : Sender) : x.release.rank k = x.rank k := by
  cases x <;> rfl

@[simp] theorem Receiver.rank_release (k : Nat) (x : Receiver) : x.release.rank k = x.rank k := by
  cases x <;> rfl

/-- The lines that the receiver has not read. -/
def unread (before : List CStr) (s : State) : Nat :=
  before.length + 1 - (s.printed.length + (s.receiver.hand s.arr).length)

/-- A bound on the steps that are left: those of both programs, with the lines still to be typed or
    read. -/
def rank (before : List CStr) (s : State) : Nat :=
  s.sender.rank s.input.length + s.receiver.rank (unread before s)

/-- The invariant in some state of the FIFO, and a smaller rank. -/
def Goes (before : List CStr) (s s' : State) : Prop :=
  (∃ sent, Inv before s' sent) ∧ rank before s' < rank before s

section Steps

variable {before : List CStr} {s s' : State} {sent : List CStr}

namespace Inv

/-- The lines are all somewhere. -/
theorem length (h : Inv before s sent) : s.printed.length + (s.receiver.hand s.arr).length +
    (sent.length + s.sender.hand.length + s.input.length) = before.length + 1 := by
  have hlen := congrArg List.length h.whole
  simp only [List.length_append, List.length_map, List.length_singleton] at hlen
  omega

/-- The last line is still to come while the receiver has not read it. -/
theorem unread_pos (h : Inv before s sent) (hhand : s.receiver.hand s.arr = []) :
    0 < sent.length + s.sender.hand.length + s.input.length := by
  rcases Nat.eq_zero_or_pos (sent.length + s.sender.hand.length + s.input.length) with h0 | hpos
  · exfalso
    have hwhole := h.whole
    have hs : sent = [] := List.eq_nil_of_length_eq_zero (by omega)
    have hh : s.sender.hand = [] := List.eq_nil_of_length_eq_zero (by omega)
    have hi : s.input = [] := List.eq_nil_of_length_eq_zero (by omega)
    rw [hhand, hs, hh, hi] at hwhole
    simp only [List.append_nil, List.map_nil, List.map_append, List.map_singleton] at hwhole
    refine h.noEnd ?_
    rw [hwhole]
    simp
  · exact hpos

/-! ### The sender -/

variable {x : Sender} {y : Receiver} {q : Fifo UInt8} {input : List CStr} {arr : List UInt8}
  {printed : List (List UInt8)} {l : CStr}

/-- `open` for writing returns at once or waits, as the receiver has the FIFO open or not. -/
theorem send_opening (h : Inv before ⟨.opening, y, q, input, arr, printed⟩ sent)
    (hst : State.send ⟨.opening, y, q, input, arr, printed⟩ = some s') :
    Goes before ⟨.opening, y, q, input, arr, printed⟩ s' := by
  have hpos : 0 < input.length := List.length_pos_iff.mpr (toEnd_ne_nil h.rest)
  simp only [State.send] at hst
  split at hst
  · rename_i hreader
    cases hst
    refine ⟨⟨sent, { h with
      whole := (congrArg (printed ++ · ++ _) (y.hand_release arr)).trans h.whole
      writer := rfl
      reader := h.reader.trans y.holds_release.symm
      senderWaits := fun hw => by cases hw
      receiverWaits := fun hw => absurd hw y.release_ne
      kept := fun _ hw => by cases hw
      ended := fun hw => h.ended (Receiver.release_done hw) }⟩, ?_⟩
    simp only [rank, unread, Receiver.hand_release, Receiver.rank_release, Sender.rank]
    omega
  · rename_i hreader
    cases hst
    have hreader : q.reader = false := by simpa using hreader
    refine ⟨⟨sent, { h with
      writer := rfl
      senderWaits := fun _ => hreader
      receiverWaits := fun hw => ?_
      kept := fun _ hw => by cases hw }⟩, ?_⟩
    · -- a receiver that waits has the FIFO open
      have hw : y = .blocked := hw
      have hholds := h.reader
      simp only [hw, Receiver.holds, hreader] at hholds
      cases hholds
    · simp only [rank, unread, Sender.rank]
      omega

/-- `fgets` takes a line of the input. -/
theorem send_opened (h : Inv before ⟨.opened, y, q, input, arr, printed⟩ sent)
    (hst : State.send ⟨.opened, y, q, input, arr, printed⟩ = some s') :
    Goes before ⟨.opened, y, q, input, arr, printed⟩ s' := by
  cases input with
  | nil => exact absurd rfl (toEnd_ne_nil h.rest)
  | cons l input =>
    cases hst
    refine ⟨⟨sent, { h with
      whole := by simpa [Sender.hand] using h.whole
      rest := toEnd_cons h.rest
      writer := h.writer
      senderWaits := fun hw => by cases hw
      receiverWaits := h.receiverWaits }⟩, ?_⟩
    simp only [rank, unread, Sender.rank, List.length_cons]
    omega

/-- `write` puts the line behind those in the FIFO. -/
theorem send_typed (h : Inv before ⟨.typed l, y, q, input, arr, printed⟩ sent)
    (hreader : q.reader = true)
    (hst : State.send ⟨.typed l, y, q, input, arr, printed⟩ = some s') :
    Goes before ⟨.typed l, y, q, input, arr, printed⟩ s' := by
  simp only [State.send, Fifo.write_eq_some hreader] at hst
  cases hst
  obtain ⟨hcarries, -, -⟩ := h.carries.write (Fifo.write_eq_some hreader (frame l))
  refine ⟨⟨sent ++ [l], { h with
    whole := by simpa [Sender.hand] using h.whole
    carries := hcarries
    short := ?_
    rest := h.rest.2
    writer := h.writer
    senderWaits := fun hw => by cases hw
    receiverWaits := fun hw => ?_
    kept := fun hr => ?_ }⟩, ?_⟩
  · intro b hb
    rcases List.mem_append.mp hb with hb | hb
    · exact h.short b hb
    · rw [List.mem_singleton.mp hb]
      exact h.rest.1
  · have hwriter := (h.receiverWaits hw).1
    rw [h.writer] at hwriter
    cases hwriter
  · have hr : q.reader = false := hr
    rw [hreader] at hr
    cases hr
  · simp only [rank, unread, Sender.rank]
    omega

/-- **A clean close of the sender**, which goes to `x`. -/
theorem send_close (h : Inv before ⟨.wrote l, y, q, input, arr, printed⟩ sent)
    (hclean : q.reader = true ∨ q.bytes = []) (hhand : x.hand = []) (hrest : x.Rest input)
    (hholds : x.holds = false) (hblocked : x ≠ .blocked)
    (hrank : x.rank input.length = 4 * input.length) :
    Goes before ⟨.wrote l, y, q, input, arr, printed⟩
      ⟨x, y, q.closeWriter, input, arr, printed⟩ := by
  have hbytes := Fifo.closeWriter_kept hclean
  refine ⟨⟨sent, { h with
    whole := (congrArg (fun c => _ ++ (sent ++ c ++ input).map CStr.chars) hhand).trans h.whole
    carries := hbytes.trans h.carries
    rest := hrest
    writer := hholds.symm
    senderWaits := fun hw => absurd hw hblocked
    receiverWaits := fun hw => ?_
    kept := fun hr _ => hbytes.trans ?_ }⟩, ?_⟩
  · have hwriter := (h.receiverWaits hw).1
    rw [h.writer] at hwriter
    cases hwriter
  · rcases hclean with hreader | hempty
    · have hr : q.reader = false := hr
      rw [hreader] at hr
      cases hr
    · exact hempty
  · simp only [rank, unread, hrank]
    exact Nat.add_lt_add_right (Nat.lt_succ_self _) _

/-- Behind the last line the sender returns, behind any other it opens the FIFO again. -/
theorem send_wrote (h : Inv before ⟨.wrote l, y, q, input, arr, printed⟩ sent)
    (hclean : q.reader = true ∨ q.bytes = [])
    (hst : State.send ⟨.wrote l, y, q, input, arr, printed⟩ = some s') :
    Goes before ⟨.wrote l, y, q, input, arr, printed⟩ s' := by
  have hrest := h.rest
  by_cases hl : l = endLine
  · simp only [Sender.Rest, if_pos hl] at hrest
    simp only [State.send, if_pos hl] at hst
    cases hst
    exact h.send_close hclean rfl hrest rfl (fun hw => by cases hw) rfl
  · simp only [Sender.Rest, if_neg hl] at hrest
    simp only [State.send, if_neg hl] at hst
    cases hst
    exact h.send_close hclean rfl hrest rfl (fun hw => by cases hw) rfl

/-- **Every step of the sender.** -/
theorem send (h : Inv before s sent) (hheard : Heard s .sender) (hclean : Clean s .sender)
    (hst : s.send = some s') : Goes before s s' := by
  obtain ⟨x, y, q, input, arr, printed⟩ := s
  cases x with
  | opening => exact h.send_opening hst
  | opened => exact h.send_opened hst
  | typed l => exact h.send_typed (hheard rfl) hst
  | wrote l => exact h.send_wrote (hclean rfl) hst
  | blocked => cases hst
  | done => cases hst
  | killed => cases hst

/-! ### The receiver -/

/-- The last line is the last that is read. -/
theorem last_read {p x b : List (List UInt8)} {e : List UInt8} (h : p ++ e :: x = b ++ [e])
    (hb : e ∉ b) : p = b ∧ x = [] := by
  rcases List.append_eq_append_iff.mp h with ⟨a, rfl, ha⟩ | ⟨c, rfl, hc⟩
  · cases a with
    | nil => exact ⟨(List.append_nil p).symm, (List.cons.inj ha).2⟩
    | cons d a =>
      obtain ⟨rfl, -⟩ := List.cons.inj ha
      exact absurd (List.mem_append_right _ List.mem_cons_self) hb
  · cases c with
    | nil => exact ⟨List.append_nil b, (List.cons.inj hc).2.symm⟩
    | cons d c =>
      have hnil := (List.cons.inj hc).2
      simp at hnil

theorem not_mem_before (hbefore : Dialogue before) : endLine.chars ∉ before.map CStr.chars := by
  intro hmem
  obtain ⟨l, hl, heq⟩ := List.mem_map.mp hmem
  exact (hbefore l hl).2 (chars_inj heq)

/-- Once the last line is read, there is nothing else. -/
theorem at_end (h : Inv before s sent) (hbefore : Dialogue before)
    (hhand : s.receiver.hand s.arr = [endLine.chars]) :
    s.printed = before.map CStr.chars ∧ sent = [] := by
  have hwhole := h.whole
  rw [hhand, List.append_assoc, List.singleton_append, List.map_append, List.map_append,
    List.map_append, List.map_singleton] at hwhole
  obtain ⟨hprinted, hnil⟩ := last_read hwhole (not_mem_before hbefore)
  rw [List.append_eq_nil_iff, List.append_eq_nil_iff, List.map_eq_nil_iff] at hnil
  exact ⟨hprinted, hnil.1.1⟩

/-- `length` of a state given by its parts. -/
theorem length_mk (h : Inv before ⟨x, y, q, input, arr, printed⟩ sent) :
    printed.length + (y.hand arr).length + (sent.length + x.hand.length + input.length) =
      before.length + 1 :=
  h.length

/-- `open` for reading returns at once or waits, as the sender has the FIFO open or not. -/
theorem receive_opening (h : Inv before ⟨x, .opening, q, input, arr, printed⟩ sent)
    (hst : State.receive ⟨x, .opening, q, input, arr, printed⟩ = some s') :
    Goes before ⟨x, .opening, q, input, arr, printed⟩ s' := by
  have hlength := h.length_mk
  have hpos : 0 < sent.length + x.hand.length + input.length := h.unread_pos rfl
  simp only [State.receive] at hst
  split at hst
  · cases hst
    refine ⟨⟨sent, { h with
      whole := ?_
      rest := x.rest_release input ▸ h.rest
      writer := h.writer.trans x.holds_release.symm
      reader := rfl
      senderWaits := fun hw => absurd hw x.release_ne
      receiverWaits := fun hw => by cases hw
      kept := fun hr => by cases hr
      ended := fun hw => by cases hw }⟩, ?_⟩
    · show printed ++ [] ++ (sent ++ x.release.hand ++ input).map CStr.chars = _
      rw [Sender.hand_release]
      exact h.whole
    · simp only [rank, unread, Sender.rank_release, Receiver.rank, Receiver.hand,
        List.length_nil] at hlength ⊢
      omega
  · rename_i hwriter
    cases hst
    have hwriter : q.writer = false := by simpa using hwriter
    refine ⟨⟨sent, { h with
      reader := rfl
      senderWaits := fun hw => ?_
      receiverWaits := fun _ => ⟨hwriter, h.kept h.reader hwriter⟩
      kept := fun hr => by cases hr
      ended := fun hw => by cases hw }⟩, ?_⟩
    · -- a sender that waits has the FIFO open
      have hw : x = .blocked := hw
      have hholds := h.writer
      simp only [hw, Sender.holds, hwriter] at hholds
      cases hholds
    · simp only [rank, unread, Receiver.rank, Receiver.hand,
        List.length_nil] at hlength ⊢
      omega

/-- A clean `read` brings the first line of the FIFO into the buffer. -/
theorem receive_opened (h : Inv before ⟨x, .opened, q, input, arr, printed⟩ sent)
    (hone : OneLine q.bytes)
    (hst : State.receive ⟨x, .opened, q, input, arr, printed⟩ = some s') :
    Goes before ⟨x, .opened, q, input, arr, printed⟩ s' := by
  have hlength := h.length_mk
  have hcarries : q.bytes = sent.flatMap frame := h.carries
  cases sent with
  | nil =>
    obtain ⟨hcount, -⟩ := hone
    rw [hcarries] at hcount
    cases hcount
  | cons l ls =>
    obtain ⟨r, hread, hst⟩ : ∃ r, q.read 100 = some r ∧
        s' = ⟨x, .got, r.2, input, r.1 ++ arr.drop r.1.length, printed⟩ := by
      simp only [State.receive] at hst
      split at hst
      · cases hst
        exact ⟨_, by assumption, rfl⟩
      · cases hst
    obtain ⟨bs, q'⟩ := r
    obtain ⟨rfl, hcarries'⟩ := oneLine_read h.carries (h.short l List.mem_cons_self) hone hread
    obtain ⟨-, hreader, hwriter⟩ := Fifo.bytes_of_read hread
    have hbuf : cString (frame l ++ arr.drop (frame l).length) = l.chars := cString_frame l _
    rw [hst]
    refine ⟨⟨ls, { h with
      whole := ?_
      carries := hcarries'
      short := fun b hb => h.short b (List.mem_cons_of_mem _ hb)
      writer := hwriter.trans h.writer
      reader := hreader.trans h.reader
      senderWaits := fun hw => hreader.trans (h.senderWaits hw)
      receiverWaits := fun hw => by cases hw
      kept := fun hr => ?_
      ended := fun hw => by cases hw }⟩, ?_⟩
    · have hwhole := h.whole
      simp only [Receiver.hand, hbuf] at hwhole ⊢
      simpa using hwhole
    · have hr : q'.reader = false := hr
      rw [hreader, h.reader] at hr
      cases hr
    · simp only [rank, unread, Receiver.rank, Receiver.hand, List.length_cons,
        List.length_nil] at hlength ⊢
      omega

/-- With the last line in its buffer the receiver returns: the FIFO is empty. -/
theorem receive_end (hbefore : Dialogue before)
    (h : Inv before ⟨x, .got, q, input, arr, printed⟩ sent) (hend : cString arr = endLine.chars)
    (hst : State.receive ⟨x, .got, q, input, arr, printed⟩ = some s') :
    Goes before ⟨x, .got, q, input, arr, printed⟩ s' := by
  simp only [State.receive, if_pos hend] at hst
  cases hst
  obtain ⟨-, rfl⟩ := h.at_end hbefore (congrArg (fun c => [c]) hend)
  have hempty : q.bytes = [] := h.carries
  have hbytes := Fifo.closeReader_kept (.inr hempty)
  refine ⟨⟨[], { h with
    carries := hbytes.trans h.carries
    reader := rfl
    senderWaits := fun _ => rfl
    receiverWaits := fun hw => by cases hw
    kept := fun _ _ => hbytes.trans hempty
    ended := fun _ => hend }⟩, ?_⟩
  simp only [rank, unread, Receiver.rank, Receiver.hand]
  omega

/-- Any other line is printed. -/
theorem receive_print (h : Inv before ⟨x, .got, q, input, arr, printed⟩ sent)
    (hend : cString arr ≠ endLine.chars)
    (hst : State.receive ⟨x, .got, q, input, arr, printed⟩ = some s') :
    Goes before ⟨x, .got, q, input, arr, printed⟩ s' := by
  simp only [State.receive, if_neg hend] at hst
  cases hst
  refine ⟨⟨sent, { h with
    whole := by simpa [Receiver.hand] using h.whole
    noEnd := ?_
    reader := h.reader
    receiverWaits := fun hw => by cases hw
    ended := fun hw => by cases hw }⟩, ?_⟩
  · intro hmem
    rcases List.mem_append.mp hmem with hmem | hmem
    · exact h.noEnd hmem
    · exact hend (List.mem_singleton.mp hmem).symm
  · simp only [rank, unread, Receiver.rank, Receiver.hand, List.length_append,
      List.length_singleton, List.length_nil]
    omega

/-- **A clean close of the receiver.** -/
theorem receive_printed (h : Inv before ⟨x, .printed, q, input, arr, printed⟩ sent)
    (hclean : q.writer = true ∨ q.bytes = [])
    (hst : State.receive ⟨x, .printed, q, input, arr, printed⟩ = some s') :
    Goes before ⟨x, .printed, q, input, arr, printed⟩ s' := by
  cases hst
  have hbytes := Fifo.closeReader_kept hclean
  refine ⟨⟨sent, { h with
    carries := hbytes.trans h.carries
    reader := rfl
    senderWaits := fun _ => rfl
    receiverWaits := fun hw => by cases hw
    kept := fun _ hw => hbytes.trans ?_
    ended := fun hw => by cases hw }⟩, ?_⟩
  · rcases hclean with hwriter | hempty
    · have hw : q.writer = false := hw
      rw [hwriter] at hw
      cases hw
    · exact hempty
  · simp only [rank, unread, Receiver.rank, Receiver.hand]
    omega

/-- **Every step of the receiver.** -/
theorem receive (hbefore : Dialogue before) (h : Inv before s sent) (hclean : Clean s .receiver)
    (hst : s.receive = some s') : Goes before s s' := by
  obtain ⟨x, y, q, input, arr, printed⟩ := s
  cases y with
  | opening => exact h.receive_opening hst
  | opened => exact h.receive_opened (hclean.1 rfl) hst
  | got =>
    by_cases hend : cString arr = endLine.chars
    · exact h.receive_end hbefore hend hst
    · exact h.receive_print hend hst
  | printed => exact h.receive_printed (hclean.2 rfl) hst
  | blocked => cases hst
  | done => cases hst

end Inv

end Steps

end OsCodes.Chat
