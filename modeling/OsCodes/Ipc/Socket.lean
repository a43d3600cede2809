/-
  The receive loop of socket-server-orig.c, which copies datagrams into a file until `file_size`
  bytes are there or a datagram says `end`.

  The client sends its lines without their NULs and the server adds none, so the string that `strcmp`
  looks at goes on with what earlier datagrams have left behind the last one (`left`).  `Plain` says
  that this never makes a difference.

  The sockets' setting up and their errors are left out, and so is a file that cannot be written.

  The loop is a recursion over the datagrams that arrive, with three ends: the file is closed
  (`stops`), `recvfrom` waits for a datagram that does not come, or the sum of the sizes passes
  `INT_MAX`, where C promises nothing.  The purpose is stated apart from it: the server is to stop
  with the first datagrams that make the file complete, and those in the file (`Framed`).

  1. `receive_after` gives the state behind any datagrams in closed form;
  2. `serve_eq` says what the loop does while the datagrams are plain;
  3. for the other direction, a server that frames its datagrams right has never come to one that
     is not plain (`Framed.plainAt`), so `framed_iff_plain` is an equivalence;
  4. `not_framed_hello` is the usual dialogue: `hello`, then `end`, which the server overlooks.
-/
import Mathlib.Data.List.Induction
import OsCodes.Ipc.Chat

namespace OsCodes.Socket

open Bytes (Mem CStr strcmpEq strcmpEq_iff)
open Chat (endLine)

/-! ## The code -/

def INT_MAX : Int := 2147483647

/-- What one `recvfrom` takes: the buffer has room for 256 bytes. -/
structure Datagram where
  bytes : List UInt8
  pos : 1 ≤ bytes.length
  fits : bytes.length ≤ 256

/-- The variables of the server, and what it has written. -/
structure Server where
  buffer : Mem
  bytesReceived : Int
  file : List UInt8

/-- How the loop ends: with what has been written and which datagrams unread, in a `recvfrom` that
    waits for more, or where `bytes_received` has no defined value. -/
inductive Outcome
  | stops (file : List UInt8) (unread : List Datagram)
  | waits (file : List UInt8)
  | overflows

/-- `recvfrom(sockfd, buffer, 256, ...)`: what is behind the datagram stays. -/
def recvfrom (buffer : Mem) (d : Datagram) : Mem := fun k => d.bytes.getD k (buffer k)

/-- `fwrite(buffer, 1, n, fp)`. -/
def fwrite (file : List UInt8) (buffer : Mem) (n : Nat) : List UInt8 :=
  file ++ (List.range n).map buffer

/-- The loop's body up to its `strcmp`; the sum of `int`s may overflow. -/
def Server.receive (s : Server) (d : Datagram) : Option Server :=
  let n := d.bytes.length
  if s.bytesReceived + n ≤ INT_MAX then
    some
      { buffer := recvfrom s.buffer d
        bytesReceived := s.bytesReceived + n
        file := fwrite s.file (recvfrom s.buffer d) n }
  else none

/-- The loop, on the datagrams that come. -/
def Server.loop (fileSize : Int32) (s : Server) : List Datagram → Outcome
  | [] => if s.bytesReceived < fileSize.toInt then .waits s.file else .stops s.file []
  | d :: ds =>
    if s.bytesReceived < fileSize.toInt then
      match s.receive d with
      | none => .overflows
      | some s =>
        -- `strcmp` looks at the buffer, not at the `n` bytes of the datagram
        if strcmpEq s.buffer endLine then .stops s.file ds else Server.loop fileSize s ds
    else .stops s.file (d :: ds)

/-- The server that has been told `file_size`. -/
def serve (fileSize : Int32) (ds : List Datagram) : Outcome :=
  Server.loop fileSize ⟨fun _ => 0, 0, []⟩ ds

/-! ## What it is for -/

def content (ds : List Datagram) : List UInt8 := ds.flatMap Datagram.bytes

/-- How many bytes the datagrams have. -/
def total (ds : List Datagram) : Nat := (content ds).length

/-- With the datagrams `got` the file is complete. -/
def Complete (fileSize : Int32) (got : List Datagram) : Prop :=
  fileSize.toInt ≤ total got ∨ ∃ d ∈ got.getLast?, d.bytes = endLine.chars

/-- It has not been complete so far. -/
def Receiving (fileSize : Int32) (got : List Datagram) : Prop :=
  ∀ p, p <+: got → ¬Complete fileSize p

/-- The server stops as soon as the file is complete, with the datagrams up to there in it. -/
structure Framed (fileSize : Int32) (ds : List Datagram) : Prop where
  stops : ∀ got unread, ds = got ++ unread → Complete fileSize got →
    (∀ p, p <+: got → p ≠ got → ¬Complete fileSize p) →
    serve fileSize ds = .stops (content got) unread
  waits : Receiving fileSize ds → serve fileSize ds = .waits (content ds)

/-- Byte `k` of the buffer: that of the last datagram that is long enough. -/
def left (ds : List Datagram) (k : Nat) : UInt8 :=
  match ds.reverse.find? fun d => k < d.bytes.length with
  | some d => d.bytes.getD k 0
  | none => 0

/-- What `strcmp` sees is `end`, its newline and a NUL. -/
def SaysEnd (got : List Datagram) : Prop := ∀ k, k ≤ endLine.len → left got k = endLine.mem k

/-- The sum of the sizes is an `int`, and unless the bytes are all there with the datagram `d`, it is
    `end` and finds no byte behind it, or it is not and the bytes behind it do not make it so. -/
def PlainAt (fileSize : Int32) (got : List Datagram) (d : Datagram) : Prop :=
  total (got ++ [d]) ≤ INT_MAX ∧
  (total (got ++ [d]) < fileSize.toInt →
    (d.bytes = endLine.chars → left got endLine.len = 0) ∧
    (d.bytes ≠ endLine.chars → ¬SaysEnd (got ++ [d])))

/-- Every datagram that is to be received is plain. -/
def Plain (fileSize : Int32) (ds : List Datagram) : Prop :=
  ∀ got d unread, ds = got ++ d :: unread → Receiving fileSize got → PlainAt fileSize got d

/-! ## The state after some datagrams -/

section After

variable {fileSize : Int32} {ds got unread : List Datagram} {d : Datagram}

theorem content_concat (got : List Datagram) (d : Datagram) :
    content (got ++ [d]) = content got ++ d.bytes := by
  simp [content]

theorem total_concat (got : List Datagram) (d : Datagram) :
    total (got ++ [d]) = total got + d.bytes.length := by
  rw [total, content_concat, List.length_append]
  rfl

theorem left_concat (got : List Datagram) (d : Datagram) :
    left (got ++ [d]) = recvfrom (left got) d := by
  funext k
  rw [left, recvfrom, List.reverse_append, List.reverse_singleton, List.singleton_append]
  by_cases hk : k < d.bytes.length
  · rw [List.find?_cons_of_pos (by simpa using hk)]
    simp [hk]
  · rw [List.find?_cons_of_neg (by simpa using hk), List.getD_eq_default _ _ (by omega)]
    rfl

/-- The state after the datagrams `got`. -/
def after (got : List Datagram) : Server := ⟨left got, total got, content got⟩

theorem fwrite_recvfrom (file : List UInt8) (buffer : Mem) (d : Datagram) :
    fwrite file (recvfrom buffer d) d.bytes.length = file ++ d.bytes := by
  rw [fwrite]
  congr 1
  apply List.ext_getElem
  · simp
  · intro k hk hk'
    simp [recvfrom, hk']

/-- **A datagram takes the state after those before it to the state after it.** -/
theorem receive_after (hfits : total (got ++ [d]) ≤ INT_MAX) :
    (after got).receive d = some (after (got ++ [d])) := by
  rw [total_concat] at hfits
  have hafter : after (got ++ [d]) =
      ⟨recvfrom (left got) d, (total got : Int) + d.bytes.length, content got ++ d.bytes⟩ := by
    rw [after, left_concat, total_concat, content_concat]
    rfl
  rw [Server.receive, if_pos (by simpa [after] using hfits), fwrite_recvfrom, hafter]
  rfl

theorem receive_overflow (hfits : ¬total (got ++ [d]) ≤ INT_MAX) :
    (after got).receive d = none := by
  rw [total_concat] at hfits
  rw [Server.receive, if_neg (by simpa [after] using hfits)]

/-! ## Runs -/

theorem complete_concat :
    Complete fileSize (got ++ [d]) ↔
      fileSize.toInt ≤ total (got ++ [d]) ∨ d.bytes = endLine.chars := by
  simp [Complete]

/-- `strcmp` after a datagram. -/
theorem strcmpEq_after : strcmpEq (after got).buffer endLine = true ↔ SaysEnd got := strcmpEq_iff

/-- Behind a datagram `end` the NUL has to be there already. -/
theorem saysEnd_concat (hd : d.bytes = endLine.chars) :
    SaysEnd (got ++ [d]) ↔ left got endLine.len = 0 := by
  have hleft : ∀ k, left (got ++ [d]) k = endLine.chars.getD k (left got k) := fun k => by
    rw [left_concat, recvfrom, hd]
  have hlast : left (got ++ [d]) endLine.len = left got endLine.len := by
    rw [hleft]
    exact List.getD_eq_default _ _ (Nat.le_refl _)
  constructor
  · intro hs
    rw [← hlast, hs endLine.len (Nat.le_refl _), endLine.mem_len]
  · intro h0 k hk
    rcases Nat.lt_or_eq_of_le hk with hlt | rfl
    · rw [hleft, CStr.mem, List.getD_eq_getElem _ _ hlt, List.getD_eq_getElem _ _ hlt]
    · rw [hlast, h0, endLine.mem_len]

/-- A datagram is plain if `strcmp` is right about it. -/
theorem plainAt_iff : PlainAt fileSize got d ↔ total (got ++ [d]) ≤ INT_MAX ∧
    (total (got ++ [d]) < fileSize.toInt → (SaysEnd (got ++ [d]) ↔ d.bytes = endLine.chars)) := by
  rw [PlainAt]
  by_cases hd : d.bytes = endLine.chars
  · simp [hd, saysEnd_concat hd]
  · simp [hd]

theorem Receiving.lt (h : Receiving fileSize got) : (total got : Int) < fileSize.toInt :=
  Int.not_le.mp fun hle => h got (List.prefix_refl got) (.inl hle)

theorem receiving_concat :
    Receiving fileSize (got ++ [d]) ↔
      Receiving fileSize got ∧ ¬Complete fileSize (got ++ [d]) := by
  constructor
  · intro h
    exact ⟨fun p hp => h p (hp.trans (List.prefix_append _ _)), h _ (List.prefix_refl _)⟩
  · rintro ⟨h, hd⟩ p hp
    rcases List.prefix_concat_iff.mp hp with rfl | hp
    · exact hd
    · exact h p hp

/-- With all the bytes there the loop ends. -/
theorem loop_of_le (hle : fileSize.toInt ≤ total got) :
    Server.loop fileSize (after got) unread = .stops (content got) unread := by
  have hge : ¬(after got).bytesReceived < fileSize.toInt := Int.not_lt.mpr hle
  cases unread with
  | nil => rw [Server.loop, if_neg hge]; rfl
  | cons d ds => rw [Server.loop, if_neg hge]; rfl

theorem loop_overflow (hlt : (total got : Int) < fileSize.toInt)
    (hfits : ¬(total (got ++ [d]) : Int) ≤ INT_MAX) :
    Server.loop fileSize (after got) (d :: unread) = .overflows := by
  rw [Server.loop, if_pos (by exact hlt), receive_overflow hfits]

theorem loop_ends (hlt : (total got : Int) < fileSize.toInt)
    (hfits : (total (got ++ [d]) : Int) ≤ INT_MAX) (hs : SaysEnd (got ++ [d])) :
    Server.loop fileSize (after got) (d :: unread) = .stops (content (got ++ [d])) unread := by
  rw [Server.loop, if_pos (by exact hlt), receive_after hfits]
  exact if_pos (strcmpEq_after.mpr hs)

theorem loop_goes_on (hlt : (total got : Int) < fileSize.toInt)
    (hfits : (total (got ++ [d]) : Int) ≤ INT_MAX) (hs : ¬SaysEnd (got ++ [d])) :
    Server.loop fileSize (after got) (d :: unread) =
      Server.loop fileSize (after (got ++ [d])) unread := by
  rw [Server.loop, if_pos (by exact hlt), receive_after hfits]
  exact if_neg (mt strcmpEq_after.mp hs)

/-- The loop goes on as long as the file is not complete, if every datagram that it comes to is
    plain. -/
theorem serve_eq (hplain : ∀ got d unread, ds = got ++ d :: unread → Receiving fileSize got →
      serve fileSize ds = Server.loop fileSize (after got) (d :: unread) → PlainAt fileSize got d)
    (hds : ds = got ++ unread) (hrec : Receiving fileSize got) :
    serve fileSize ds = Server.loop fileSize (after got) unread := by
  induction got using List.reverseRecOn generalizing unread with
  | nil =>
    subst hds
    rfl
  | append_singleton got d ih =>
    obtain ⟨hrec, hd⟩ := receiving_concat.mp hrec
    rw [complete_concat, not_or, Int.not_le] at hd
    rw [← List.append_cons] at hds
    have hrun := ih hds hrec
    obtain ⟨hfits, hiff⟩ := plainAt_iff.mp (hplain got d unread hds hrec hrun)
    rw [hrun, loop_goes_on hrec.lt hfits (mt (hiff hd.1).mp hd.2)]

/-- What the loop does with its first datagram, where it stops in the end. -/
theorem loop_cons_stops {s : Server} {file : List UInt8}
    (h : Server.loop fileSize s (d :: ds) = .stops file unread) :
    unread = ds ∨ (∃ s', Server.loop fileSize s' ds = .stops file unread) ∨
      ¬s.bytesReceived < fileSize.toInt ∧ unread = d :: ds := by
  rw [Server.loop] at h
  by_cases hlt : s.bytesReceived < fileSize.toInt
  · rw [if_pos hlt] at h
    cases hrec : s.receive d with
    | none => simp [hrec] at h
    | some s' =>
      rw [hrec] at h
      simp only at h
      split at h
      · injection h with _ hds
        exact .inl hds.symm
      · exact .inr (.inl ⟨s', h⟩)
  · rw [if_neg hlt] at h
    injection h with _ hds
    exact .inr (.inr ⟨hlt, hds.symm⟩)

theorem unread_le {s : Server} {file : List UInt8}
    (h : Server.loop fileSize s ds = .stops file unread) : unread.length ≤ ds.length := by
  induction ds generalizing s with
  | nil =>
    rw [Server.loop] at h
    split at h
    · cases h
    · injection h with _ hds
      exact Nat.le_of_eq (congrArg List.length hds.symm)
  | cons d ds ih =>
    rcases loop_cons_stops h with rfl | ⟨s', h'⟩ | ⟨-, rfl⟩
    · exact Nat.le_succ _
    · exact Nat.le_succ_of_le (ih h')
    · exact Nat.le_refl _

/-- A loop that has not all the bytes takes a datagram before it stops. -/
theorem unread_lt {s : Server} {file : List UInt8} (hlt : s.bytesReceived < fileSize.toInt)
    (h : Server.loop fileSize s ds = .stops file unread) : unread.length < ds.length := by
  cases ds with
  | nil =>
    rw [Server.loop, if_pos hlt] at h
    cases h
  | cons d ds =>
    rcases loop_cons_stops h with rfl | ⟨s', h'⟩ | ⟨hge, -⟩
    · exact Nat.lt_succ_self _
    · exact Nat.lt_succ_of_le (unread_le h')
    · exact absurd hlt hge

/-- Either the file is never complete, or there is a first time. -/
theorem receiving_or_first (fileSize : Int32) (ds : List Datagram) :
    Receiving fileSize ds ∨ ∃ got unread, ds = got ++ unread ∧ Complete fileSize got ∧
      ∀ p, p <+: got → p ≠ got → ¬Complete fileSize p := by
  induction ds using List.reverseRecOn with
  | nil =>
    by_cases h : Complete fileSize []
    · exact .inr ⟨[], [], rfl, h, fun p hp hne => absurd (List.prefix_nil.mp hp) hne⟩
    · exact .inl fun p hp => by rw [List.prefix_nil.mp hp]; exact h
  | append_singleton ds d ih =>
    rcases ih with hrec | ⟨got, unread, rfl, hgot, hfirst⟩
    · by_cases h : Complete fileSize (ds ++ [d])
      · refine .inr ⟨ds ++ [d], [], (List.append_nil _).symm, h, fun p hp hne => ?_⟩
        exact hrec p ((List.prefix_concat_iff.mp hp).resolve_left hne)
      · exact .inl (receiving_concat.mpr ⟨hrec, h⟩)
    · exact .inr ⟨got, unread ++ [d], List.append_assoc _ _ _, hgot, hfirst⟩

/-- Before the first time that the file is complete it has not been so. -/
theorem receiving_of_first (hfirst : ∀ p, p <+: got ++ [d] → p ≠ got ++ [d] → ¬Complete fileSize p) :
    Receiving fileSize got := by
  intro p hp
  refine hfirst p (hp.trans (List.prefix_append _ _)) ?_
  rintro rfl
  have hle := hp.length_le
  rw [List.length_append, List.length_singleton] at hle
  omega

theorem first_concat (hrec : Receiving fileSize got) :
    ∀ p, p <+: got ++ [d] → p ≠ got ++ [d] → ¬Complete fileSize p :=
  fun p hp hne => hrec p ((List.prefix_concat_iff.mp hp).resolve_left hne)

theorem Plain.framed (h : Plain fileSize ds) : Framed fileSize ds := by
  have hrun : ∀ {got unread}, ds = got ++ unread → Receiving fileSize got →
      serve fileSize ds = Server.loop fileSize (after got) unread := fun hds hrec =>
    serve_eq (fun got d unread hds hrec _ => h got d unread hds hrec) hds hrec
  constructor
  case waits =>
    intro hrec
    rw [hrun (List.append_nil ds).symm hrec, Server.loop, if_pos (by exact hrec.lt)]
    rfl
  case stops =>
    intro got unread hds hgot hfirst
    rcases List.eq_nil_or_concat got with rfl | ⟨got, d, rfl⟩
    · have hle : fileSize.toInt ≤ total [] := by simpa [Complete] using hgot
      rw [hds]
      exact loop_of_le hle
    · rw [List.concat_eq_append] at *
      have hrec := receiving_of_first hfirst
      rw [← List.append_cons] at hds
      obtain ⟨hfits, hiff⟩ := plainAt_iff.mp (h got d unread hds hrec)
      rw [hrun hds hrec]
      by_cases hs : SaysEnd (got ++ [d])
      · exact loop_ends hrec.lt hfits hs
      · rw [loop_goes_on hrec.lt hfits hs]
        refine loop_of_le (Int.not_lt.mp fun hlt => hs ((hiff hlt).mpr ?_))
        exact (complete_concat.mp hgot).resolve_left (Int.not_le.mpr hlt)

/-- A server that meets its purpose overflows nothing. -/
theorem Framed.ne_overflows (h : Framed fileSize ds) : serve fileSize ds ≠ .overflows := by
  intro hover
  rcases receiving_or_first fileSize ds with hrec | ⟨g, u, hg, hcomplete, hfirst⟩
  · have hrun := h.waits hrec
    rw [hover] at hrun
    cases hrun
  · have hrun := h.stops g u hg hcomplete hfirst
    rw [hover] at hrun
    cases hrun

/-- It stops with a complete file only. -/
theorem Framed.complete (h : Framed fileSize ds) {file : List UInt8} (hds : ds = got ++ unread)
    (hstops : serve fileSize ds = .stops file unread) : Complete fileSize got := by
  rcases receiving_or_first fileSize ds with hrec | ⟨g, u, hg, hcomplete, hfirst⟩
  · have hrun := h.waits hrec
    rw [hstops] at hrun
    cases hrun
  · have hrun := h.stops g u hg hcomplete hfirst
    rw [hstops] at hrun
    injection hrun with _ hu
    subst hu
    rwa [List.append_cancel_right (hds.symm.trans hg)]

/-- So each datagram that the loop comes to is plain. -/
theorem Framed.plainAt (h : Framed fileSize ds) (hds : ds = got ++ d :: unread)
    (hrec : Receiving fileSize got)
    (hrun : serve fileSize ds = Server.loop fileSize (after got) (d :: unread)) :
    PlainAt fileSize got d := by
  have hfits : (total (got ++ [d]) : Int) ≤ INT_MAX := by
    by_contra hfits
    exact h.ne_overflows (hrun.trans (loop_overflow hrec.lt hfits))
  have hds' : ds = got ++ [d] ++ unread := by rw [hds, List.append_cons]
  refine plainAt_iff.mpr ⟨hfits, fun hlt => ⟨fun hs => ?_, fun hd => ?_⟩⟩
  · -- stopped here, so rightly
    have hcomplete := h.complete hds' (hrun.trans (loop_ends hrec.lt hfits hs))
    exact (complete_concat.mp hcomplete).resolve_left (Int.not_le.mpr hlt)
  · -- not stopped here, so with fewer datagrams unread or not at all
    by_contra hs
    have hstops := h.stops _ _ hds' (complete_concat.mpr (.inr hd)) (first_concat hrec)
    rw [hrun, loop_goes_on hrec.lt hfits hs] at hstops
    exact Nat.lt_irrefl _ (unread_lt (by exact hlt) hstops)

theorem Framed.plain (h : Framed fileSize ds) : Plain fileSize ds := by
  intro got d unread hds hrec
  refine h.plainAt hds hrec (serve_eq ?_ hds hrec)
  exact fun got d unread hds hrec hrun => h.plainAt hds hrec hrun

end After

/-- **Exactly when the server frames the datagrams right**: when all that it receives are plain. -/
theorem framed_iff_plain (fileSize : Int32) (ds : List Datagram) :
    Framed fileSize ds ↔ Plain fileSize ds :=
  ⟨fun h => h.plain, fun h => h.framed⟩

theorem receiving_nil {fileSize : Int32} (hpos : 0 < fileSize.toInt) : Receiving fileSize [] := by
  intro p hp
  rw [List.prefix_nil.mp hp]
  simpa [Complete, total, content] using hpos

/-- `hello`, then `end`: the buffer says `end`, a newline and the `o` that was there. -/
theorem not_framed_hello :
    ¬Framed 100 [⟨[104, 101, 108, 108, 111], by decide, by decide⟩,
      ⟨[101, 110, 100, 10], by decide, by decide⟩] := by
  intro h
  have hrec : Receiving 100 [⟨[104, 101, 108, 108, 111], by decide, by decide⟩] := by
    refine (@receiving_concat 100 [] _).mpr ⟨receiving_nil (by decide), ?_⟩
    rw [complete_concat]
    decide
  obtain ⟨-, hplain⟩ := h.plain _ _ [] rfl hrec
  exact absurd ((hplain (by decide)).1 rfl) (by decide)

end OsCodes.Socket
