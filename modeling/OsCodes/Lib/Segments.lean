/-
  Lists cut at the elements with a property.

  `List.splitOnP` gives the pieces between the cuts, also the empty ones; `words` are the others.  A
  scan from the left has a piece `w` of its own without a cut in it, and the lemmas say what becomes of
  that piece at the next element and at the end.

  The lemmas come in two directions: from the front, cut by cut (`words_append_cons`,
  `lines_append_cons`), for a scan that has come to some place, and from the end (`words_concat`,
  `lines_append`), for a text that is read in pieces.
-/
import Mathlib.Data.List.TakeWhile
import Mathlib.Tactic.Common

namespace OsCodes

variable {α : Type} {p : α → Bool} {w l : List α} {c : α}

/-- There is one piece more than there are cuts. -/
theorem length_splitOnP (p : α → Bool) (l : List α) :
    (l.splitOnP p).length = l.countP p + 1 := by
  induction l with
  | nil => rfl
  | cons c l ih =>
    rw [List.splitOnP_cons_eq_if_modifyHead]
    split
    case isTrue hc => rw [List.length_cons, ih, List.countP_cons_of_pos hc]
    case isFalse hc => rw [List.length_modifyHead, ih, List.countP_cons_of_neg hc]

theorem forall_mem_concat {P : α → Prop} (hl : ∀ x ∈ l, P x) (hc : P c) : ∀ x ∈ l ++ [c], P x :=
  List.forall_mem_append.mpr ⟨hl, List.forall_mem_singleton.mpr hc⟩

/-- The maximal runs of elements that are no cuts. -/
def words (p : α → Bool) (l : List α) : List (List α) := (l.splitOnP p).filter fun w => !w.isEmpty

theorem words_nil : words p [] = [] := rfl

theorem nil_notMem_words : [] ∉ words p l := by
  intro h
  cases (List.mem_filter.mp h).2

/-- A list without cuts is a word, or empty. -/
theorem words_of_forall (hw : ∀ x ∈ w, p x = false) : words p w = if w = [] then [] else [w] := by
  rw [words, List.splitOnP_eq_singleton hw]
  cases w with
  | nil => rfl
  | cons c w => rfl

/-- **At a cut** the piece ends. -/
theorem words_append_cons (w l : List α) (hc : p c = true) :
    words p (w ++ c :: l) = words p w ++ words p l := by
  rw [words, List.splitOnP_append_cons w l hc, List.filter_append]
  rfl

/-- A cut at the end makes no difference. -/
theorem words_concat (l : List α) (hc : p c = true) : words p (l ++ [c]) = words p l := by
  rw [words_append_cons l [] hc]
  exact List.append_nil _

/-- A piece that is not empty becomes the first word, or part of it. -/
theorem words_append (hw : ∀ x ∈ w, p x = false) (hne : w ≠ []) (l : List α) :
    ∃ u us, words p (w ++ l) = (w ++ u) :: us := by
  induction l generalizing w with
  | nil =>
    refine ⟨[], [], ?_⟩
    rw [List.append_nil, words_of_forall hw, if_neg hne]
  | cons c l ih =>
    cases hc : p c with
    | true =>
      refine ⟨[], words p l, ?_⟩
      rw [words_append_cons w l hc, words_of_forall hw, if_neg hne, List.append_nil]
      rfl
    | false =>
      obtain ⟨u, us, hu⟩ := ih (forall_mem_concat hw hc)
        (List.append_ne_nil_of_right_ne_nil w (List.cons_ne_nil c []))
      refine ⟨c :: u, us, ?_⟩
      rw [List.append_cons, hu, List.append_cons w c u]

/-! ## Lines -/

/-- The pieces that a cut ends. -/
def lines (p : α → Bool) (l : List α) : List (List α) := (l.splitOnP p).dropLast

/-- The piece behind the last cut. -/
def lastLine (p : α → Bool) (l : List α) : List α := (l.splitOnP p).getLastD []

/-- A list without cuts has no line that ends. -/
theorem lines_of_forall (hw : ∀ x ∈ w, p x = false) : lines p w = [] ∧ lastLine p w = w := by
  rw [lines, lastLine, List.splitOnP_eq_singleton hw]
  exact ⟨rfl, rfl⟩

/-- **At the first cut** the first line ends. -/
theorem lines_append_cons (hw : ∀ x ∈ w, p x = false) (l : List α) (hc : p c = true) :
    lines p (w ++ c :: l) = w :: lines p l ∧ lastLine p (w ++ c :: l) = lastLine p l := by
  rw [lines, lastLine, List.splitOnP_append_cons w l hc, List.splitOnP_eq_singleton hw,
    List.singleton_append]
  have hne := List.splitOnP_ne_nil p l
  refine ⟨List.dropLast_cons_of_ne_nil hne, ?_⟩
  rw [lastLine, List.getLastD_cons]
  cases hl : l.splitOnP p with
  | nil => exact absurd hl hne
  | cons v vs => rfl

/-- **Line by line**: a list is its first line and the rest, or has no cut. -/
theorem lines_induction {P : List α → Prop} (hlast : ∀ w, (∀ x ∈ w, p x = false) → P w)
    (hline : ∀ w c l, (∀ x ∈ w, p x = false) → p c = true → P l → P (w ++ c :: l)) (l : List α) :
    P l := by
  generalize hn : l.length = n
  induction n using Nat.strongRecOn generalizing l with
  | ind n ih =>
    cases hrest : l.dropWhile fun x => !p x with
    | nil =>
      have hall : ∀ x ∈ l, p x = false := by simpa [List.dropWhile_eq_nil_iff] using hrest
      exact hlast l hall
    | cons c rest =>
      have hl := List.takeWhile_append_dropWhile (p := fun x => !p x) (l := l)
      rw [hrest] at hl
      have hw : ∀ x ∈ l.takeWhile fun x => !p x, p x = false := fun x hx => by
        simpa using List.mem_takeWhile_imp hx
      have hc : p c = true := by
        have hhead := List.head?_dropWhile_not (fun x => !p x) l
        rw [hrest] at hhead
        simpa using hhead
      have hlen : rest.length < n := by
        rw [← hn, ← hl, List.length_append, List.length_cons]
        omega
      rw [← hl]
      exact hline _ c rest hw hc (ih _ hlen rest rfl)

/-- The lines of a list that goes on. -/
theorem lines_append (p : α → Bool) (l m : List α) :
    lines p (l ++ m) = lines p l ++ lines p (lastLine p l ++ m) ∧
      lastLine p (l ++ m) = lastLine p (lastLine p l ++ m) := by
  induction l using lines_induction (p := p) with
  | hlast w hw =>
    obtain ⟨hnil, hlast⟩ := lines_of_forall hw
    rw [hnil, hlast, List.nil_append]
    exact ⟨rfl, rfl⟩
  | hline w c l hw hc ih =>
    obtain ⟨hlines, hlast⟩ := lines_append_cons hw l hc
    obtain ⟨hlines', hlast'⟩ := lines_append_cons hw (l ++ m) hc
    rw [List.append_assoc, List.cons_append, hlines, hlast, hlines', hlast', ih.1, ih.2,
      List.cons_append]
    exact ⟨rfl, rfl⟩

/-- The last line is the end of the list. -/
theorem lastLine_suffix (p : α → Bool) (l : List α) : lastLine p l <:+ l := by
  induction l using lines_induction (p := p) with
  | hlast w hw =>
    exact ⟨[], (lines_of_forall hw).2⟩
  | hline w c l hw hc ih =>
    rw [(lines_append_cons hw l hc).2]
    exact (ih.trans (List.suffix_cons c l)).trans (List.suffix_append w _)

/-- It is all of the list if that has no cut, and else shorter. -/
theorem length_lastLine_iff (p : α → Bool) (l : List α) :
    (lastLine p l).length = l.length ↔ ∀ x ∈ l, p x = false := by
  constructor
  · intro h
    have heq := (lastLine_suffix p l).eq_of_length h
    rw [← heq]
    induction l using lines_induction (p := p) with
    | hlast w hw =>
      rw [(lines_of_forall hw).2]
      exact hw
    | hline w c l hw hc ih =>
      have hle := (lastLine_suffix p l).length_le
      rw [(lines_append_cons hw l hc).2, List.length_append, List.length_cons] at h
      omega
  · intro h
    rw [(lines_of_forall h).2]

/-- Nothing is cut behind the last cut. -/
theorem lastLine_forall (p : α → Bool) (l : List α) : ∀ x ∈ lastLine p l, p x = false := by
  induction l using lines_induction (p := p) with
  | hlast w hw =>
    rw [(lines_of_forall hw).2]
    exact hw
  | hline w c l hw hc ih =>
    rw [(lines_append_cons hw l hc).2]
    exact ih

end OsCodes
