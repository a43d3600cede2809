/-
  Doubly linked rings, at the level of their pointers.

  A ring has a head `h` that is not an element; `next` and `prev` go round it in the two directions.
  `Path a l z` says that the nodes of `l` lie between `a` and `z` in this order, and a ring is a path
  from the head to itself.  A node is taken out and put in by four assignments, as in C, and walking
  in either direction is searching the list of the elements or its reverse (`Ring.find_next`,
  `Ring.find_prev`).

  The links are total functions; what they say of nodes outside the ring is not used.
  `Path.unlink` is the one place where assignments are looked at: a node between two paths is left
  out by two of them.  Taking out, putting in behind the head and moving to the front are made of
  it, and after each of them the list of elements is given, so that an order ("least recently used
  first") can be an invariant of that list.
-/
import Mathlib.Logic.Function.Basic
import Mathlib.Tactic.Common

namespace OsCodes.Ring

variable {π : Type}

/-- From `a` over the nodes of `l` to `z`, and back. -/
def Path (next prev : π → π) (a : π) : List π → π → Prop
  | [], z => next a = z ∧ prev z = a
  | x :: xs, z => next a = x ∧ prev x = a ∧ Path next prev x xs z

/-- The elements of the ring with head `h`, from `next h` on. -/
structure IsRing (next prev : π → π) (h : π) (l : List π) : Prop where
  path : Path next prev h l h
  nodup : (h :: l).Nodup

/-! ## Paths -/

section Paths

variable {next prev next' prev' : π → π} {a b x z : π} {l xs ys : List π}

theorem path_append : Path next prev a (xs ++ x :: ys) z ↔
    Path next prev a xs x ∧ Path next prev x ys z := by
  induction xs generalizing a with
  | nil => exact ⟨fun ⟨h, h', hp⟩ => ⟨⟨h, h'⟩, hp⟩, fun ⟨⟨h, h'⟩, hp⟩ => ⟨h, h', hp⟩⟩
  | cons y xs ih =>
    rw [List.cons_append, Path, ih, Path]
    constructor
    · rintro ⟨h, h', hp, hq⟩
      exact ⟨⟨h, h', hp⟩, hq⟩
    · rintro ⟨⟨h, h', hp⟩, hq⟩
      exact ⟨h, h', hp, hq⟩

/-- Only the links of the path matter. -/
theorem Path.congr (h : Path next prev a l z) (hn : ∀ y ∈ a :: l, next' y = next y)
    (hp : ∀ y ∈ z :: l, prev' y = prev y) : Path next' prev' a l z := by
  induction l generalizing a with
  | nil => exact ⟨(hn a List.mem_cons_self).trans h.1, (hp z List.mem_cons_self).trans h.2⟩
  | cons y l ih =>
    obtain ⟨hay, hya, hl⟩ := h
    refine ⟨(hn a List.mem_cons_self).trans hay,
      (hp y (List.mem_cons_of_mem _ List.mem_cons_self)).trans hya,
      ih hl (fun w hw => hn w (List.mem_cons_of_mem _ hw)) fun w hw => hp w ?_⟩
    rcases List.mem_cons.mp hw with rfl | hw
    · exact List.mem_cons_self
    · exact List.mem_cons_of_mem _ (List.mem_cons_of_mem _ hw)

/-- The same path, walked the other way. -/
theorem Path.reverse (h : Path next prev a l z) : Path prev next z l.reverse a := by
  induction l generalizing a with
  | nil => exact ⟨h.2, h.1⟩
  | cons y l ih =>
    obtain ⟨hay, hya, hl⟩ := h
    rw [List.reverse_cons]
    exact path_append.mpr ⟨ih hl, hya, hay⟩

theorem Path.next_mem (h : Path next prev a l z) : next a ∈ l ++ [z] := by
  cases l with
  | nil => exact h.1 ▸ List.mem_singleton_self _
  | cons y l => exact h.1 ▸ List.mem_cons_self

theorem Path.prev_mem (h : Path next prev a l z) : prev z ∈ a :: l := by
  have hmem := h.reverse.next_mem
  rw [List.mem_append, List.mem_reverse, List.mem_singleton] at hmem
  exact List.mem_cons.mpr hmem.symm

variable [DecidableEq π]

/-- **Two paths joined** behind the node between them: two assignments leave it out. -/
theorem Path.unlink (h : Path next prev a xs b) (h' : Path next prev b ys z)
    (hfwd : (a :: xs ++ b :: ys).Nodup) (hbwd : (xs ++ b :: ys ++ [z]).Nodup) :
    Path (Function.update next (prev b) (next b)) (Function.update prev (next b) (prev b)) a
      (xs ++ ys) z := by
  induction xs generalizing a with
  | nil =>
    obtain ⟨hab, hba⟩ := h
    rw [hba]
    cases ys with
    | nil =>
      refine ⟨?_, ?_⟩
      · rw [Function.update_self, h'.1]
      · rw [h'.1, Function.update_self]
    | cons y ys =>
      obtain ⟨hby, hyb, hys⟩ := h'
      rw [hby]
      simp only [List.nil_append, List.cons_append, List.nodup_cons, List.mem_cons, not_or] at hfwd
      rw [List.nil_append, List.cons_append, List.nodup_cons, List.cons_append] at hbwd
      refine ⟨Function.update_self _ _ _, Function.update_self _ _ _, hys.congr ?_ ?_⟩
      · intro w hw
        refine Function.update_of_ne ?_ _ _
        rintro rfl
        rcases List.mem_cons.mp hw with heq | hw
        · exact hfwd.1.2.1 heq
        · exact hfwd.1.2.2 hw
      · intro w hw
        refine Function.update_of_ne ?_ _ _
        rintro rfl
        have hnot := (List.nodup_cons.mp hbwd.2).1
        rw [List.mem_append, List.mem_singleton] at hnot
        rcases List.mem_cons.mp hw with heq | hw
        · exact hnot (.inr heq)
        · exact hnot (.inl hw)
  | cons x xs ih =>
    obtain ⟨hax, hxa, hxs⟩ := h
    have hfwd' := List.nodup_cons.mp hfwd
    have hbwd' := List.nodup_cons.mp hbwd
    refine ⟨?_, ?_, ih hxs hfwd'.2 hbwd'.2⟩
    · refine (Function.update_of_ne ?_ _ _).trans hax
      intro heq
      refine hfwd'.1 (List.mem_append_left _ ?_)
      rw [heq]
      exact hxs.prev_mem
    · refine (Function.update_of_ne ?_ _ _).trans hxa
      intro heq
      have hmem := h'.next_mem
      rw [← heq, List.mem_append] at hmem
      have hin : x ∈ (xs ++ b :: ys) ++ [z] := by
        rcases hmem with hmem | hmem
        · exact List.mem_append_left _ (List.mem_append_right _ (List.mem_cons_of_mem _ hmem))
        · exact List.mem_append_right _ hmem
      exact hbwd'.1 hin

end Paths

/-! ## The ring -/

section IsRing

variable {next prev : π → π} {h b : π} {l : List π}

theorem IsRing.not_mem (hr : IsRing next prev h l) : h ∉ l := (List.nodup_cons.mp hr.nodup).1

theorem IsRing.elems_nodup (hr : IsRing next prev h l) : l.Nodup := (List.nodup_cons.mp hr.nodup).2

variable [DecidableEq π]

/-- The elements but `b`. -/
def rest (b : π) (l : List π) : List π := l.erase b

theorem rest_sublist : (rest b l).Sublist l := List.erase_sublist

theorem IsRing.mem_rest (hr : IsRing next prev h l) {x : π} (hx : x ∈ rest b l) : x ≠ b ∧ x ∈ l := by
  refine ⟨?_, List.mem_of_mem_erase hx⟩
  rintro rfl
  exact hr.elems_nodup.not_mem_erase hx

/-- **A node taken out**: its two neighbours are linked to each other. -/
theorem IsRing.unlink (hr : IsRing next prev h l) (hb : b ∈ l) :
    IsRing (Function.update next (prev b) (next b)) (Function.update prev (next b) (prev b)) h
      (rest b l) := by
  obtain ⟨xs, ys, rfl, hnot⟩ := List.eq_append_cons_of_mem hb
  have herase : rest b (xs ++ b :: ys) = xs ++ ys := by
    rw [rest, List.erase_append_right _ hnot, List.erase_cons_head]
  obtain ⟨hxs, hys⟩ := path_append.mp hr.path
  rw [herase]
  refine ⟨hxs.unlink hys hr.nodup ?_, ?_⟩
  · have hone : [h].Nodup := List.nodup_cons.mpr ⟨List.not_mem_nil, List.nodup_nil⟩
    refine List.nodup_append.mpr ⟨hr.elems_nodup, hone, fun a ha c hc => ?_⟩
    rw [List.mem_singleton.mp hc]
    rintro rfl
    exact hr.not_mem ha
  · refine hr.nodup.sublist (List.Sublist.cons_cons _ ?_)
    exact List.Sublist.append (List.Sublist.refl xs) (List.sublist_cons_self b ys)

/-- **A node put in** behind the head. -/
theorem IsRing.insert (hr : IsRing next prev h l) (hbh : b ≠ h) (hb : b ∉ l) :
    IsRing (Function.update (Function.update next b (next h)) h b)
      (Function.update (Function.update prev b h) (next h) b) h (b :: l) := by
  have hnodup : (h :: b :: l).Nodup := by
    refine List.nodup_cons.mpr ⟨fun hm => ?_, List.nodup_cons.mpr ⟨hb, hr.elems_nodup⟩⟩
    rcases List.mem_cons.mp hm with heq | hm
    · exact hbh heq.symm
    · exact hr.not_mem hm
  refine ⟨⟨Function.update_self _ _ _, ?_, ?_⟩, hnodup⟩
  · -- `next h` is not `b`
    rw [Function.update_of_ne, Function.update_self]
    rintro rfl
    have hmem := hr.path.next_mem
    rw [List.mem_append, List.mem_singleton] at hmem
    exact hmem.elim hb hbh
  · have hnext : Function.update (Function.update next b (next h)) h b b = next h := by
      rw [Function.update_of_ne hbh, Function.update_self]
    cases l with
    | nil =>
      obtain ⟨hnh, -⟩ := hr.path
      exact ⟨hnext.trans hnh, by rw [hnh, Function.update_self]⟩
    | cons x l =>
      obtain ⟨hhx, hxh, hl⟩ := hr.path
      rw [List.mem_cons, not_or] at hb
      refine ⟨hnext.trans hhx, by rw [hhx, Function.update_self], hl.congr ?_ ?_⟩
      · intro w hw
        have hwh : w ≠ h := fun heq => hr.not_mem (heq ▸ hw)
        have hwb : w ≠ b := fun heq => (List.mem_cons.mp hw).elim (fun hx => hb.1 (heq.symm.trans hx))
          fun hm => hb.2 (heq ▸ hm)
        rw [Function.update_of_ne hwh, Function.update_of_ne hwb]
      · intro w hw
        have hwx : w ≠ next h := by
          rw [hhx]
          rintro rfl
          rcases List.mem_cons.mp hw with heq | hm
          · exact hr.not_mem (heq ▸ List.mem_cons_self)
          · exact (List.nodup_cons.mp hr.elems_nodup).1 hm
        have hwb : w ≠ b := fun heq => (List.mem_cons.mp hw).elim (fun hx => hbh (heq.symm.trans hx))
          fun hm => hb.2 (heq ▸ hm)
        rw [Function.update_of_ne hwx, Function.update_of_ne hwb]

/-- **A node moved to the front.** -/
theorem IsRing.toFront (hr : IsRing next prev h l) (hb : b ∈ l) :
    let next' := Function.update next (prev b) (next b)
    let prev' := Function.update prev (next b) (prev b)
    IsRing (Function.update (Function.update next' b (next' h)) h b)
      (Function.update (Function.update prev' b h) (next' h) b) h (b :: rest b l) :=
  (hr.unlink hb).insert (fun heq => hr.not_mem (heq ▸ hb)) fun hm => (hr.mem_rest hm).1 rfl

/-- It stays an element, and so do the others. -/
theorem mem_toFront {x : π} (hx : x ∈ l) : x ∈ b :: rest b l := by
  by_cases hxb : x = b
  · rw [hxb]
    exact List.mem_cons_self
  · exact List.mem_cons_of_mem _ ((List.mem_erase_of_ne hxb).mpr hx)

end IsRing

/-! ## Walking -/

section Scan

variable {next prev : π → π} {a h z : π} {l : List π} [DecidableEq π]

/-- `for(b = p; b != &head; b = next(b)) if(ok(b)) return b;`, for at most `n` turns. -/
def scan (next : π → π) (h : π) (ok : π → Bool) : Nat → π → Option π
  | 0, _ => none
  | n + 1, p => if p = h then none else if ok p then some p else scan next h ok n (next p)

theorem Path.scan (hp : Path next prev a l h) (hh : h ∉ l) (ok : π → Bool) {n : Nat}
    (hn : l.length < n) : scan next h ok n (next a) = l.find? ok := by
  induction l generalizing a n with
  | nil =>
    obtain ⟨m, rfl⟩ : ∃ m, n = m + 1 := ⟨n - 1, by rw [List.length_nil] at hn; omega⟩
    rw [hp.1, Ring.scan, if_pos rfl]
    rfl
  | cons x l ih =>
    obtain ⟨hax, -, hl⟩ := hp
    rw [List.mem_cons, not_or] at hh
    rw [List.length_cons] at hn
    obtain ⟨m, rfl⟩ : ∃ m, n = m + 1 := ⟨n - 1, by omega⟩
    rw [hax, Ring.scan, if_neg (Ne.symm hh.1), List.find?_cons]
    cases hx : ok x with
    | true => rfl
    | false => exact ih hl hh.2 (by omega)

/-- **Walking along `next`** from the head finds the first element that passes the test. -/
theorem IsRing.find_next (hr : IsRing next prev h l) (ok : π → Bool) {n : Nat} (hn : l.length < n) :
    scan next h ok n (next h) = l.find? ok :=
  hr.path.scan hr.not_mem ok hn

/-- **Walking along `prev`** from the head finds the last one. -/
theorem IsRing.find_prev (hr : IsRing next prev h l) (ok : π → Bool) {n : Nat} (hn : l.length < n) :
    scan prev h ok n (prev h) = l.reverse.find? ok :=
  hr.path.reverse.scan (fun hm => hr.not_mem (List.mem_reverse.mp hm)) ok
    (by rwa [List.length_reverse])

omit [DecidableEq π] in
/-- The last element of an ordered list that a test picks comes after all others that it picks. -/
theorem after_of_find_reverse {R : π → π → Prop} {ok : π → Bool} {x y : π} (hl : l.Pairwise R)
    (hx : l.reverse.find? ok = some x) (hy : y ∈ l) (hok : ok y = true) : y = x ∨ R y x := by
  obtain ⟨-, as, bs, heq, hno⟩ := List.find?_eq_some_iff_append.mp hx
  have hsplit : l = bs.reverse ++ x :: as.reverse := by
    rw [← List.reverse_reverse l, heq, List.reverse_append, List.reverse_cons, List.append_assoc]
    rfl
  rw [hsplit] at hl hy
  rcases List.mem_append.mp hy with hy | hy
  · exact .inr ((List.pairwise_append.mp hl).2.2 y hy x List.mem_cons_self)
  · rcases List.mem_cons.mp hy with hy | hy
    · exact .inl hy
    · have hnot := hno y (List.mem_reverse.mp hy)
      rw [hok] at hnot
      cases hnot

end Scan

end OsCodes.Ring
