/-
  Slots that own resources.

  `f s` is the resource that slot `s` refers to, if any; `used` is the allocator's own record of
  what is taken.  `Owns` says the two agree as far as safety needs: what is referred to is taken,
  and by one slot only.  `NoLeak` is the converse: what is taken is referred to.

  Two changes cover an allocator: slots that were empty `grow` resources that were not taken, and
  a set of slots is `release`d together with what it refers to.

  Both parts of the state may have other readers, so the rules speak of what changed and not of
  how: `Owns.grow` and `Owns.release` take the old and the new map and what the new record says.
-/
import Mathlib.Tactic.Common
import Mathlib.Logic.Function.Basic

namespace OsCodes

variable {σ β : Type}

/-- Referred to means taken, and no resource is referred to twice. -/
structure Owns (f : σ → Option β) (used : β → Prop) : Prop where
  marked : ∀ {s b}, f s = some b → used b
  apart : ∀ {s t b}, f s = some b → f t = some b → s = t

/-- Taken means referred to: every block that is taken has an owner. -/
def NoLeak (f : σ → Option β) (used : β → Prop) : Prop := ∀ b, used b → ∃ s, f s = some b

variable {f f' : σ → Option β} {used used' : β → Prop}

/-- **Growing.**  What `f'` has and `f` has not was free before, is taken now, and is referred to
    once. -/
theorem Owns.grow (h : Owns f used) (hmono : ∀ b, used b → used' b)
    (hnew : ∀ s b, f' s = some b → f s = some b ∨ ¬ used b ∧ used' b)
    (hone : ∀ s t b, ¬ used b → f' s = some b → f' t = some b → s = t) : Owns f' used' where
  marked {s b} hs := by
    rcases hnew s b hs with hold | ⟨-, hb⟩
    · exact hmono b (h.marked hold)
    · exact hb
  apart {s t b} hs ht := by
    by_cases hb : used b
    · -- a resource taken before is referred to as before
      have hs' : f s = some b := (hnew s b hs).resolve_right fun hn => hn.1 hb
      have ht' : f t = some b := (hnew t b ht).resolve_right fun hn => hn.1 hb
      exact h.apart hs' ht'
    · exact hone s t b hb hs ht

theorem NoLeak.grow (h : NoLeak f used) (hkeep : ∀ s b, f s = some b → f' s = some b)
    (hused : ∀ b, used' b → used b ∨ ∃ s, f' s = some b) : NoLeak f' used' := by
  intro b hb
  rcases hused b hb with hb | hb
  · obtain ⟨s, hs⟩ := h b hb
    exact ⟨s, hkeep s b hs⟩
  · exact hb

section Assign

variable [DecidableEq σ] {o : σ} {b : β}

/-- **Assigning** a free resource to an empty slot. -/
theorem Owns.assign (h : Owns f used) (hfree : ¬ used b)
    (hused : ∀ c, used' c ↔ c = b ∨ used c) : Owns (Function.update f o (some b)) used' := by
  have hget : ∀ {s c}, Function.update f o (some b) s = some c →
      s = o ∧ c = b ∨ s ≠ o ∧ f s = some c := by
    intro s c hs
    by_cases hso : s = o
    · rw [hso, Function.update_self] at hs
      exact .inl ⟨hso, (Option.some.inj hs).symm⟩
    · rw [Function.update_of_ne hso] at hs
      exact .inr ⟨hso, hs⟩
  have hapart : ∀ {s}, f s ≠ some b := fun hs => hfree (h.marked hs)
  constructor
  · intro s c hs
    rcases hget hs with ⟨-, hc⟩ | ⟨-, hs⟩
    · exact (hused c).mpr (.inl hc)
    · exact (hused c).mpr (.inr (h.marked hs))
  · intro s t c hs ht
    rcases hget hs with ⟨hso, rfl⟩ | ⟨-, hfs⟩
    · rcases hget ht with ⟨hto, -⟩ | ⟨-, hft⟩
      · exact hso.trans hto.symm
      · exact absurd hft hapart
    · rcases hget ht with ⟨-, rfl⟩ | ⟨-, hft⟩
      · exact absurd hfs hapart
      · exact h.apart hfs hft

theorem NoLeak.assign (h : NoLeak f used) (hempty : f o = none)
    (hused : ∀ c, used' c ↔ c = b ∨ used c) : NoLeak (Function.update f o (some b)) used' := by
  intro c hc
  rcases (hused c).mp hc with rfl | hc
  · exact ⟨o, Function.update_self ..⟩
  · obtain ⟨s, hs⟩ := h c hc
    have hso : s ≠ o := by
      rintro rfl
      rw [hempty] at hs
      cases hs
    exact ⟨s, by rw [Function.update_of_ne hso]; exact hs⟩

end Assign

/-- **Releasing** the slots of `S` and what they refer to. -/
theorem Owns.release {S : σ → Prop} (h : Owns f used)
    (hf : ∀ s b, f' s = some b ↔ ¬ S s ∧ f s = some b)
    (hused : ∀ b, used' b ↔ used b ∧ ∀ s, S s → f s ≠ some b) : Owns f' used' where
  marked {s b} hs := by
    obtain ⟨hS, hs⟩ := (hf s b).mp hs
    refine (hused b).mpr ⟨h.marked hs, fun t ht hft => hS ?_⟩
    rw [h.apart hs hft]
    exact ht
  apart {s t b} hs ht := h.apart ((hf s b).mp hs).2 ((hf t b).mp ht).2

theorem NoLeak.release {S : σ → Prop} (h : NoLeak f used)
    (hf : ∀ s b, f' s = some b ↔ ¬ S s ∧ f s = some b)
    (hused : ∀ b, used' b ↔ used b ∧ ∀ s, S s → f s ≠ some b) : NoLeak f' used' := by
  intro b hb
  obtain ⟨hb, hS⟩ := (hused b).mp hb
  obtain ⟨s, hs⟩ := h b hb
  exact ⟨s, (hf s b).mpr ⟨fun hSs => hS s hSs hs, hs⟩⟩

end OsCodes
