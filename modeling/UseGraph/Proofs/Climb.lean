import Mathlib.Logic.Relation

/-!
# Climbing along a partial step

Parents of names and parents of entries are both partial functions that make
some measure smaller. Whatever is climbed to from one start lies on one line,
so two things with the same parent are never above the same start.
-/

set_option autoImplicit false

namespace UseGraph

variable {α : Type}

def Climbs (up : α → Option α) : α → α → Prop :=
  Relation.ReflTransGen fun x y => up x = some y

namespace Climbs

variable {up : α → Option α} {x y z p : α}

theorem refl (x : α) : Climbs up x x := Relation.ReflTransGen.refl

theorem head (hx : up x = some p) (hp : Climbs up p y) : Climbs up x y :=
  Relation.ReflTransGen.head hx hp

theorem tail (hx : Climbs up x y) (hy : up y = some p) : Climbs up x p :=
  Relation.ReflTransGen.tail hx hy

theorem eq_or_step (h : Climbs up x y) : x = y ∨ ∃ p, up x = some p ∧ Climbs up p y := by
  rcases Relation.ReflTransGen.cases_head h with he | ⟨p, hx, hp⟩
  · exact Or.inl he
  · exact Or.inr ⟨p, hx, hp⟩

theorem eq_or_last (h : Climbs up x y) : x = y ∨ ∃ z, Climbs up x z ∧ up z = some y := by
  rcases Relation.ReflTransGen.cases_tail h with he | ⟨z, hz, hy⟩
  · exact Or.inl he.symm
  · exact Or.inr ⟨z, hz, hy⟩

theorem eq_of_top (h : Climbs up x y) (hx : up x = none) : x = y := by
  rcases h.eq_or_step with he | ⟨p, hp, -⟩
  · exact he
  · simp [hx] at hp

theorem top_iff (hx : up x = none) : Climbs up x y ↔ x = y :=
  ⟨fun h => h.eq_of_top hx, fun h => h ▸ refl x⟩

theorem step_iff (hx : up x = some p) : Climbs up x y ↔ x = y ∨ Climbs up p y := by
  constructor
  · intro h
    rcases h.eq_or_step with he | ⟨q, hq, hqy⟩
    · exact Or.inl he
    · rw [hx] at hq
      cases hq
      exact Or.inr hqy
  · rintro (rfl | hp)
    · exact refl x
    · exact head hx hp

theorem linear (hy : Climbs up x y) (hz : Climbs up x z) : Climbs up y z ∨ Climbs up z y := by
  refine Relation.ReflTransGen.total_of_right_unique ?_ hy hz
  intro a b c hb hc
  exact Option.some.inj (hb.symm.trans hc)

section Measured

variable {size : α → Nat} (hs : ∀ a b, up a = some b → size b < size a)
include hs

theorem size_le (h : Climbs up x y) : size y ≤ size x := by
  induction h with
  | refl => exact Nat.le_refl _
  | tail _ hab ih => exact Nat.le_trans (Nat.le_of_lt (hs _ _ hab)) ih

/-- Of two siblings only one is above any given start. -/
theorem sole (hy : Climbs up x y) (hz : Climbs up x z) (hyp : up y = some p)
    (hzp : up z = some p) : y = z := by
  have hpy := hs _ _ hyp
  have hpz := hs _ _ hzp
  rcases linear hy hz with h | h
  · rcases h.eq_or_step with he | ⟨q, hq, hqz⟩
    · exact he
    · have hle := size_le hs hqz
      rw [hyp] at hq
      cases hq
      omega
  · rcases h.eq_or_step with he | ⟨q, hq, hqy⟩
    · exact he.symm
    · have hle := size_le hs hqy
      rw [hzp] at hq
      cases hq
      omega

end Measured

end Climbs

end UseGraph
