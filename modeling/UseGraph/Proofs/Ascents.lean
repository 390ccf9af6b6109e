import UseGraph.Proofs.Walks

/-!
# The way up

Where parents come before their children no way up is cut short: it goes on
from an entry as it does from its parent, and holds the entries that are
climbed to. Its length is the depth of the entry it starts from.
-/

set_option autoImplicit false

namespace UseGraph.Hierarchy

variable {α : Type} {t : Hierarchy α} {id p x k : Nat}

def depth (t : Hierarchy α) (id : Nat) : Nat := (t.ascent id).length

def within (t : Hierarchy α) (id : Nat) : List Nat :=
  (List.range t.size).filter fun x => id ∈ t.ascent x

theorem within_nodup (t : Hierarchy α) (id : Nat) : (t.within id).Nodup :=
  List.nodup_range.filter _

theorem ascentFrom_of_top (hp : t.parent? id = none) (k : Nat) : t.ascentFrom k id = [id] := by
  cases k with
  | zero => rfl
  | succ k => simp [ascentFrom, hp]

theorem ascent_of_top (hp : t.parent? id = none) : t.ascent id = [id] :=
  ascentFrom_of_top hp t.size

namespace Shaped

variable (h : Shaped t)
include h

theorem ascentFrom_deep (m : Nat) (hk : id ≤ k) (hm : id ≤ m) :
    t.ascentFrom k id = t.ascentFrom m id := by
  induction k generalizing m id with
  | zero =>
    have hp : t.parent? id = none := by
      rw [Option.eq_none_iff_forall_ne_some]
      intro p hp
      have hlt := h.parent_lt id p hp
      omega
    rw [ascentFrom_of_top hp, ascentFrom_of_top hp]
  | succ k ih =>
    cases hp : t.parent? id with
    | none => rw [ascentFrom_of_top hp, ascentFrom_of_top hp]
    | some p =>
      have hlt := h.parent_lt id p hp
      cases m with
      | zero => omega
      | succ m =>
        simp only [ascentFrom, hp]
        rw [ih m (by omega) (by omega)]

theorem ascent_of_parent (hp : t.parent? id = some p) : t.ascent id = id :: t.ascent p := by
  have hid := parent?_lt_size t hp
  have hlt := h.parent_lt id p hp
  have hs : t.size = t.size - 1 + 1 := by omega
  rw [ascent, ascent, hs, ascentFrom, hp]
  simp only
  rw [h.ascentFrom_deep (t.size - 1 + 1) (by omega) (by omega)]

theorem depth_of_parent (hp : t.parent? id = some p) : t.depth id = t.depth p + 1 := by
  rw [depth, depth, h.ascent_of_parent hp, List.length_cons]

theorem mem_ascent_iff (id x : Nat) : x ∈ t.ascent id ↔ Climbs t.parent? id x := by
  induction id using Nat.strongRecOn with
  | ind id ih =>
    cases hp : t.parent? id with
    | none => rw [ascent_of_top hp, List.mem_singleton, Climbs.top_iff hp, eq_comm]
    | some p =>
      rw [h.ascent_of_parent hp, List.mem_cons, ih p (h.parent_lt id p hp), Climbs.step_iff hp,
        eq_comm]

theorem mem_within_iff (id x : Nat) : x ∈ t.within id ↔ x < t.size ∧ Climbs t.parent? x id := by
  rw [within, List.mem_filter, List.mem_range, decide_eq_true_eq, h.mem_ascent_iff]

end Shaped

end UseGraph.Hierarchy
