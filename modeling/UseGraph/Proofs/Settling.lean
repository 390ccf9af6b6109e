import Mathlib.Algebra.GroupWithZero.Nat
import Mathlib.Algebra.BigOperators.Group.List.Basic
import UseGraph.Layout.Packing
import UseGraph.Proofs.Forgiving
import UseGraph.Proofs.Orders

/-!
# Values of circles

Entries are settled from the last of a walk to the first. Since parents are
visited before their children, an entry is settled after everything that it
gets a value from, and not touched again except by its own children. So its
value is its own weight and the values of its children, which is the weight of
everything below it, and what no walk meets keeps the value it began with.
-/

set_option autoImplicit false

namespace UseGraph.Packing

open Hierarchy

variable {t : Hierarchy UInt32} {values : Array Nat} {ids : List Nat} {id x : Nat}

theorem valueAt_modify (values : Array Nat) (i x : Nat) (f : Nat → Nat) (hi : i < values.size) :
    valueAt (values.modify i f) x = if i = x then f (valueAt values x) else valueAt values x := by
  rw [valueAt, valueAt, Array.getElem?_modify]
  split
  · rename_i hx
    simp [← hx, hi]
  · rfl

theorem settle_size (t : Hierarchy UInt32) (values : Array Nat) (id : Nat) :
    (settle t values id).size = values.size := by
  unfold settle
  split <;> simp

/-- An entry gets its own weight, and its parent what the entry has then. -/
theorem valueAt_settle (h : Shaped t) (hsize : values.size = t.size) (hid : id < t.size)
    (x : Nat) : valueAt (settle t values id) x =
      valueAt values x + (if x = id then ownWeight t id else 0) +
        (if t.parent? id = some x then valueAt values id + ownWeight t id else 0) := by
  unfold settle
  cases hp : t.parent? id with
  | none =>
    simp only [valueAt_modify values id x _ (hsize ▸ hid)]
    by_cases hx : x = id <;> simp [hx, eq_comm (a := id)]
  | some p =>
    have hlt := h.parent_lt id p hp
    have hpl : p < (values.modify id (· + ownWeight t id)).size := by
      rw [Array.size_modify]
      omega
    simp only [valueAt_modify _ p x _ hpl, valueAt_modify values id _ _ (hsize ▸ hid)]
    by_cases hx : x = id
    · have hpx : p ≠ id := by omega
      simp [hx, hpx]
    · by_cases hpx : p = x <;> simp [hx, hpx, Ne.symm hx]

def settled (t : Hierarchy UInt32) (ids : List Nat) : Array Nat :=
  ids.foldr (fun id values => settle t values id) (Array.replicate t.size 0)

theorem values_eq (t : Hierarchy UInt32) : (ofHierarchy t).values = settled t t.descendants := by
  rw [ofHierarchy, List.foldl_reverse]
  rfl

theorem settled_size (t : Hierarchy UInt32) (ids : List Nat) :
    (settled t ids).size = t.size := by
  induction ids with
  | nil => simp [settled]
  | cons id ids ih => rw [settled, List.foldr_cons, settle_size, ← settled, ih]

theorem valueAt_settled_cons (h : Shaped t) (hid : id < t.size) (ids : List Nat) (x : Nat) :
    valueAt (settled t (id :: ids)) x =
      valueAt (settled t ids) x + (if x = id then ownWeight t id else 0) +
        (if t.parent? id = some x then valueAt (settled t ids) id + ownWeight t id else 0) :=
  valueAt_settle h (settled_size t ids) hid x

structure Descending (t : Hierarchy UInt32) (ids : List Nat) : Prop where
  lt : ∀ id ∈ ids, id < t.size
  nodup : ids.Nodup
  parents_first : ids.Pairwise fun a b => t.parent? a ≠ some b

theorem Descending.tail (h : Descending t (id :: ids)) : Descending t ids :=
  ⟨(List.forall_mem_cons.1 h.lt).2, (List.nodup_cons.1 h.nodup).2,
    (List.pairwise_cons.1 h.parents_first).2⟩

theorem descending_descendants (h : Shaped t) : Descending t t.descendants := by
  refine ⟨?_, descendants_nodup h, ?_⟩
  · intro id hid
    exact lt_size_of_climbs ((mem_descendants_iff h id).1 hid) h.root
  · refine h.descendants_levels.imp ?_
    intro a b hab hp
    have hdepth := h.depth_of_parent hp
    omega

/-- Settling an entry leaves those alone that were settled before it. -/
theorem valueAt_settled_tail (h : Shaped t) (hids : Descending t (id :: ids)) (hx : x ∈ ids) :
    valueAt (settled t (id :: ids)) x = valueAt (settled t ids) x := by
  have hne : x ≠ id := fun he => (List.nodup_cons.1 hids.nodup).1 (he ▸ hx)
  have hpx := (List.pairwise_cons.1 hids.parents_first).1 x hx
  rw [valueAt_settled_cons h (hids.lt id List.mem_cons_self), if_neg hne, if_neg hpx]
  rfl

/-- What an entry has so far: its own weight once it is settled, and the
values of those of its children that are. -/
theorem valueAt_settled (h : Shaped t) (hids : Descending t ids) (x : Nat) :
    valueAt (settled t ids) x = (if x ∈ ids then ownWeight t x else 0) +
      ((ids.filter fun c => t.parent? c = some x).map (valueAt (settled t ids))).sum := by
  induction ids with
  | nil =>
    simp only [settled, List.foldr_nil, valueAt, Array.getElem?_replicate]
    split <;> simp
  | cons id ids ih =>
    have hid := hids.lt id List.mem_cons_self
    have hnot := (List.nodup_cons.1 hids.nodup).1
    have hsame : (ids.filter fun c => t.parent? c = some x).map (valueAt (settled t (id :: ids))) =
        (ids.filter fun c => t.parent? c = some x).map (valueAt (settled t ids)) := by
      apply List.map_congr_left
      intro c hc
      exact valueAt_settled_tail h hids (List.mem_filter.1 hc).1
    have hself : t.parent? id ≠ some id := by
      intro hp
      exact Nat.lt_irrefl id (h.parent_lt id id hp)
    have hdone : valueAt (settled t (id :: ids)) id =
        valueAt (settled t ids) id + ownWeight t id := by
      rw [valueAt_settled_cons h hid, if_pos rfl, if_neg hself]
      rfl
    rw [valueAt_settled_cons h hid]
    by_cases hp : t.parent? id = some x
    · have hx : x ≠ id := fun he => hself (he ▸ hp)
      rw [List.filter_cons_of_pos (by simpa using hp), List.map_cons, List.sum_cons, hsame, hdone,
        ih hids.tail]
      simp only [hx, hp, List.mem_cons, false_or, if_false, if_true]
      omega
    · rw [List.filter_cons_of_neg (by simpa using hp), hsame, ih hids.tail, if_neg hp]
      by_cases hx : x = id
      · simp only [hx, hnot, List.mem_cons, true_or, if_false, if_true]
        omega
      · simp [hx]

theorem settled_grows (h : Shaped t) (hid : id < t.size) (ids : List Nat) (x : Nat) :
    valueAt (settled t ids) x ≤ valueAt (settled t (id :: ids)) x := by
  rw [valueAt_settled_cons h hid]
  omega

theorem value_eq (t : Hierarchy UInt32) (x : Nat) :
    (ofHierarchy t).value x = valueAt (settled t t.descendants) x := by
  rw [value, values_eq]

theorem value_eq_children (h : Shaped t) (hx : Climbs t.parent? x t.root) :
    (ofHierarchy t).value x =
      ownWeight t x + ((t.children x).map (ofHierarchy t).value).sum := by
  have hkids : (t.descendants.filter fun c => t.parent? c = some x).Perm (t.children x) := by
    rw [List.perm_ext_iff_of_nodup ((descendants_nodup h).filter _) (h.nodup x)]
    intro c
    rw [List.mem_filter, decide_eq_true_eq, h.mem_children, mem_descendants_iff h,
      and_iff_right_of_imp fun hc => Climbs.head hc hx]
  have hval : (ofHierarchy t).value = valueAt (settled t t.descendants) :=
    funext (value_eq t)
  rw [hval, valueAt_settled h (descending_descendants h), if_pos ((mem_descendants_iff h x).2 hx),
    (hkids.map _).sum_eq]

/-- Whatever passes its value on is reached, and so is what it passes it to. -/
theorem value_unreached (h : Shaped t) (htop : t.parent? t.root = none)
    (hx : ¬ Climbs t.parent? x t.root) : (ofHierarchy t).value x = 0 := by
  have hkids : (t.descendants.filter fun c => t.parent? c = some x) = [] := by
    rw [List.filter_eq_nil_iff]
    intro c hc hp
    rw [decide_eq_true_eq] at hp
    rcases ((mem_descendants_iff h c).1 hc).eq_or_step with rfl | ⟨q, hq, hroot⟩
    · rw [htop] at hp
      cases hp
    · rw [hp] at hq
      cases hq
      exact hx hroot
  rw [value_eq, valueAt_settled h (descending_descendants h), hkids,
    if_neg fun hm => hx ((mem_descendants_iff h x).1 hm)]
  rfl

theorem value_eq_subtree (h : Shaped t) (hx : Climbs t.parent? x t.root) :
    (ofHierarchy t).value x = ((subtree t.children t.size x).map (ownWeight t)).sum := by
  induction hn : t.size - x using Nat.strongRecOn generalizing x with
  | ind n ih =>
    have hxl := lt_size_of_climbs hx h.root
    have hdesc := h.descends fun _ => List.Perm.refl _
    have hkids : (t.children x).map (ofHierarchy t).value =
        (t.children x).map fun c => ((subtree t.children t.size c).map (ownWeight t)).sum := by
      apply List.map_congr_left
      intro c hc
      obtain ⟨hlt, hcl⟩ := hdesc x c hc
      exact ih (t.size - c) (by omega) (Climbs.head ((h.mem_children c x).1 hc) hx) rfl
    rw [value_eq_children h hx, subtree_eq hdesc hxl, List.map_cons, List.sum_cons, hkids,
      List.map_flatMap, List.flatMap_def, List.sum_flatten, List.map_map]
    rfl

theorem value_eq_within (h : Shaped t) (hx : Climbs t.parent? x t.root) :
    (ofHierarchy t).value x = ((t.within x).map (ownWeight t)).sum := by
  rw [value_eq_subtree h hx]
  exact ((h.subtree_perm_within (lt_size_of_climbs hx h.root)).map _).sum_eq

end UseGraph.Packing
