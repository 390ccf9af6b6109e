import UseGraph.Proofs.Guarded.Hierarchy
import UseGraph.Proofs.Settling

/-!
# Nested circles with every index checked

Values are kept in a table as long as the hierarchy. Settling changes it at an
entry and at the entry's parent, and what is drawn reads it at entries only.
-/

set_option autoImplicit false

namespace UseGraph

namespace Packing

open Hierarchy

structure Valued (v : Packing) : Prop where
  shaped : Shaped v.tree
  size : v.values.size = v.tree.size

theorem valued_ofHierarchy {t : Hierarchy UInt32} (h : Shaped t) : Valued (ofHierarchy t) where
  shaped := h
  size := by
    rw [values_eq]
    exact settled_size t t.descendants

theorem Valued.circles_lt {v : Packing} (h : Valued v) {id : Nat} (hid : id ∈ v.circles) :
    id < v.tree.size := h.shaped.descendants_lt (List.mem_of_mem_drop hid)

end Packing

namespace Guarded.Packing

open UseGraph.Hierarchy

def ownWeight (t : Hierarchy UInt32) (id : Nat) : Option Nat := do
  match ← payload? t id with
  | some w => return w.toNat
  | none => return if (← parent? t id).isSome then 1 else 0

def settle (t : Hierarchy UInt32) (values : Array Nat) (id : Nat) : Option (Array Nat) := do
  let own ← ownWeight t id
  let values ← modify values id (· + own)
  match ← parent? t id with
  | some p =>
    let value ← values[id]?
    modify values p (· + value)
  | none => return values

def ofHierarchy (t : Hierarchy UInt32) : Option Packing := do
  let ids ← descendants t
  return ⟨t, ← ids.reverse.foldlM (settle t) (Array.replicate t.size 0)⟩

def ofDocument (n : Naming) (d : Document) : Option Packing := do
  ofHierarchy (← ofUsableRecords (Record.weights n d) n.delimiter n.root)

section Definitions

variable (v : Packing)

def heavierFirst (a b : Nat) : Option Bool := do
  let heavier ← v.values[a]?
  let lighter ← v.values[b]?
  return lighter ≤ heavier

def circles : Option (List Nat) := do return (← descendants v.tree).drop 1

def labelVisible (f : Packing.Focus) (id : Nat) : Option Bool := do
  return (← parent? v.tree id) == some f.current

def visibleLabels (f : Packing.Focus) : Option (List String) := do
  (← filter (labelVisible v f) (← circles v)).mapM (segment v.tree)

def circle (ids : ElementIds) (id : Nat) : Option (Packing.Circle × ElementIds) := do
  let label ← segment v.tree id
  let (uid, ids) := ids.next (some label)
  return (⟨uid, label, ← v.values[id]?⟩, ids)

def drawing (ids : ElementIds) : Option (Outline Packing.Circle × ElementIds) := do
  relabel (circle v) ids (← outline v.tree (heavierFirst v))

end Definitions

section Build

variable {t : Hierarchy UInt32}

theorem ownWeight_eq {id : Nat} (hid : id < t.size) :
    ownWeight t id = some (UseGraph.Packing.ownWeight t id) := by
  rw [ownWeight, UseGraph.Packing.ownWeight, payload?_eq hid, parent?_eq hid]
  cases t.payload? id <;> rfl

theorem settle_eq (h : Shaped t) {values : Array Nat} (hsize : values.size = t.size) {id : Nat}
    (hid : id < t.size) : settle t values id = some (UseGraph.Packing.settle t values id) := by
  have hown := modify_eq (hsize ▸ hid) (· + UseGraph.Packing.ownWeight t id)
  simp only [settle, UseGraph.Packing.settle, ownWeight_eq hid, hown, parent?_eq hid,
    Option.bind_eq_bind, Option.bind_some]
  generalize hvalues : values.modify id (· + UseGraph.Packing.ownWeight t id) = values'
  have hsize' : values'.size = t.size := by rw [← hvalues, Array.size_modify, hsize]
  cases hp : t.parent? id with
  | none => rfl
  | some p =>
    have hvalue : values'[id]? = some (UseGraph.Packing.valueAt values' id) := by
      simp [UseGraph.Packing.valueAt, hsize', hid]
    simp only [hvalue, Option.bind_some]
    exact modify_eq (hsize' ▸ h.lt_of_parent hp) _

theorem ofHierarchy_eq (h : Shaped t) :
    ofHierarchy t = some (UseGraph.Packing.ofHierarchy t) := by
  have hrun : t.descendants.reverse.foldlM (settle t) (Array.replicate t.size 0) =
      some (UseGraph.Packing.ofHierarchy t).values := by
    apply foldlM_eq (P := fun values : Array Nat => values.size = t.size)
    · intro values hsize id hid
      rw [UseGraph.Packing.settle_size]
      exact ⟨settle_eq h hsize (h.descendants_lt (List.mem_reverse.1 hid)), hsize⟩
    · exact Array.size_replicate
  simp only [ofHierarchy, descendants_eq h, hrun, Option.bind_eq_bind, Option.bind_some]
  rfl

theorem ofDocument_eq (n : Naming) (d : Document) :
    ofDocument n d = some (UseGraph.Packing.ofDocument n d) := by
  have h : Shaped (Hierarchy.ofUsableRecords (Record.weights n d) n.delimiter n.root) :=
    (Made.forgiving _ _ _).shaped
  rw [ofDocument, ofUsableRecords_eq]
  exact ofHierarchy_eq h

end Build

section Reads

variable {v : Packing} (h : v.Valued)
include h

theorem value_eq {id : Nat} (hid : id < v.tree.size) : v.values[id]? = some (v.value id) := by
  simp [UseGraph.Packing.value, UseGraph.Packing.valueAt, h.size, hid]

theorem heavierFirst_eq (a b : Nat) (ha : a < v.tree.size) (hb : b < v.tree.size) :
    heavierFirst v a b = some (v.heavierFirst a b) := by
  simp [heavierFirst, value_eq h ha, value_eq h hb, UseGraph.Packing.heavierFirst]

theorem visibleLabels_eq (f : Packing.Focus) : visibleLabels v f =
    some ((v.circles.filter (v.labelVisible f)).map v.tree.segment) := by
  have hcircles : circles v = some v.circles := by
    rw [circles, descendants_eq h.shaped]
    rfl
  have hvisible : filter (labelVisible v f) v.circles =
      some (v.circles.filter (v.labelVisible f)) := by
    apply filter_eq
    intro id hid
    simp [labelVisible, parent?_eq (h.circles_lt hid), UseGraph.Packing.labelVisible]
  simp only [visibleLabels, hcircles, hvisible, Option.bind_eq_bind, Option.bind_some]
  apply mapM_eq
  intro id hid
  exact segment_eq (h.circles_lt (List.mem_filter.1 hid).1)

theorem drawing_eq (ids : ElementIds) : drawing v ids = some (v.drawing ids) := by
  rw [drawing, outline_eq h.shaped (heavierFirst_eq h)]
  apply relabel_eq
  intro id hid ids
  rw [labels_outline h.shaped] at hid
  have hlt := h.shaped.preorder_lt _ hid
  simp [circle, segment_eq hlt, value_eq h hlt, UseGraph.Packing.circle]

end Reads

end Guarded.Packing

end UseGraph
