import UseGraph.Proofs.Accounts
import UseGraph.Proofs.Likeness

/-!
# One tree under both drawings

Uses and weights are recorded for the same ids and grown apart. What is grown
does not depend on what is recorded, so both drawings stand on the same tree,
entry by entry. No delimiter and no root is an exception: where one drawing
has nothing but a root, so has the other.
-/

set_option autoImplicit false

namespace UseGraph

variable {α β : Type}

namespace Hierarchy

structure Congruent (t : Hierarchy α) (u : Hierarchy β) : Prop where
  size : t.size = u.size
  root : t.root = u.root
  delimiter : t.delimiter = u.delimiter
  name : ∀ x, t.name x = u.name x
  segment : ∀ x, t.segment x = u.segment x
  parent : ∀ x, t.parent? x = u.parent? x
  children : ∀ x, t.children x = u.children x
  isLeaf : ∀ x, t.isLeaf x = u.isLeaf x
  payload : ∀ x, (t.payload? x).isSome = (u.payload? x).isSome
  lookup : ∀ s, t.lookup s = u.lookup s
  kind : ∀ s, (t.lookup s).map t.isLeaf = (u.lookup s).map u.isLeaf

theorem Alike.congruent {R : α → β → Prop} {t : Hierarchy α} {u : Hierarchy β}
    (h : t.Alike R u) : Congruent t u where
  size := h.size_eq
  root := h.root
  delimiter := h.delimiter
  name := congrFun h.name_eq
  segment := congrFun h.segment_eq
  parent := congrFun h.parent?_eq
  children := congrFun h.children_eq
  isLeaf := congrFun h.isLeaf_eq
  payload x := isSome_eq_of_rel (h.payload x)
  lookup s := h.forest.find?_eq s
  kind s := by rw [lookup, h.forest.find?_eq, h.isLeaf_eq, lookup]

end Hierarchy

/-- Records with the same names are alike when nothing is asked of payloads. -/
theorem Record.alike_of_names {rs : List (Record α)} {qs : List (Record β)}
    (h : rs.map Record.name = qs.map Record.name) :
    List.Forall₂ (Record.Alike fun _ _ => True) rs qs := by
  rw [← List.forall₂_eq_eq_eq, List.forall₂_map_left_iff, List.forall₂_map_right_iff] at h
  exact h.imp fun _ _ he => ⟨he, trivial⟩

/-- Under any naming, the circle of leaves and the nested circles of a
document stand on one tree. -/
theorem ofDocument_congruent (n : Naming) (d : Document) :
    Hierarchy.Congruent (Radial.ofDocument n d).tree (Packing.ofDocument n d).tree := by
  have hrecords := Record.alike_of_names (Record.weights_names n d).symm
  exact (Hierarchy.ofUsableRecords_alike hrecords n.delimiter n.root).congruent

end UseGraph
