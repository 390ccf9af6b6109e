import UseGraph.Crosslink

/-!
# The circle of leaves

Leaves stand on a circle, every level sorted by display name. A resolved link
is drawn along the hierarchy, through the lowest common ancestor of its ends.
-/

set_option autoImplicit false

namespace UseGraph

structure Radial where
  graph : Crosslinked

namespace Radial

structure Highlight where
  leaf : Nat
  incoming : List Crosslink
  outgoing : List Crosslink
  sources : List Nat
  targets : List Nat
  deriving DecidableEq, Repr

structure Label where
  name : String
  fullName : String
  displayName : String
  size : Option UInt32
  outgoing : List (Option String)
  incoming : List String

structure Bundle where
  source : String
  target : String
  route : List String

structure Drawing where
  tree : Outline Label
  bundles : List Bundle

def ofHierarchy (t : Hierarchy Uses) : Radial := ⟨Crosslinked.ofHierarchy t⟩

def ofDocument (n : Naming) (d : Document) : Radial :=
  ofHierarchy (Hierarchy.ofUsableRecords (Record.uses n d) n.delimiter n.root)

def tree (v : Radial) : Hierarchy Uses := v.graph.tree

def displayLe (t : Hierarchy Uses) (a b : Nat) : Bool := t.displayName a ≤ t.displayName b

def leaves (v : Radial) : List Nat :=
  (v.tree.preorder (displayLe v.tree)).filter v.tree.isLeaf

def highlight (v : Radial) (id : Nat) : Highlight :=
  { leaf := id
    incoming := v.graph.incoming id
    outgoing := v.graph.outgoing id
    sources := (v.graph.incoming id).map Crosslink.source
    targets := (v.graph.outgoing id).filterMap Crosslink.target }

def title (v : Radial) (id : Nat) : String :=
  v.tree.fullPath id
    ++ "\n" ++ (v.graph.outgoing id).length.repr ++ " outgoing"
    ++ "\n" ++ (v.graph.incoming id).length.repr ++ " incoming"

def route? (v : Radial) (l : Crosslink) : Option (List Nat) :=
  l.target.map (v.tree.route l.source)

def bundle? (v : Radial) (l : Crosslink) : Option Bundle := do
  let route ← v.route? l
  return ⟨v.tree.name l.source, v.tree.name (← l.target), route.map v.tree.name⟩

theorem bundle?_eq_map (v : Radial) (l : Crosslink) : v.bundle? l = l.target.map fun target =>
    ⟨v.tree.name l.source, v.tree.name target,
      (v.tree.route l.source target).map v.tree.name⟩ := by
  rw [bundle?, route?]
  cases l.target <;> rfl

def label (v : Radial) (id : Nat) : Label :=
  { name := v.tree.segment id
    fullName := v.tree.name id
    displayName := v.tree.displayName id
    size := (v.tree.payload? id).map Uses.size
    outgoing := (v.graph.outgoing id).map fun l => l.target.map v.tree.name
    incoming := (v.graph.incoming id).map fun l => v.tree.name l.source }

def drawing (v : Radial) : Drawing :=
  { tree := (v.tree.outline (displayLe v.tree)).map v.label
    bundles := v.graph.links.filterMap v.bundle? }

end Radial

end UseGraph
