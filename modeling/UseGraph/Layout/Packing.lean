import UseGraph.Hierarchy.Traversal

/-!
# Nested circles

Every entry is a circle as large as its own weight and the weights of all
entries below it; a segment that stands for no record weighs one, a bare root
nothing. Values are settled level by level from below, so that children are
complete before their parents. One container has the focus, and the circles
right inside it show their labels. Element ids are numbered within a session,
so a drawn name may repeat or look like another id and the ids still differ.
-/

set_option autoImplicit false

namespace UseGraph

structure ElementIds where
  issued : Nat

namespace ElementIds

def fresh : ElementIds := ⟨0⟩

def next (s : ElementIds) (name : Option String) : String × ElementIds :=
  let n := s.issued + 1
  match name with
  | some name => ("O-" ++ name ++ "-" ++ n.repr, ⟨n⟩)
  | none => ("O-" ++ n.repr, ⟨n⟩)

end ElementIds

structure Packing where
  tree : Hierarchy UInt32
  values : Array Nat

namespace Packing

def ownWeight (t : Hierarchy UInt32) (id : Nat) : Nat :=
  match t.payload? id with
  | some w => w.toNat
  | none => if (t.parent? id).isSome then 1 else 0

def valueAt (values : Array Nat) (id : Nat) : Nat := values[id]?.getD 0

def settle (t : Hierarchy UInt32) (values : Array Nat) (id : Nat) : Array Nat :=
  let values := values.modify id (· + ownWeight t id)
  match t.parent? id with
  | some p => values.modify p (· + valueAt values id)
  | none => values

def ofHierarchy (t : Hierarchy UInt32) : Packing :=
  ⟨t, t.descendants.reverse.foldl (settle t) (Array.replicate t.size 0)⟩

def ofDocument (n : Naming) (d : Document) : Packing :=
  ofHierarchy (Hierarchy.ofUsableRecords (Record.weights n d) n.delimiter n.root)

def value (v : Packing) (id : Nat) : Nat := valueAt v.values id

def heavierFirst (v : Packing) (a b : Nat) : Bool := v.value b ≤ v.value a

def children (v : Packing) (id : Nat) : List Nat := v.tree.sortedChildren v.heavierFirst id

def circles (v : Packing) : List Nat := v.tree.descendants.drop 1

structure Focus where
  root : Nat
  current : Nat
  deriving DecidableEq, Repr

namespace Focus

def zoom (f : Focus) (id : Nat) : Bool × Focus :=
  if f.current = id then (false, f) else (true, { f with current := id })

def reset (f : Focus) : Bool × Focus := f.zoom f.root

end Focus

def focus (v : Packing) : Focus := ⟨v.tree.root, v.tree.root⟩

def labelVisible (v : Packing) (f : Focus) (id : Nat) : Bool :=
  v.tree.parent? id == some f.current

structure Circle where
  uid : String
  name : String
  value : Nat

def circle (v : Packing) (ids : ElementIds) (id : Nat) : Circle × ElementIds :=
  let (uid, ids) := ids.next (some (v.tree.segment id))
  (⟨uid, v.tree.segment id, v.value id⟩, ids)

def drawing (v : Packing) (ids : ElementIds) : Outline Circle × ElementIds :=
  (v.tree.outline v.heavierFirst).relabel v.circle ids

end Packing

end UseGraph
