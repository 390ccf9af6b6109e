import UseGraph.Hierarchy.Forest

/-!
# Hierarchies

A forest with one entry singled out as the root. The entries below the root
are the hierarchy proper; others can be looked up but are reached by no walk
from the root. A route goes up to the lowest common ancestor and down again,
and is empty between entries of different trees.

Records are checked in order before anything is grown, so what is accepted
does not hang on their order. The forgiving build drops the records that do
not fit under a given root and falls back to the root alone.
-/

set_option autoImplicit false

namespace UseGraph

structure Hierarchy (α : Type) where
  forest : Forest α
  root : Nat
  delimiter : String

namespace Hierarchy

variable {α : Type}

def size (t : Hierarchy α) : Nat := t.forest.size

def entry? (t : Hierarchy α) (id : Nat) : Option (Entry α) := t.forest[id]?

def lookup (t : Hierarchy α) (name : String) : Option Nat := t.forest.find? name

def name (t : Hierarchy α) (id : Nat) : String := ((t.entry? id).map Entry.name).getD ""

def segment (t : Hierarchy α) (id : Nat) : String :=
  ((t.entry? id).map Entry.segment).getD ""

def parent? (t : Hierarchy α) (id : Nat) : Option Nat := (t.entry? id).bind Entry.parent

def isLeaf (t : Hierarchy α) (id : Nat) : Bool :=
  ((t.entry? id).map fun e => e.content.isLeaf).getD false

def children (t : Hierarchy α) (id : Nat) : List Nat :=
  ((t.entry? id).map fun e => e.content.children).getD []

def payload? (t : Hierarchy α) (id : Nat) : Option α :=
  (t.entry? id).bind fun e => e.content.payload?

def displayName (t : Hierarchy α) (id : Nat) : String :=
  Path.belowFirst t.delimiter (t.name id)

def ascentFrom (t : Hierarchy α) : Nat → Nat → List Nat
  | 0, id => [id]
  | k + 1, id =>
    match t.parent? id with
    | none => [id]
    | some p => id :: ascentFrom t k p

def ascent (t : Hierarchy α) (id : Nat) : List Nat := t.ascentFrom t.size id

def fullPath (t : Hierarchy α) (id : Nat) : String :=
  t.delimiter.intercalate ((t.ascent id).reverse.map t.segment)

def route (t : Hierarchy α) (a b : Nat) : List Nat :=
  let up := t.ascent a
  let down := t.ascent b
  match down.find? fun id => up.contains id with
  | none => []
  | some turn =>
    up.takeWhile (· != turn) ++ turn :: (down.takeWhile (· != turn)).reverse

end Hierarchy

end UseGraph

namespace UseGraph.Hierarchy

variable {α : Type}

def inspect (d root : String) (seen : List String) (name : String) : Except Fault Unit :=
  if !Path.wellFormed d name then .error (.malformedName name)
  else if seen.contains name then .error (.duplicateRecord name)
  else if Path.first d name != root then .error (.multipleRoots root (Path.first d name))
  else .ok ()

def inspectAll (d root : String) : List String → List String → Except Fault Unit
  | _, [] => .ok ()
  | seen, name :: names =>
    match inspect d root seen name with
    | .error e => .error e
    | .ok () => inspectAll d root (name :: seen) names

def rootSegment (d : String) (names : List String) : Except Fault String :=
  if d.isEmpty then .error .emptyDelimiter
  else
    match names with
    | [] => .error .missingRoot
    | name :: _ =>
      match inspectAll d (Path.first d name) [] names with
      | .error e => .error e
      | .ok () => .ok (Path.first d name)

def ofRecords (rs : List (Record α)) (d : String) : Except Fault (Hierarchy α) :=
  match rootSegment d (rs.map Record.name) with
  | .error e => .error e
  | .ok root =>
    let forest := Forest.ofRecords d rs
    match forest.find? root with
    | none => .error .missingRoot
    | some id => .ok ⟨forest, id, d⟩

def lone (root d : String) : Hierarchy α :=
  ⟨Forest.attach d #[] root none (.container [] none), 0, d⟩

def usable (d root : String) : List String → List (Record α) → List (Record α)
  | _, [] => []
  | seen, r :: rs =>
    if Path.wellFormed d r.name && Path.first d r.name == root && !seen.contains r.name then
      r :: usable d root (r.name :: seen) rs
    else usable d root seen rs

def ofUsableRecords (rs : List (Record α)) (d root : String) : Hierarchy α :=
  if d.isEmpty then lone root d
  else
    match usable d root [] rs with
    | [] => lone root d
    | kept =>
      match ofRecords kept d with
      | .ok t => t
      | .error _ => lone root d

end UseGraph.Hierarchy
