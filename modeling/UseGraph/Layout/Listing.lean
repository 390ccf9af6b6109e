import UseGraph.Decimal.Shortest
import UseGraph.Document

/-!
# The list with arcs

Nodes stand one per row and links are arcs between rows. An id leads to the
last row that has it; a link with an end that no row has is left out, and a
row may be linked to itself. Each row keeps the numbers of the arcs that leave
it and of those that arrive. The neighbourhood of a row is the row and those
that an arc joins it to, in either direction, in increasing order.
-/

set_option autoImplicit false

namespace UseGraph

section

variable {α : Type} [LT α] [DecidableLT α] [DecidableEq α]

def insertOnce (x : α) : List α → List α
  | [] => [x]
  | y :: r =>
    if x < y then x :: y :: r
    else if x = y then y :: r
    else y :: insertOnce x r

def neighbourhood (x : α) (edges : List (α × α)) : List α :=
  edges.foldl
    (fun near (a, b) =>
      if a = x then insertOnce b near
      else if b = x then insertOnce a near
      else near)
    [x]

end

inductive SortOrder where
  | group
  | name
  | frequency
  deriving DecidableEq, Repr

namespace SortOrder

def read : String → Except Fault SortOrder
  | "Group" => .ok .group
  | "Name" => .ok .name
  | "Frequency" => .ok .frequency
  | other => .error (.unknownSortOrder other)

end SortOrder

namespace Listing

structure Row where
  id : String
  group : UInt32
  outgoing : List Nat
  incoming : List Nat

structure Arc where
  source : Nat
  target : Nat
  value : Float

structure Highlight where
  primary : Nat
  secondary : List Nat
  arcs : List Nat
  deriving DecidableEq, Repr

structure Summary where
  id : String
  usedBy : List String
  uses : List String
  deriving DecidableEq, Repr

structure Label where
  summary : Summary
  group : UInt32
  frequency : Float

structure Curve where
  source : String
  target : String
  value : Float

structure Drawing where
  rows : List Label
  curves : List Curve
  group : List String
  name : List String
  frequency : List String

end Listing

structure Listing where
  rows : Array Listing.Row
  arcs : Array Listing.Arc

namespace Listing

def lastIndexOf (x : String) : List String → Option Nat
  | [] => none
  | y :: r =>
    match lastIndexOf x r with
    | some i => some (i + 1)
    | none => if y = x then some 0 else none

def ids (v : Listing) : List String := v.rows.toList.map Row.id

def position? (v : Listing) (id : String) : Option Nat := lastIndexOf id v.ids

def addArc (v : Listing) (a : Arc) : Listing :=
  let n := v.arcs.size
  let rows := v.rows.modify a.source fun r => { r with outgoing := r.outgoing ++ [n] }
  { rows := rows.modify a.target fun r => { r with incoming := r.incoming ++ [n] }
    arcs := v.arcs.push a }

def directory (d : Document) : List (String × Nat) :=
  (d.nodes.map Document.Node.id).zipIdx.reverse

def addLink (dir : List (String × Nat)) (v : Listing) (l : Document.Link) : Listing :=
  match dir.lookup l.source, dir.lookup l.target with
  | some s, some t => v.addArc ⟨s, t, l.value⟩
  | _, _ => v

def ofDocument (d : Document) : Listing :=
  d.links.foldl (addLink (directory d))
    ⟨(d.nodes.map fun n => ⟨n.id, n.group, [], []⟩).toArray, #[]⟩

def idAt (v : Listing) (i : Nat) : String := (v.rows[i]?.map Row.id).getD ""

def groupAt (v : Listing) (i : Nat) : UInt32 := (v.rows[i]?.map Row.group).getD 0

def outgoingAt (v : Listing) (i : Nat) : List Nat := (v.rows[i]?.map Row.outgoing).getD []

def incomingAt (v : Listing) (i : Nat) : List Nat := (v.rows[i]?.map Row.incoming).getD []

def frequency (v : Listing) (i : Nat) : Float :=
  (v.outgoingAt i ++ v.incomingAt i).foldl
    (fun sum a => sum + (v.arcs[a]?.map Arc.value).getD (-0.0)) (-0.0)

def idLe (v : Listing) (i j : Nat) : Bool := v.idAt i ≤ v.idAt j

def before (v : Listing) : SortOrder → Nat → Nat → Bool
  | .name, i, j => v.idLe i j
  | .group, i, j =>
    v.groupAt i < v.groupAt j || v.groupAt i == v.groupAt j && v.idLe i j
  | .frequency, i, j =>
    let a := Decimal.Binary64.rank (v.frequency i)
    let b := Decimal.Binary64.rank (v.frequency j)
    b < a || a == b && v.idLe i j

def order (v : Listing) (o : SortOrder) : List Nat :=
  (List.range v.rows.size).mergeSort (v.before o)

def orderedIds (v : Listing) (o : SortOrder) : List String := (v.order o).map v.idAt

def ends (v : Listing) : List (Nat × Nat) :=
  v.arcs.toList.map fun a => (a.source, a.target)

def highlight (v : Listing) (i : Nat) : Highlight :=
  let near := neighbourhood i v.ends
  { primary := i
    secondary := if v.ends.contains (i, i) then near else near.filter (· != i)
    arcs := (List.range v.arcs.size).filter fun a =>
      (v.arcs[a]?.map fun a => a.source == i || a.target == i).getD false }

def summary (v : Listing) (i : Nat) : Summary :=
  { id := v.idAt i
    usedBy := (v.incomingAt i).map fun a => ((v.arcs[a]?.map Arc.source).map v.idAt).getD ""
    uses := (v.outgoingAt i).map fun a => ((v.arcs[a]?.map Arc.target).map v.idAt).getD "" }

def drawing (v : Listing) : Drawing :=
  { rows := (List.range v.rows.size).map fun i => ⟨v.summary i, v.groupAt i, v.frequency i⟩
    curves := v.arcs.toList.map fun a => ⟨v.idAt a.source, v.idAt a.target, a.value⟩
    group := v.orderedIds .group
    name := v.orderedIds .name
    frequency := v.orderedIds .frequency }

end Listing

end UseGraph
