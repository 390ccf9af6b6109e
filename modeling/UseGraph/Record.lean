import UseGraph.Document

/-!
# Records of a document

Every node, and every source of a link to another id, gives one record. The
records are kept by id while the links are counted in, so a link needs no
node before it, and they come out in the order of their ids: a register has
its entries in strictly increasing order of their keys, by code points. A node
weighs one and every link from it one more; a source without a node weighs its
links alone.
-/

set_option autoImplicit false

namespace UseGraph

abbrev Register (α : Type) := List (String × α)

namespace Register

variable {α : Type}

def update (r : Register α) (key : String) (f : Option α → α) : Register α :=
  match r with
  | [] => [(key, f none)]
  | (k, a) :: r =>
    if key < k then (key, f none) :: (k, a) :: r
    else if key = k then (k, f (some a)) :: r
    else (k, a) :: update r key f

end Register

structure Record (α : Type) where
  name : String
  payload : α

structure Uses where
  imports : List String
  size : UInt32

namespace Record

variable {α : Type}

def ofRegister (n : Naming) (r : Register α) : List (Record α) :=
  r.map fun (id, a) => ⟨n.qualify id, a⟩

def usedLinks (d : Document) : List Document.Link := d.links.filter fun l => !l.isLoop

def placeUses (r : Register Uses) (v : Document.Node) : Register Uses :=
  r.update v.id fun _ => ⟨[], v.group⟩

def addUse (n : Naming) (r : Register Uses) (l : Document.Link) : Register Uses :=
  r.update l.source fun
    | some u => { u with imports := u.imports ++ [n.qualify l.target] }
    | none => ⟨[n.qualify l.target], 1⟩

def placeWeight (r : Register UInt32) (v : Document.Node) : Register UInt32 :=
  r.update v.id fun _ => 1

def addWeight (r : Register UInt32) (l : Document.Link) : Register UInt32 :=
  r.update l.source fun
    | some w => w + 1
    | none => 1

def usesOf (n : Naming) (d : Document) : Register Uses :=
  (usedLinks d).foldl (addUse n) (d.nodes.foldl placeUses [])

def weightsOf (d : Document) : Register UInt32 :=
  (usedLinks d).foldl addWeight (d.nodes.foldl placeWeight [])

def uses (n : Naming) (d : Document) : List (Record Uses) := ofRegister n (usesOf n d)

def weights (n : Naming) (d : Document) : List (Record UInt32) := ofRegister n (weightsOf d)

end Record

end UseGraph
