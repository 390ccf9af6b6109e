import UseGraph.Path
import UseGraph.Record

/-!
# Growing a forest from names

Entries refer to each other by their index. An entry is added after its
parent, so indices rise from parent to child, and the last child comes last in
its parent's list. A name whose last cut differs from its first may start a
tree of its own, which is why this is a forest.
-/

set_option autoImplicit false

namespace UseGraph

inductive Content (α : Type) where
  | leaf (payload : α)
  | container (children : List Nat) (payload : Option α)

namespace Content

variable {α : Type}

def isLeaf : Content α → Bool
  | .leaf _ => true
  | .container _ _ => false

def children : Content α → List Nat
  | .leaf _ => []
  | .container cs _ => cs

def payload? : Content α → Option α
  | .leaf a => some a
  | .container _ a => a

def promote : Content α → Content α
  | .leaf a => .container [] (some a)
  | c => c

def addChild (id : Nat) : Content α → Content α
  | .leaf a => .leaf a
  | .container cs a => .container (cs ++ [id]) a

def fold (a : α) : Content α → Content α
  | .leaf b => .leaf b
  | .container cs _ => .container cs (some a)

end Content

structure Entry (α : Type) where
  name : String
  segment : String
  parent : Option Nat
  content : Content α

namespace Entry

variable {α : Type}

def update (f : Content α → Content α) (e : Entry α) : Entry α :=
  { e with content := f e.content }

end Entry

abbrev Forest (α : Type) := Array (Entry α)

namespace Forest

variable {α : Type}

def find? (f : Forest α) (name : String) : Option Nat :=
  f.findIdx? fun e => e.name == name

def update (f : Forest α) (id : Nat) (g : Content α → Content α) : Forest α :=
  f.modify id (Entry.update g)

def attach (d : String) (f : Forest α) (name : String) (parent : Option Nat)
    (content : Content α) : Forest α :=
  let f' :=
    match parent with
    | some p => f.update p (Content.addChild f.size)
    | none => f
  f'.push ⟨name, Path.segment d name, parent, content⟩

def ensure (d : String) (f : Forest α) : List String → Forest α × Option Nat
  | [] => (f, none)
  | name :: up =>
    match f.find? name with
    | some id => (f.update id Content.promote, some id)
    | none =>
      let (g, parent) := ensure d f up
      (g.attach d name parent (.container [] none), some g.size)

def insert (d : String) (f : Forest α) (r : Record α) : Forest α :=
  match f.find? r.name with
  | some id => f.update id (Content.fold r.payload)
  | none =>
    match f.ensure d (Path.ancestors d r.name) with
    | (g, none) => g.attach d r.name none (.container [] (some r.payload))
    | (g, some p) => g.attach d r.name (some p) (.leaf r.payload)

def ofRecords (d : String) (rs : List (Record α)) : Forest α := rs.foldl (insert d) #[]

end Forest

end UseGraph
