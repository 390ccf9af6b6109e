import UseGraph.Hierarchy.Traversal

/-!
# Links across a hierarchy

Every entry with a payload uses others by full name. Names are resolved once,
against the entries with a payload only, and each resolved link is entered at
both of its ends.
-/

set_option autoImplicit false

namespace UseGraph

structure Crosslink where
  source : Nat
  target : Option Nat
  deriving DecidableEq, Repr

structure Adjacency where
  incoming : List Crosslink
  outgoing : List Crosslink
  deriving DecidableEq, Repr

structure Crosslinked where
  tree : Hierarchy Uses
  adjacency : Array Adjacency

namespace Crosslinked

def imports (t : Hierarchy Uses) (id : Nat) : List String :=
  ((t.payload? id).map Uses.imports).getD []

def directory (t : Hierarchy Uses) : List (String × Nat) :=
  t.records.map fun id => (t.fullPath id, id)

def linksFrom (t : Hierarchy Uses) (dir : List (String × Nat)) (id : Nat) : List Crosslink :=
  (imports t id).map fun name => ⟨id, dir.lookup name⟩

def declare (table : Array Adjacency) (id : Nat) (links : List Crosslink) : Array Adjacency :=
  table.modify id fun a => { a with outgoing := links }

def receive (table : Array Adjacency) (l : Crosslink) : Array Adjacency :=
  match l.target with
  | some t => table.modify t fun a => { a with incoming := a.incoming ++ [l] }
  | none => table

def outgoingAt (table : Array Adjacency) (id : Nat) : List Crosslink :=
  (table[id]?.map Adjacency.outgoing).getD []

def incomingAt (table : Array Adjacency) (id : Nat) : List Crosslink :=
  (table[id]?.map Adjacency.incoming).getD []

def ofHierarchy (t : Hierarchy Uses) : Crosslinked :=
  let dir := directory t
  let declared := t.records.foldl (fun table id => declare table id (linksFrom t dir id))
    (Array.replicate t.size ⟨[], []⟩)
  let links := t.records.flatMap (outgoingAt declared)
  ⟨t, links.foldl receive declared⟩

def outgoing (g : Crosslinked) (id : Nat) : List Crosslink := outgoingAt g.adjacency id

def incoming (g : Crosslinked) (id : Nat) : List Crosslink := incomingAt g.adjacency id

def links (g : Crosslinked) : List Crosslink := g.tree.records.flatMap g.outgoing

def unresolved (g : Crosslinked) : Nat :=
  (g.adjacency.toList.flatMap Adjacency.outgoing).countP fun l => l.target.isNone

end Crosslinked

end UseGraph
