import UseGraph.Layout.Radial
import UseGraph.Proofs.Conservation
import UseGraph.Proofs.Guarded.Hierarchy

/-!
# Links and the circle of leaves with every index checked

A link is kept at two entries of one table, and its ends are read in another,
the hierarchy. The tables are as long as each other and both ends are entries,
since a target is only ever found among them.
-/

set_option autoImplicit false

namespace UseGraph

def Crosslink.Within (n : Nat) (l : Crosslink) : Prop :=
  l.source < n ∧ ∀ x, l.target = some x → x < n

namespace Crosslinked

open Hierarchy

variable {t : Hierarchy Uses} {id : Nat}

theorem within_linksFrom (hid : id ∈ t.records) :
    ∀ l ∈ linksFrom t (directory t) id, l.Within t.size := by
  intro l hl
  obtain ⟨s, -, rfl⟩ := List.mem_map.1 hl
  exact ⟨lt_of_mem_records hid, fun x hx => lt_of_mem_records (mem_records_of_lookup hx)⟩

theorem within_links (t : Hierarchy Uses) : ∀ l ∈ (ofHierarchy t).links, l.Within t.size := by
  intro l hl
  rw [links_eq] at hl
  obtain ⟨id, hid, hl⟩ := List.mem_flatMap.1 hl
  exact within_linksFrom hid l hl

theorem links_declared (t : Hierarchy Uses) :
    t.records.flatMap (outgoingAt (declared t)) = (ofHierarchy t).links := by
  apply List.flatMap_congr
  intro id _
  exact (outgoing_declared t id).symm

structure Linked (g : Crosslinked) : Prop where
  shaped : Shaped g.tree
  size : g.adjacency.size = g.tree.size
  outgoing : ∀ id, ∀ l ∈ g.outgoing id, l.Within g.tree.size
  incoming : ∀ id, ∀ l ∈ g.incoming id, l.Within g.tree.size

theorem linked_ofHierarchy (h : Shaped t) : Linked (ofHierarchy t) where
  shaped := h
  size := adjacency_size t
  outgoing id l hl := by
    rw [outgoing_eq] at hl
    split at hl
    · rename_i hid
      exact within_linksFrom hid l hl
    · cases hl
  incoming id l hl := by
    rw [incoming_eq] at hl
    exact within_links t l (List.mem_filter.1 hl).1

theorem Linked.links {g : Crosslinked} (h : Linked g) : ∀ l ∈ g.links, l.Within g.tree.size := by
  intro l hl
  obtain ⟨id, -, hl⟩ := List.mem_flatMap.1 hl
  exact h.outgoing id l hl

end Crosslinked

namespace Guarded

namespace Crosslinked

open UseGraph.Hierarchy

def imports (t : Hierarchy Uses) (id : Nat) : Option (List String) := do
  return ((← payload? t id).map Uses.imports).getD []

def directory (t : Hierarchy Uses) : Option (List (String × Nat)) := do
  (← records t).mapM fun id => do return (← fullPath t id, id)

def linksFrom (t : Hierarchy Uses) (dir : List (String × Nat)) (id : Nat) :
    Option (List Crosslink) := do
  return (← imports t id).map fun name => ⟨id, dir.lookup name⟩

def declare (table : Array Adjacency) (id : Nat) (links : List Crosslink) :
    Option (Array Adjacency) :=
  modify table id fun a => { a with outgoing := links }

def receive (table : Array Adjacency) (l : Crosslink) : Option (Array Adjacency) :=
  match l.target with
  | some t => modify table t fun a => { a with incoming := a.incoming ++ [l] }
  | none => some table

def outgoingAt (table : Array Adjacency) (id : Nat) : Option (List Crosslink) :=
  table[id]?.map Adjacency.outgoing

def incomingAt (table : Array Adjacency) (id : Nat) : Option (List Crosslink) :=
  table[id]?.map Adjacency.incoming

def declared (t : Hierarchy Uses) : Option (Array Adjacency) := do
  let dir ← directory t
  (← records t).foldlM (fun table id => do declare table id (← linksFrom t dir id))
    (Array.replicate t.size ⟨[], []⟩)

def ofHierarchy (t : Hierarchy Uses) : Option Crosslinked := do
  let table ← declared t
  let links ← flatMap (outgoingAt table) (← records t)
  return ⟨t, ← links.foldlM receive table⟩

def outgoing (g : Crosslinked) (id : Nat) : Option (List Crosslink) := outgoingAt g.adjacency id

def incoming (g : Crosslinked) (id : Nat) : Option (List Crosslink) := incomingAt g.adjacency id

def links (g : Crosslinked) : Option (List Crosslink) := do
  flatMap (outgoing g) (← records g.tree)

section Tables

variable {table : Array Adjacency} {id : Nat} (hid : id < table.size)
include hid

theorem outgoingAt_eq : outgoingAt table id = some (UseGraph.Crosslinked.outgoingAt table id) := by
  simp [outgoingAt, UseGraph.Crosslinked.outgoingAt, hid]

theorem incomingAt_eq : incomingAt table id = some (UseGraph.Crosslinked.incomingAt table id) := by
  simp [incomingAt, UseGraph.Crosslinked.incomingAt, hid]

end Tables

theorem receive_eq {table : Array Adjacency} {l : Crosslink} (h : l.Within table.size) :
    receive table l = some (UseGraph.Crosslinked.receive table l) := by
  rw [receive, UseGraph.Crosslinked.receive]
  cases hx : l.target with
  | none => rfl
  | some x => exact modify_eq (h.2 x hx) _

section Build

variable {t : Hierarchy Uses} (h : Shaped t)

theorem received_eq {table : Array Adjacency} (hsize : table.size = t.size) :
    (UseGraph.Crosslinked.ofHierarchy t).links.foldlM receive table =
      some ((UseGraph.Crosslinked.ofHierarchy t).links.foldl UseGraph.Crosslinked.receive table) := by
  apply foldlM_eq (P := fun table : Array Adjacency => table.size = t.size) ?_ hsize
  intro table hsize l hl
  rw [UseGraph.Crosslinked.receive_size]
  exact ⟨receive_eq (hsize ▸ UseGraph.Crosslinked.within_links t l hl), hsize⟩

include h

theorem directory_eq : directory t = some (UseGraph.Crosslinked.directory t) := by
  rw [directory, records_eq h]
  apply mapM_eq
  intro id hid
  simp [fullPath_eq h (lt_of_mem_records hid)]

omit h in
theorem linksFrom_eq (dir : List (String × Nat)) {id : Nat} (hid : id < t.size) :
    linksFrom t dir id = some (UseGraph.Crosslinked.linksFrom t dir id) := by
  simp [linksFrom, imports, payload?_eq hid, UseGraph.Crosslinked.linksFrom,
    UseGraph.Crosslinked.imports]

theorem declared_eq : declared t = some (UseGraph.Crosslinked.declared t) := by
  simp only [declared, directory_eq h, records_eq h, Option.bind_eq_bind, Option.bind_some]
  apply foldlM_eq (P := fun table => table.size = t.size)
  · intro table hsize id hid
    have hlt := lt_of_mem_records hid
    simp only [linksFrom_eq _ hlt, Option.bind_some, UseGraph.Crosslinked.declare_size]
    exact ⟨modify_eq (hsize ▸ hlt) _, hsize⟩
  · exact Array.size_replicate

theorem ofHierarchy_eq : ofHierarchy t = some (UseGraph.Crosslinked.ofHierarchy t) := by
  have hlinks : flatMap (outgoingAt (UseGraph.Crosslinked.declared t)) t.records =
      some (t.records.flatMap (UseGraph.Crosslinked.outgoingAt (UseGraph.Crosslinked.declared t))) := by
    apply flatMap_eq
    intro id hid
    apply outgoingAt_eq
    rw [UseGraph.Crosslinked.declared_size]
    exact lt_of_mem_records hid
  rw [UseGraph.Crosslinked.links_declared] at hlinks
  simp only [ofHierarchy, declared_eq h, records_eq h, hlinks,
    received_eq (UseGraph.Crosslinked.declared_size t), Option.bind_eq_bind, Option.bind_some]
  rw [← UseGraph.Crosslinked.links_declared]
  rfl

end Build

section Reads

variable {g : Crosslinked} (h : g.Linked) {id : Nat}
include h

theorem outgoing_eq (hid : id < g.tree.size) : outgoing g id = some (g.outgoing id) :=
  outgoingAt_eq (h.size ▸ hid)

theorem incoming_eq (hid : id < g.tree.size) : incoming g id = some (g.incoming id) :=
  incomingAt_eq (h.size ▸ hid)

theorem links_eq : links g = some g.links := by
  rw [links, records_eq h.shaped]
  apply flatMap_eq
  intro id hid
  exact outgoing_eq h (lt_of_mem_records hid)

end Reads

end Crosslinked

namespace Radial

def ofDocument (n : Naming) (d : Document) : Option Radial := do
  let t ← ofUsableRecords (Record.uses n d) n.delimiter n.root
  return ⟨← Crosslinked.ofHierarchy t⟩

def displayLe (t : Hierarchy Uses) (a b : Nat) : Option Bool := do
  return (← displayName t a) ≤ (← displayName t b)

section Definitions

variable (v : Radial)

def leaves : Option (List Nat) := do
  filter (isLeaf v.tree) (← preorder v.tree (displayLe v.tree))

def highlight (id : Nat) : Option Radial.Highlight := do
  let incoming ← Crosslinked.incoming v.graph id
  let outgoing ← Crosslinked.outgoing v.graph id
  return ⟨id, incoming, outgoing, incoming.map Crosslink.source,
    outgoing.filterMap Crosslink.target⟩

def title (id : Nat) : Option String := do
  let path ← fullPath v.tree id
  let outgoing ← Crosslinked.outgoing v.graph id
  let incoming ← Crosslinked.incoming v.graph id
  return path
    ++ "\n" ++ outgoing.length.repr ++ " outgoing"
    ++ "\n" ++ incoming.length.repr ++ " incoming"

def route? (l : Crosslink) : Option (Option (List Nat)) := l.target.mapM (route v.tree l.source)

def bundle? (l : Crosslink) : Option (Option Radial.Bundle) := do
  match ← route? v l, l.target with
  | some steps, some target =>
    return some ⟨← name v.tree l.source, ← name v.tree target, ← steps.mapM (name v.tree)⟩
  | _, _ => return none

def label (id : Nat) : Option Radial.Label := do
  let outgoing ← Crosslinked.outgoing v.graph id
  let incoming ← Crosslinked.incoming v.graph id
  return ⟨← segment v.tree id, ← name v.tree id, ← displayName v.tree id,
    (← payload? v.tree id).map Uses.size,
    ← outgoing.mapM fun l => l.target.mapM (name v.tree),
    ← incoming.mapM fun l => name v.tree l.source⟩

def drawing : Option Radial.Drawing := do
  let tree ← outline v.tree (displayLe v.tree)
  return ⟨← mapLabels (label v) tree, ← filterMap (bundle? v) (← Crosslinked.links v.graph)⟩

end Definitions

theorem ofDocument_eq (n : Naming) (d : Document) :
    ofDocument n d = some (UseGraph.Radial.ofDocument n d) := by
  have h : (Hierarchy.ofUsableRecords (Record.uses n d) n.delimiter n.root).Shaped :=
    (Hierarchy.Made.forgiving _ _ _).shaped
  simp only [ofDocument, ofUsableRecords_eq, Crosslinked.ofHierarchy_eq h, Option.bind_eq_bind,
    Option.bind_some]
  rfl

theorem displayLe_eq {t : Hierarchy Uses} (a b : Nat) (ha : a < t.size) (hb : b < t.size) :
    displayLe t a b = some (UseGraph.Radial.displayLe t a b) := by
  simp [displayLe, displayName_eq ha, displayName_eq hb, UseGraph.Radial.displayLe]

section Reads

variable {v : Radial} (h : v.graph.Linked)
include h

theorem leaves_eq : leaves v = some v.leaves := by
  have ht : v.tree.Shaped := h.shaped
  rw [leaves, preorder_eq ht displayLe_eq]
  apply filter_eq
  intro id hid
  exact isLeaf_eq (ht.preorder_lt _ hid)

theorem highlight_eq {id : Nat} (hid : id < v.tree.size) :
    highlight v id = some (v.highlight id) := by
  simp [highlight, Crosslinked.outgoing_eq h hid, Crosslinked.incoming_eq h hid,
    UseGraph.Radial.highlight]

theorem title_eq {id : Nat} (hid : id < v.tree.size) : title v id = some (v.title id) := by
  have ht : v.tree.Shaped := h.shaped
  simp [title, fullPath_eq ht hid, Crosslinked.outgoing_eq h hid,
    Crosslinked.incoming_eq h hid, UseGraph.Radial.title]

theorem route?_eq {l : Crosslink} (hl : l.Within v.tree.size) :
    route? v l = some (v.route? l) :=
  optional_eq fun target htarget => route_eq h.shaped hl.1 (hl.2 target htarget)

theorem bundle?_eq {l : Crosslink} (hl : l.Within v.tree.size) :
    bundle? v l = some (v.bundle? l) := by
  have ht : v.tree.Shaped := h.shaped
  rw [bundle?, route?_eq h hl, UseGraph.Radial.bundle?_eq_map, UseGraph.Radial.route?]
  cases htarget : l.target with
  | none => rfl
  | some target =>
    have hlt := hl.2 target htarget
    have hroute := names_eq (ht.route_lt hl.1 hlt)
    simp [name_eq hl.1, name_eq hlt, hroute]

theorem label_eq {id : Nat} (hid : id < v.tree.size) : label v id = some (v.label id) := by
  have htargets : (v.graph.outgoing id).mapM (fun l => l.target.mapM (name v.tree)) =
      some ((v.graph.outgoing id).map fun l => l.target.map v.tree.name) := by
    apply mapM_eq
    intro l hl
    apply optional_eq
    intro x hx
    exact name_eq ((h.outgoing id l hl).2 x hx)
  have hsources : (v.graph.incoming id).mapM (fun l => name v.tree l.source) =
      some ((v.graph.incoming id).map fun l => v.tree.name l.source) := by
    apply mapM_eq
    intro l hl
    exact name_eq (h.incoming id l hl).1
  simp [label, Crosslinked.outgoing_eq h hid, Crosslinked.incoming_eq h hid, segment_eq hid,
    name_eq hid, displayName_eq hid, payload?_eq hid, htargets, hsources, UseGraph.Radial.label]

theorem drawing_eq : drawing v = some v.drawing := by
  have ht : v.tree.Shaped := h.shaped
  have htree : mapLabels (label v) (v.tree.outline (UseGraph.Radial.displayLe v.tree)) =
      some ((v.tree.outline (UseGraph.Radial.displayLe v.tree)).map v.label) := by
    apply mapLabels_eq
    intro id hid
    rw [Hierarchy.labels_outline ht] at hid
    exact label_eq h (ht.preorder_lt _ hid)
  have hbundles : filterMap (bundle? v) v.graph.links =
      some (v.graph.links.filterMap v.bundle?) := by
    apply filterMap_eq
    intro l hl
    exact bundle?_eq h (h.links l hl)
  simp only [drawing, outline_eq ht displayLe_eq, Crosslinked.links_eq h, htree, hbundles,
    Option.bind_eq_bind, Option.bind_some]
  rfl

end Reads

end Radial

end Guarded

end UseGraph
