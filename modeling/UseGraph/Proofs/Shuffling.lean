import Mathlib.Data.List.Perm.Basic
import UseGraph.Proofs.Conservation
import UseGraph.Proofs.Likeness
import UseGraph.Proofs.Placement

/-!
# Documents in another order

Links may come in any order, and so may nodes with different ids. The nested
circles stay what they are, numbers and all; the circle of leaves keeps its
tree and its order, and the links at each entry stay the same but for the
order in which they are listed. No delimiter and no root is an exception.
-/

set_option autoImplicit false

namespace UseGraph

open Hierarchy

variable {n : Naming} {d e : Document} {id : String}

structure Uses.Shuffled (u w : Uses) : Prop where
  size : u.size = w.size
  imports : u.imports.Perm w.imports

namespace Document

/-- A document in another order. Nodes that share an id keep their places,
since the last of them has the say. -/
structure Shuffled (d e : Document) : Prop where
  links : d.links.Perm e.links
  nodes : d.nodes = e.nodes ∨ d.nodes.Perm e.nodes ∧ (d.nodes.map Node.id).Nodup

theorem getLast?_of_id {vs : List Node} (hn : (vs.map Node.id).Nodup) (id : String) (v : Node) :
    (vs.filter fun v => v.id == id).getLast? = some v ↔ v ∈ vs ∧ v.id = id := by
  constructor
  · intro h
    simpa using List.mem_filter.1 (List.mem_of_getLast? h)
  · rintro ⟨hv, rfl⟩
    have hm : v ∈ vs.filter fun w => w.id == v.id := List.mem_filter.2 ⟨hv, by simp⟩
    cases hl : (vs.filter fun w => w.id == v.id).getLast? with
    | none => simp [List.getLast?_eq_none_iff.1 hl] at hm
    | some w =>
      obtain ⟨hw, hid⟩ := List.mem_filter.1 (List.mem_of_getLast? hl)
      rw [List.inj_on_of_nodup_map hn hw hv (by simpa using hid)]

namespace Shuffled

variable (h : d.Shuffled e)
include h

theorem nodes_perm : d.nodes.Perm e.nodes := by
  rcases h.nodes with he | ⟨hp, -⟩
  · rw [he]
  · exact hp

theorem lists_iff (id : String) : d.Lists id ↔ e.Lists id := by
  unfold Lists
  simp only [h.nodes_perm.mem_iff, h.links.mem_iff]

theorem targets_perm (id : String) : (d.targets id).Perm (e.targets id) :=
  (h.links.filter _).map Link.target

theorem groupOf_eq (id : String) : d.groupOf id = e.groupOf id := by
  unfold groupOf
  rcases h.nodes with he | ⟨hp, hn⟩
  · rw [he]
  · have hn' : (e.nodes.map Node.id).Nodup := (hp.map Node.id).nodup_iff.1 hn
    congr 2
    apply Option.ext
    intro v
    rw [getLast?_of_id hn, getLast?_of_id hn', hp.mem_iff]

end Shuffled

end Document

namespace Record

open Register

variable (h : d.Shuffled e)
include h

/-- Weights are counts, and counts do not see the order. -/
theorem lookup_weightsOf_shuffled (id : String) :
    (weightsOf d).lookup id = (weightsOf e).lookup id := by
  have hnodes := h.nodes_perm.filter fun v => v.id == id
  have hlinks := (h.links.filter fun l => !l.isLoop).filter fun l => l.source == id
  rw [weightsOf_eq, weightsOf_eq, lookup_collect (sorted_nodes _ d), lookup_collect sorted_nil,
    lookup_collect (sorted_nodes _ e), lookup_collect sorted_nil,
    hnodes.foldl_eq' fun _ _ _ _ _ => rfl]
  exact hlinks.foldl_eq' (fun _ _ _ _ _ => rfl) _

theorem weights_shuffled (n : Naming) : weights n d = weights n e := by
  have hsame : ∀ x, Option.Rel (· = ·) ((weightsOf d).lookup x) ((weightsOf e).lookup x) := by
    intro x
    rw [lookup_weightsOf_shuffled h]
    cases (weightsOf e).lookup x with
    | none => exact .none
    | some w => exact .some rfl
  have hall := forall₂_of_lookup (sorted_weightsOf d) (sorted_weightsOf e) hsame
  have heq : weightsOf d = weightsOf e := by
    rw [← List.forall₂_eq_eq_eq]
    exact hall.imp fun _ _ he => Prod.ext he.1 he.2
  rw [weights, weights, heq]

theorem lookup_usesOf_shuffled (n : Naming) (id : String) :
    Option.Rel Uses.Shuffled ((usesOf n d).lookup id) ((usesOf n e).lookup id) := by
  by_cases hid : d.Lists id
  · rw [lookup_usesOf hid, lookup_usesOf ((h.lists_iff id).1 hid)]
    exact .some ⟨h.groupOf_eq id, (h.targets_perm id).map n.qualify⟩
  · have hno : id ∉ keys (usesOf n d) := fun hm => hid ((mem_keys_usesOf n d id).1 hm)
    have hno' : id ∉ keys (usesOf n e) :=
      fun hm => hid ((h.lists_iff id).2 ((mem_keys_usesOf n e id).1 hm))
    rw [lookup_eq_none _ id hno, lookup_eq_none _ id hno']
    exact .none

theorem uses_shuffled (n : Naming) :
    List.Forall₂ (Alike Uses.Shuffled) (uses n d) (uses n e) := by
  have hall := forall₂_of_lookup (sorted_usesOf n d) (sorted_usesOf n e)
    (lookup_usesOf_shuffled h n)
  rw [uses, uses, ofRegister, ofRegister, List.forall₂_map_left_iff, List.forall₂_map_right_iff]
  exact hall.imp fun _ _ he => ⟨congrArg n.qualify he.1, he.2⟩

end Record

namespace Crosslinked

variable {t u : Hierarchy Uses} (h : t.Alike Uses.Shuffled u)
include h

theorem directory_shuffled : directory t = directory u := by
  rw [directory, directory, h.records_eq, h.fullPath_eq]

theorem imports_shuffled (x : Nat) : (imports t x).Perm (imports u x) := by
  have hpay := h.payload x
  unfold imports
  generalize t.payload? x = a at hpay ⊢
  generalize u.payload? x = b at hpay ⊢
  cases hpay with
  | none => exact List.Perm.refl _
  | some hw => exact hw.imports

theorem outgoing_shuffled (x : Nat) :
    ((ofHierarchy t).outgoing x).Perm ((ofHierarchy u).outgoing x) := by
  rw [outgoing_eq, outgoing_eq, ← h.records_eq, linksFrom, linksFrom, directory_shuffled h]
  split
  · exact (imports_shuffled h x).map _
  · exact List.Perm.refl _

theorem links_shuffled : (ofHierarchy t).links.Perm (ofHierarchy u).links := by
  have hrecords : (ofHierarchy t).tree.records = (ofHierarchy u).tree.records := h.records_eq
  rw [links, links, hrecords]
  exact List.Perm.flatMap_left _ fun x _ => outgoing_shuffled h x

theorem incoming_shuffled (x : Nat) :
    ((ofHierarchy t).incoming x).Perm ((ofHierarchy u).incoming x) := by
  rw [incoming_eq, incoming_eq]
  exact (links_shuffled h).filter _

theorem unresolved_shuffled : (ofHierarchy t).unresolved = (ofHierarchy u).unresolved := by
  rw [unresolved, unresolved, table_outgoing, table_outgoing, adjacency_size, adjacency_size,
    h.size_eq]
  exact (List.Perm.flatMap_left _ fun x _ => outgoing_shuffled h x).countP_eq _

end Crosslinked

structure Unmoved (n : Naming) (d e : Document) : Prop where
  weights : Record.weights n d = Record.weights n e
  packing : Packing.ofDocument n d = Packing.ofDocument n e
  circles : (Packing.ofDocument n d).circles = (Packing.ofDocument n e).circles
  drawing : (Packing.ofDocument n d).drawing .fresh = (Packing.ofDocument n e).drawing .fresh
  uses : List.Forall₂ (Record.Alike Uses.Shuffled) (Record.uses n d) (Record.uses n e)
  tree : (Radial.ofDocument n d).tree.Alike Uses.Shuffled (Radial.ofDocument n e).tree
  leaves : (Radial.ofDocument n d).leaves = (Radial.ofDocument n e).leaves
  outgoing : ∀ x, ((Radial.ofDocument n d).graph.outgoing x).Perm
    ((Radial.ofDocument n e).graph.outgoing x)
  incoming : ∀ x, ((Radial.ofDocument n d).graph.incoming x).Perm
    ((Radial.ofDocument n e).graph.incoming x)
  unresolved : (Radial.ofDocument n d).graph.unresolved = (Radial.ofDocument n e).graph.unresolved

theorem leaves_alike {v w : Radial} {R : Uses → Uses → Prop} (h : v.tree.Alike R w.tree) :
    v.leaves = w.leaves := by
  have hle : Radial.displayLe v.tree = Radial.displayLe w.tree := by
    funext a b
    rw [Radial.displayLe, Radial.displayLe, h.displayName_eq]
  rw [Radial.leaves, Radial.leaves, hle, h.preorder_eq, h.isLeaf_eq]

/-- The order of a document shows in the order of lists only. -/
theorem shuffled_unmoved (n : Naming) (d e : Document) (h : d.Shuffled e) : Unmoved n d e := by
  have hweights := Record.weights_shuffled h n
  have hpacking : Packing.ofDocument n d = Packing.ofDocument n e := by
    rw [Packing.ofDocument, Packing.ofDocument, hweights]
  have huses := Record.uses_shuffled h n
  have htree : (Radial.ofDocument n d).tree.Alike Uses.Shuffled (Radial.ofDocument n e).tree :=
    ofUsableRecords_alike huses n.delimiter n.root
  constructor
  · exact hweights
  · exact hpacking
  · rw [hpacking]
  · rw [hpacking]
  · exact huses
  · exact htree
  · exact leaves_alike htree
  · exact Crosslinked.outgoing_shuffled htree
  · exact Crosslinked.incoming_shuffled htree
  · exact Crosslinked.unresolved_shuffled htree

/-- Repeated ids keep their places while links are turned round, and different
ids are turned round as well. -/
theorem tangled_unmoved :
    Document.Shuffled tangled ⟨tangled.nodes, tangled.links.reverse⟩ ∧
    Unmoved ⟨"->", "app"⟩ tangled ⟨tangled.nodes, tangled.links.reverse⟩ ∧
    Document.Shuffled ⟨tangled.nodes.drop 2, tangled.links⟩
      ⟨(tangled.nodes.drop 2).reverse, tangled.links.reverse⟩ ∧
    Unmoved ⟨"::", "a:"⟩ ⟨tangled.nodes.drop 2, tangled.links⟩
      ⟨(tangled.nodes.drop 2).reverse, tangled.links.reverse⟩ := by
  have hlinks : Document.Shuffled tangled ⟨tangled.nodes, tangled.links.reverse⟩ :=
    ⟨(List.reverse_perm _).symm, Or.inl rfl⟩
  have hboth : Document.Shuffled ⟨tangled.nodes.drop 2, tangled.links⟩
      ⟨(tangled.nodes.drop 2).reverse, tangled.links.reverse⟩ :=
    ⟨(List.reverse_perm _).symm, Or.inr ⟨(List.reverse_perm _).symm, by decide⟩⟩
  exact ⟨hlinks, shuffled_unmoved _ _ _ hlinks, hboth, shuffled_unmoved _ _ _ hboth⟩

end UseGraph
