import Mathlib.Data.List.Nodup
import UseGraph.Proofs.Registers
import UseGraph.Record

/-!
# Which records a document gives

An id gives a record when it is a node's or the source of a link to another
id, and just one however often it occurs. The record imports the targets of
the id's links in their order, loops left out.
-/

set_option autoImplicit false

namespace UseGraph

namespace Document

def Lists (d : Document) (id : String) : Prop :=
  (∃ v ∈ d.nodes, v.id = id) ∨ ∃ l ∈ d.links, l.source = id ∧ l.target ≠ id

instance (d : Document) (id : String) : Decidable (d.Lists id) :=
  inferInstanceAs (Decidable (_ ∨ _))

def targets (d : Document) (id : String) : List String :=
  (d.links.filter fun l => l.source == id && l.target != id).map Link.target

def groupOf (d : Document) (id : String) : UInt32 :=
  ((d.nodes.filter fun v => v.id == id).getLast?.map Node.group).getD 1

end Document

theorem Naming.qualify_injective (n : Naming) : Function.Injective n.qualify := by
  intro a b h
  apply String.toList_injective
  simpa [qualify] using congrArg String.toList h

namespace Record

open Register

variable {α : Type} {n : Naming} {d : Document} {id : String}

def nodeUses (v : Document.Node) : Option Uses → Uses := fun _ => ⟨[], v.group⟩

def linkUses (n : Naming) (l : Document.Link) : Option Uses → Uses
  | some u => { u with imports := u.imports ++ [n.qualify l.target] }
  | none => ⟨[n.qualify l.target], 1⟩

def linkWeight : Option UInt32 → UInt32
  | some w => w + 1
  | none => 1

theorem usesOf_eq (n : Naming) (d : Document) :
    usesOf n d = collect Document.Link.source (linkUses n)
      (collect Document.Node.id nodeUses [] d.nodes) (usedLinks d) := by
  have hstep : addUse n = fun r l => r.update l.source (linkUses n l) := by
    funext r l
    unfold addUse
    congr 1
  rw [usesOf, hstep]
  rfl

theorem weightsOf_eq (d : Document) :
    weightsOf d = collect Document.Link.source (fun _ => linkWeight)
      (collect Document.Node.id (fun _ _ => 1) [] d.nodes) (usedLinks d) := by
  have hstep : addWeight = fun r l => r.update l.source linkWeight := by
    funext r l
    unfold addWeight
    congr 1
  rw [weightsOf, hstep]
  rfl

theorem mem_usedLinks_iff (d : Document) (l : Document.Link) :
    l ∈ usedLinks d ↔ l ∈ d.links ∧ l.source ≠ l.target := by
  simp [usedLinks, Document.Link.isLoop]

/-- Nodes first and links after them touch the ids that are listed, whatever
is kept there. -/
theorem mem_keys_collected (place : Document.Node → Option α → α)
    (add : Document.Link → Option α → α) (d : Document) (id : String) :
    id ∈ keys (collect Document.Link.source add (collect Document.Node.id place [] d.nodes)
      (usedLinks d)) ↔ d.Lists id := by
  rw [mem_keys_collect, mem_keys_collect]
  simp only [keys, List.map_nil, List.not_mem_nil, false_or, mem_usedLinks_iff, Document.Lists]
  constructor
  · rintro (hv | ⟨l, ⟨hl, hne⟩, rfl⟩)
    · exact Or.inl hv
    · exact Or.inr ⟨l, hl, rfl, hne.symm⟩
  · rintro (hv | ⟨l, hl, rfl, hne⟩)
    · exact Or.inl hv
    · exact Or.inr ⟨l, ⟨hl, hne.symm⟩, rfl⟩

theorem sorted_nodes (place : Document.Node → Option α → α) (d : Document) :
    Sorted (collect Document.Node.id place [] d.nodes) :=
  sorted_collect sorted_nil Document.Node.id place d.nodes

theorem sorted_usesOf (n : Naming) (d : Document) : Sorted (usesOf n d) := by
  rw [usesOf_eq]
  exact sorted_collect (sorted_nodes nodeUses d) _ _ _

theorem sorted_weightsOf (d : Document) : Sorted (weightsOf d) := by
  rw [weightsOf_eq]
  exact sorted_collect (sorted_nodes _ d) _ _ _

theorem mem_keys_usesOf (n : Naming) (d : Document) (id : String) :
    id ∈ keys (usesOf n d) ↔ d.Lists id := by
  rw [usesOf_eq]
  exact mem_keys_collected _ _ d id

theorem mem_keys_weightsOf (d : Document) (id : String) :
    id ∈ keys (weightsOf d) ↔ d.Lists id := by
  rw [weightsOf_eq]
  exact mem_keys_collected _ _ d id

theorem foldl_nodeUses (vs : List Document.Node) (o : Option Uses) :
    vs.foldl (fun o v => some (nodeUses v o)) o =
      match vs.getLast? with
      | some v => some ⟨[], v.group⟩
      | none => o := by
  induction vs generalizing o with
  | nil => rfl
  | cons v vs ih =>
    rw [List.foldl_cons, ih, List.getLast?_cons]
    cases vs.getLast? <;> rfl

theorem foldl_linkUses (n : Naming) (ls : List Document.Link) (u : Uses) :
    ls.foldl (fun o l => some (linkUses n l o)) (some u) =
      some ⟨u.imports ++ ls.map fun l => n.qualify l.target, u.size⟩ := by
  induction ls generalizing u with
  | nil => simp
  | cons l ls ih =>
    rw [List.foldl_cons, linkUses, ih]
    simp

theorem targets_eq (d : Document) (id : String) :
    d.targets id = ((usedLinks d).filter fun l => l.source == id).map Document.Link.target := by
  rw [Document.targets, usedLinks, List.filter_filter]
  congr 1
  apply List.filter_congr
  intro l _
  by_cases hs : l.source = id
  · simp [hs, Document.Link.isLoop, bne, BEq.comm (a := l.target)]
  · simp [beq_eq_false_iff_ne.2 hs]

theorem lookup_usesOf (h : d.Lists id) :
    (usesOf n d).lookup id = some ⟨(d.targets id).map n.qualify, d.groupOf id⟩ := by
  have hused := targets_eq d id
  rw [usesOf_eq, lookup_collect (sorted_nodes nodeUses d), lookup_collect sorted_nil,
    foldl_nodeUses, Document.groupOf]
  cases hv : (d.nodes.filter fun v => v.id == id).getLast? with
  | some v =>
    rw [foldl_linkUses, hused]
    simp [List.map_map, Function.comp_def]
  | none =>
    have hls : (usedLinks d).filter (fun l => l.source == id) ≠ [] := by
      intro hnil
      rcases h with ⟨v, hmem, hid⟩ | ⟨l, hmem, hs, ht⟩
      · have hnone := List.getLast?_eq_none_iff.1 hv
        exact List.filter_eq_nil_iff.1 hnone v hmem (by simpa using hid)
      · have hl := (mem_usedLinks_iff d l).2 ⟨hmem, hs.trans_ne ht.symm⟩
        exact List.filter_eq_nil_iff.1 hnil l hl (by simpa using hs)
    obtain ⟨l, ls, hcons⟩ := List.exists_cons_of_ne_nil hls
    rw [hused, hcons]
    simp only [List.foldl_cons, foldl_linkUses]
    simp [linkUses, List.map_map, Function.comp_def]

structure Covers (n : Naming) (d : Document) (rs : List (Record α)) : Prop where
  nodup : (rs.map Record.name).Nodup
  mem : ∀ s, s ∈ rs.map Record.name ↔ ∃ id, d.Lists id ∧ n.qualify id = s

theorem ofRegister_names (n : Naming) (r : Register α) :
    (ofRegister n r).map Record.name = (keys r).map n.qualify := by
  simp [ofRegister, keys, Function.comp_def]

theorem covers_ofRegister {r : Register α} (hr : Sorted r)
    (hk : ∀ id, id ∈ keys r ↔ d.Lists id) : Covers n d (ofRegister n r) := by
  refine ⟨?_, ?_⟩
  · rw [ofRegister_names]
    exact List.Nodup.map n.qualify_injective (keys_nodup hr)
  · intro s
    rw [ofRegister_names, List.mem_map]
    simp only [hk]

theorem uses_cover (n : Naming) (d : Document) : Covers n d (uses n d) :=
  covers_ofRegister (sorted_usesOf n d) (mem_keys_usesOf n d)

theorem weights_cover (n : Naming) (d : Document) : Covers n d (weights n d) :=
  covers_ofRegister (sorted_weightsOf d) (mem_keys_weightsOf d)

theorem mem_uses (h : d.Lists id) :
    (⟨n.qualify id, ⟨(d.targets id).map n.qualify, d.groupOf id⟩⟩ : Record Uses) ∈ uses n d := by
  have hmem := (lookup_eq_some_iff (sorted_usesOf n d) id _).1 (lookup_usesOf (n := n) h)
  exact List.mem_map.2 ⟨_, hmem, rfl⟩

end Record

end UseGraph
