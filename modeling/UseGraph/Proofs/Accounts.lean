import UseGraph.Proofs.Octets
import UseGraph.Proofs.Totals

/-!
# The records of a document, id by id

Both kinds of records are kept by folding nodes and links into a register, and
what comes out can be said without any folding: the ids that are listed, in the
order of their bytes, each with the links that leave it for another id. The
two kinds agree, and neither sees a link of an id to itself.
-/

set_option autoImplicit false

namespace UseGraph.Record

open Register

variable {n : Naming} {d e : Document} {ids : List String} {id : String}

structure Accounts (n : Naming) (d : Document) (ids : List String) : Prop where
  listed : ∀ id, id ∈ ids ↔ d.Lists id
  ascending : ids.Pairwise fun a b => Text.octets a < Text.octets b
  uses : uses n d = ids.map fun id =>
    ⟨n.qualify id, ⟨(d.targets id).map n.qualify, d.groupOf id⟩⟩
  names : (weights n d).map Record.name = (Record.uses n d).map Record.name
  weights : d.links.length < UInt32.size - 1 →
    ((weights n d).map fun r => r.payload.toNat) = ids.map fun id =>
      (d.targets id).length + if id ∈ d.nodes.map Document.Node.id then 1 else 0

/-- A register is its keys with what is looked up at each. -/
theorem eq_map_keys {α : Type} {r : Register α} (hr : Sorted r) {f : String → α}
    (hf : ∀ id ∈ keys r, r.lookup id = some (f id)) : r = (keys r).map fun id => (id, f id) := by
  rw [keys, List.map_map]
  conv_lhs => rw [← List.map_id r]
  apply List.map_congr_left
  intro x hx
  have hlook := hf x.1 (List.mem_map_of_mem hx)
  rw [(lookup_eq_some_iff hr x.1 x.2).2 hx] at hlook
  exact Prod.ext rfl (Option.some.inj hlook)

theorem keys_usesOf_eq (n : Naming) (d : Document) : keys (usesOf n d) = keys (weightsOf d) := by
  apply List.Pairwise.eq_of_mem_iff (sorted_usesOf n d) (sorted_weightsOf d)
  intro id
  rw [mem_keys_usesOf, mem_keys_weightsOf]

theorem weights_names (n : Naming) (d : Document) :
    (weights n d).map Record.name = (uses n d).map Record.name := by
  rw [weights, uses, ofRegister_names, ofRegister_names, keys_usesOf_eq]

theorem uses_eq_map (n : Naming) (d : Document) : uses n d = (keys (usesOf n d)).map fun id =>
    ⟨n.qualify id, ⟨(d.targets id).map n.qualify, d.groupOf id⟩⟩ := by
  have hr := eq_map_keys (sorted_usesOf n d)
    (f := fun id => ⟨(d.targets id).map n.qualify, d.groupOf id⟩)
    fun id hid => lookup_usesOf ((mem_keys_usesOf n d id).1 hid)
  conv_lhs => rw [uses, hr, ofRegister, List.map_map]
  rfl

theorem weight_eq (hlinks : d.links.length < UInt32.size - 1) (id : String) :
    keptWeight ((weightsOf d).lookup id) =
      (d.targets id).length + if id ∈ d.nodes.map Document.Node.id then 1 else 0 := by
  have hcount : (d.targets id).length = (usedLinks d).countP fun l => l.source = id := by
    rw [targets_eq, List.length_map, List.countP_eq_length_filter]
    rfl
  rw [lookup_weightsOf hlinks, hcount, Nat.add_comm]

theorem weights_eq_map (hlinks : d.links.length < UInt32.size - 1) (n : Naming) :
    ((weights n d).map fun r => r.payload.toNat) = (keys (weightsOf d)).map fun id =>
      (d.targets id).length + if id ∈ d.nodes.map Document.Node.id then 1 else 0 := by
  simp only [← weight_eq hlinks]
  rw [weights, ofRegister, keys, List.map_map, List.map_map]
  apply List.map_congr_left
  intro x hx
  simp [(lookup_eq_some_iff (sorted_weightsOf d) x.1 x.2).2 hx, keptWeight]

/-- The links of ids to themselves might as well not be there. -/
theorem usedLinks_congr
    (h : (d.links.filter fun l => l.source ≠ l.target) =
      e.links.filter fun l => l.source ≠ l.target) : usedLinks d = usedLinks e := by
  have hused : ∀ c : Document, usedLinks c = c.links.filter fun l => l.source ≠ l.target := by
    intro c
    apply List.filter_congr
    intro l _
    by_cases hl : l.source = l.target <;> simp [Document.Link.isLoop, hl]
  rw [hused, hused, h]

/-- The records of a document are the ids it lists, each with its links, and
documents that differ in links of ids to themselves have the same ones. -/
theorem document_accounted (n : Naming) (d : Document) :
    (∃ ids, Accounts n d ids) ∧
    ∀ e : Document, e.nodes = d.nodes →
      (e.links.filter fun l => l.source ≠ l.target) =
        (d.links.filter fun l => l.source ≠ l.target) →
      uses n e = uses n d ∧ weights n e = weights n d := by
  constructor
  · refine ⟨keys (usesOf n d), ?_, ?_, uses_eq_map n d, weights_names n d, ?_⟩
    · exact mem_keys_usesOf n d
    · exact (sorted_usesOf n d).imp fun hlt => Text.octets_lt_of_lt hlt
    · rw [keys_usesOf_eq]
      exact fun hlinks => weights_eq_map hlinks n
  · intro e hnodes hlinks
    have hused := usedLinks_congr hlinks
    rw [uses, weights, uses, weights, usesOf, usesOf, weightsOf, weightsOf, hnodes, hused]
    exact ⟨rfl, rfl⟩

example : ((weights ⟨"->", "app"⟩ tangled).map fun r => (r.name, r.payload.toNat)) =
    [("app->", 1), ("app->core", 3), ("app->core->->io", 1), ("app->core->io", 2),
      ("app->tool->run", 2)] := by decide +kernel

theorem tangled_accounted : tangled.links.length < UInt32.size - 1 ∧
    (∃ ids, Accounts ⟨"->", "app"⟩ tangled ids) ∧
    uses ⟨"->", "app"⟩ ⟨tangled.nodes, tangled.links.filter fun l => l.source ≠ l.target⟩ =
      uses ⟨"->", "app"⟩ tangled ∧
    weights ⟨"->", "app"⟩ ⟨tangled.nodes, tangled.links.filter fun l => l.source ≠ l.target⟩ =
      weights ⟨"->", "app"⟩ tangled := by
  obtain ⟨haccounts, hloops⟩ := document_accounted ⟨"->", "app"⟩ tangled
  exact ⟨by decide, haccounts, hloops _ rfl (by simp [List.filter_filter])⟩

end UseGraph.Record
