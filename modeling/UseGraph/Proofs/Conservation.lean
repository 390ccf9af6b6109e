import Mathlib.Algebra.GroupWithZero.Nat
import UseGraph.Proofs.Crosslinks
import UseGraph.Proofs.Forgiving

/-!
# Links at both of their ends

A use whose name leads to a record is one link, entered once at its source
and once at its target; any other use is a link without a target. Counted at
the entries they arrive at, and with those that arrive nowhere, the links are
as many as the uses. This holds of whatever the builds return, a root alone
included.
-/

set_option autoImplicit false

namespace UseGraph.Crosslinked

open Hierarchy

variable {t : Hierarchy Uses}

structure Conserved (t : Hierarchy Uses) (g : Crosslinked) : Prop where
  tree : g.tree = t
  outgoing : ∀ n ∈ t.records, ∃ u, t.payload? n = some u ∧ List.Forall₂
    (fun name l => l.source = n ∧
      ∀ x, l.target = some x ↔ t.lookup name = some x ∧ x ∈ t.records)
    u.imports (g.outgoing n)
  incoming : ∀ x < t.size, g.incoming x = g.links.filter fun l => l.target = some x
  bare : ∀ x, x ∉ t.records → g.incoming x = [] ∧ g.outgoing x = []
  unresolved : g.unresolved = g.links.countP fun l => l.target = none
  total : ((List.range t.size).map fun x => (g.incoming x).length).sum + g.unresolved =
    ((t.records.filterMap t.payload?).map fun u => u.imports.length).sum

/-- Full paths resolve as names do, but to records only. -/
theorem lookup_directory (h : Made t) (s : String) (x : Nat) :
    (directory t).lookup s = some x ↔ t.lookup s = some x ∧ x ∈ t.records := by
  rcases h.built_or_lone with ⟨d, rs, hb⟩ | ⟨stem, d, rfl⟩
  · rw [lookup_directory_iff hb.toRooted, hb.lookup_iff]
    constructor
    · rintro ⟨hx, hn⟩
      exact ⟨⟨lt_of_mem_records hx, hn⟩, hx⟩
    · rintro ⟨⟨-, hn⟩, hx⟩
      exact ⟨hx, hn⟩
  · simp [directory, lone_records]

theorem imports_of_record {n : Nat} (hn : n ∈ t.records) :
    ∃ u, t.payload? n = some u ∧ imports t n = u.imports := by
  obtain ⟨u, hu⟩ := Option.isSome_iff_exists.1 (List.mem_filter.1 hn).2
  exact ⟨u, hu, by rw [imports, hu, Option.map_some, Option.getD_some]⟩

theorem outgoing_resolved (h : Made t) {n : Nat} (hn : n ∈ t.records) :
    ∃ u, t.payload? n = some u ∧ List.Forall₂
      (fun name l => l.source = n ∧
        ∀ x, l.target = some x ↔ t.lookup name = some x ∧ x ∈ t.records)
      u.imports ((ofHierarchy t).outgoing n) := by
  obtain ⟨u, hu, himports⟩ := imports_of_record hn
  refine ⟨u, hu, ?_⟩
  rw [outgoing_eq, if_pos hn, linksFrom, himports, List.forall₂_map_right_iff, List.forall₂_same]
  intro name _
  exact ⟨rfl, lookup_directory h name⟩

theorem incoming_eq_nil {x : Nat} (hx : x ∉ t.records) : (ofHierarchy t).incoming x = [] := by
  rw [incoming_eq, List.filter_eq_nil_iff]
  intro l hl hlx
  exact hx (target_of_mem_links hl (by simpa using hlx))

theorem outgoing_eq_nil {x : Nat} (hx : x ∉ t.records) : (ofHierarchy t).outgoing x = [] := by
  rw [outgoing_eq, if_neg hx]

/-- Read entry by entry, a list that is empty off some entries is what it is
on them. -/
theorem flatMap_range_perm {β : Type} {f : Nat → List β} {ids : List Nat} {n : Nat}
    (hn : ids.Nodup) (hlt : ∀ x ∈ ids, x < n) (hf : ∀ x, x ∉ ids → f x = []) :
    ((List.range n).flatMap f).Perm (ids.flatMap f) := by
  have hsplit := (List.filter_append_perm (fun x => decide (x ∈ ids)) (List.range n)).flatMap_right f
  have hoff : ((List.range n).filter fun x => !decide (x ∈ ids)).flatMap f = [] := by
    rw [List.flatMap_eq_nil_iff]
    intro x hx
    exact hf x (by simpa using (List.mem_filter.1 hx).2)
  have hon : ((List.range n).filter fun x => decide (x ∈ ids)).Perm ids := by
    rw [List.perm_ext_iff_of_nodup (List.nodup_range.filter _) hn]
    intro x
    simp only [List.mem_filter, List.mem_range, decide_eq_true_eq]
    exact ⟨fun h => h.2, fun h => ⟨hlt x h, h⟩⟩
  rw [List.flatMap_append, hoff, List.append_nil] at hsplit
  exact hsplit.symm.trans (hon.flatMap_right f)

theorem adjacency_size (t : Hierarchy Uses) : (ofHierarchy t).adjacency.size = t.size := by
  rw [adjacency_eq, received_size, declared_size]

theorem table_outgoing (table : Array Adjacency) : table.toList.flatMap Adjacency.outgoing =
    (List.range table.size).flatMap (outgoingAt table) := by
  rw [List.flatMap_def, List.flatMap_def]
  congr 1
  apply List.ext_getElem
  · simp
  · intro i hi _
    have hlt : i < table.size := by simpa using hi
    simp [outgoingAt, hlt]

/-- The whole table holds the links of the records and no others. -/
theorem table_perm_links (h : Made t) :
    ((ofHierarchy t).adjacency.toList.flatMap Adjacency.outgoing).Perm (ofHierarchy t).links := by
  rw [table_outgoing, adjacency_size]
  exact flatMap_range_perm h.records_nodup (fun _ hx => lt_of_mem_records hx)
    (fun _ hx => outgoing_eq_nil hx)

theorem unresolved_eq (h : Made t) : (ofHierarchy t).unresolved =
    (ofHierarchy t).links.countP fun l => l.target = none := by
  rw [unresolved, (table_perm_links h).countP_eq]
  apply List.countP_congr
  intro l _
  simp

/-- What arrives anywhere is what has a target. -/
theorem incoming_perm (t : Hierarchy Uses) :
    ((List.range t.size).flatMap (ofHierarchy t).incoming).Perm
      ((ofHierarchy t).links.filter fun l => l.target.isSome) := by
  have hkeys : ((List.range t.size).map some).Nodup :=
    List.nodup_range.map fun _ _ he => Option.some.inj he
  have hgroup := flatMap_filter_perm Crosslink.target ((List.range t.size).map some) hkeys
    ((ofHierarchy t).links.filter fun l => l.target.isSome) (by
      intro l hl
      obtain ⟨hmem, hsome⟩ := List.mem_filter.1 hl
      obtain ⟨x, hx⟩ := Option.isSome_iff_exists.1 hsome
      rw [hx]
      exact List.mem_map_of_mem
        (List.mem_range.2 (lt_of_mem_records (target_of_mem_links hmem hx))))
  rw [List.flatMap_map] at hgroup
  have hsame : (List.range t.size).flatMap (ofHierarchy t).incoming =
      (List.range t.size).flatMap fun x =>
        ((ofHierarchy t).links.filter fun l => l.target.isSome).filter fun l =>
          l.target = some x := by
    apply List.flatMap_congr
    intro x _
    rw [incoming_eq, List.filter_filter]
    apply List.filter_congr
    intro l _
    by_cases hl : l.target = some x <;> simp [hl]
  rw [hsame]
  exact hgroup

/-- Every record has a payload, so that none of them is passed over. -/
theorem filterMap_payload? {ids : List Nat} (h : ∀ n ∈ ids, n ∈ t.records) :
    (ids.filterMap t.payload?).map (fun u => u.imports.length) =
      ids.map fun n => (imports t n).length := by
  induction ids with
  | nil => rfl
  | cons n ids ih =>
    rw [List.forall_mem_cons] at h
    obtain ⟨u, hu, himports⟩ := imports_of_record h.1
    rw [List.filterMap_cons_some hu, List.map_cons, List.map_cons, ih h.2, himports]

theorem links_length (t : Hierarchy Uses) : (ofHierarchy t).links.length =
    ((t.records.filterMap t.payload?).map fun u => u.imports.length).sum := by
  rw [links_eq, List.length_flatMap, filterMap_payload? fun _ hn => hn]
  simp [linksFrom]

theorem arrivals_add_unresolved (h : Made t) :
    ((List.range t.size).map fun x => ((ofHierarchy t).incoming x).length).sum +
      (ofHierarchy t).unresolved =
        ((t.records.filterMap t.payload?).map fun u => u.imports.length).sum := by
  have hin := (incoming_perm t).length_eq
  rw [List.length_flatMap, ← List.countP_eq_length_filter] at hin
  rw [hin, unresolved_eq h, ← links_length,
    List.length_eq_countP_add_countP fun l : Crosslink => l.target.isSome]
  congr 1
  apply List.countP_congr
  intro l _
  simp

/-- In every hierarchy that a build returns, each use is a link, and the links
at their sources and at their targets are the same links. -/
theorem made_conserved (t : Hierarchy Uses) (h : Made t) : Conserved t (ofHierarchy t) where
  tree := rfl
  outgoing _ hn := outgoing_resolved h hn
  incoming x _ := incoming_eq t x
  bare _ hx := ⟨incoming_eq_nil hx, outgoing_eq_nil hx⟩
  unresolved := unresolved_eq h
  total := arrivals_add_unresolved h

def entwined : List (Record Uses) :=
  [⟨"r::a::b", ⟨["r::a", "r::a", "r::a::b", "gone"], 1⟩⟩, ⟨"r:::x", ⟨["r", "r:::x"], 1⟩⟩,
    ⟨"r::a", ⟨["r::a::b", "r:::x", "r"], 4⟩⟩, ⟨"r::c::d", ⟨["r::c"], 2⟩⟩]

theorem entwined_conserved : ∃ t, ofRecords entwined "::" = .ok t ∧ Made t ∧
    Conserved t (ofHierarchy t) := by
  have hok : (ofRecords entwined "::").toOption.isSome = true := by decide +kernel
  cases h : ofRecords entwined "::" with
  | error e => simp [h, Except.toOption] at hok
  | ok t => exact ⟨t, rfl, .strict h, made_conserved t (.strict h)⟩

end UseGraph.Crosslinked
