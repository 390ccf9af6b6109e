import UseGraph.Proofs.Representation

/-!
# Where entries come from

Nothing in a hierarchy of records is lost, made up or overwritten: the names,
the payloads, the leaves and the order of siblings are all read off the list
of records.
-/

set_option autoImplicit false

namespace UseGraph.Hierarchy

open UseGraph.Growth

variable {α : Type} {d : String} {rs : List (Record α)} {t : Hierarchy α} {id : Nat}

namespace Built

theorem payload?_iff (h : Built d rs t) (hid : id < t.size) (a : α) :
    t.payload? id = some a ↔ (⟨t.name id, a⟩ : Record α) ∈ rs := by
  rw [h.payload?_eq hid, Forest.payloadIn_eq_some_iff rs h.fitting.nodup]

theorem isLeaf_iff_record (h : Built d rs t) (hid : id < t.size) :
    t.isLeaf id = true ↔ (∃ r ∈ rs, r.name = t.name id) ∧
      (∃ x y, t.name id = x ++ d ++ y) ∧
      ∀ r ∈ rs, r.name ≠ t.name id → ¬ Path.AtOrBelow d r.name (t.name id) := by
  have hcut : t.parent? id ≠ none ↔ ∃ x y, t.name id = x ++ d ++ y := by
    rw [ne_eq, h.parent?_none_iff hid, Path.parent?_eq_none_iff]
    simp
  rw [h.isLeaf_iff hid, hcut, h.own_or_children hid]
  constructor
  · rintro ⟨hall, hxy⟩
    obtain ⟨r, hr, hrid⟩ := (h.mem_names (t.name id)).1 ⟨id, hid, rfl⟩
    exact ⟨⟨r, hr, hall r hr hrid⟩, hxy, fun q hq hne hc => hne (hall q hq hc)⟩
  · rintro ⟨-, hxy, hno⟩
    refine ⟨?_, hxy⟩
    intro r hr hc
    by_cases hne : r.name = t.name id
    · exact hne
    · exact absurd hc (hno r hr hne)

theorem siblings_in_order (h : Built d rs t) (p : Nat) :
    (t.children p).Pairwise fun a b =>
      arrival d (rs.map Record.name) (t.name a) < arrival d (rs.map Record.name) (t.name b) := by
  refine (h.children_increasing p).imp_of_mem ?_
  intro a b ha hb hab
  obtain ⟨hal, -, hap⟩ := (h.parent?_iff a p).1 ((h.mem_children_iff a p).1 ha)
  obtain ⟨hbl, -, hbp⟩ := (h.parent?_iff b p).1 ((h.mem_children_iff b p).1 hb)
  have han := (names_getElem?_iff t a _).2 ⟨hal, rfl⟩
  have hbn := (names_getElem?_iff t b _).2 ⟨hbl, rfl⟩
  rw [h.names] at han hbn
  exact arrival_lt_of_siblings h.delimited _ a b hab han hbn hap hbp

end Built

/-- The names, payloads, leaves and siblings of a hierarchy, each by the
records alone. -/
theorem ofRecords_provenance (rs : List (Record α)) (d : String) (t : Hierarchy α)
    (h : ofRecords rs d = .ok t) :
    (∀ s, (∃ id < t.size, t.name id = s) ↔ ∃ r ∈ rs, Path.AtOrBelow d r.name s) ∧
    (∀ id < t.size, ∀ a, t.payload? id = some a ↔ (⟨t.name id, a⟩ : Record α) ∈ rs) ∧
    (∀ id < t.size, t.isLeaf id = true ↔ (∃ r ∈ rs, r.name = t.name id) ∧
      (∃ x y, t.name id = x ++ d ++ y) ∧
      ∀ r ∈ rs, r.name ≠ t.name id → ¬ Path.AtOrBelow d r.name (t.name id)) ∧
    ∀ p, (t.children p).Pairwise fun a b =>
      arrival d (rs.map Record.name) (t.name a) < arrival d (rs.map Record.name) (t.name b) := by
  have hb := built_of_ok h
  refine ⟨hb.mem_names, ?_, ?_, hb.siblings_in_order⟩
  · intro id hid a
    exact hb.payload?_iff hid a
  · intro id hid
    exact hb.isLeaf_iff_record hid

theorem overlapping_provenance : ∃ t, ofRecords overlapping "::" = .ok t ∧
    (∀ s, (∃ id < t.size, t.name id = s) ↔ ∃ r ∈ overlapping, Path.AtOrBelow "::" r.name s) ∧
    (∀ id < t.size, ∀ a,
      t.payload? id = some a ↔ (⟨t.name id, a⟩ : Record Nat) ∈ overlapping) ∧
    (∀ id < t.size, t.isLeaf id = true ↔ (∃ r ∈ overlapping, r.name = t.name id) ∧
      (∃ x y, t.name id = x ++ "::" ++ y) ∧
      ∀ r ∈ overlapping, r.name ≠ t.name id → ¬ Path.AtOrBelow "::" r.name (t.name id)) ∧
    ∀ p, (t.children p).Pairwise fun a b =>
      arrival "::" (overlapping.map Record.name) (t.name a) <
        arrival "::" (overlapping.map Record.name) (t.name b) := by
  obtain ⟨t, ht⟩ := overlapping_accepted
  exact ⟨t, ht, ofRecords_provenance overlapping "::" t ht⟩

end UseGraph.Hierarchy
