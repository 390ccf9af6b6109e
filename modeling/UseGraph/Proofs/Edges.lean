import UseGraph.Proofs.Arcs
import UseGraph.Proofs.Crosslinks
import UseGraph.Proofs.Placement

/-!
# Links of the document in its views

Every link between two placed ids is found again as one link of the
hierarchy, one drawn bundle and, where both ids are nodes, one arc of the
list. Links to ids that are not placed stay without a target, and links of an
id to itself are arcs only.
-/

set_option autoImplicit false

namespace UseGraph

open Hierarchy Crosslinked

variable {n : Naming} {doc : Document} {s u : String} {x : Nat}

theorem bundle_ends (v : Radial) : (v.drawing.bundles.map fun b => (b.source, b.target)) =
    v.tree.records.flatMap fun x => (v.graph.outgoing x).filterMap fun l =>
      (l.target.map v.tree.name).map fun target => (v.tree.name l.source, target) := by
  rw [Radial.drawing, List.map_filterMap, links, List.filterMap_flatMap]
  apply List.flatMap_congr
  intro x _
  apply List.filterMap_congr
  intro l _
  rw [Radial.bundle?_eq_map, Option.map_map, Option.map_map]
  rfl

def Naming.hosting (n : Naming) (doc : Document) : Hierarchy Uses :=
  ofUsableRecords (Record.uses n doc) n.delimiter n.root

section Sound

variable (hs : n.Sound)
include hs

theorem hosting_kept (doc : Document) : Kept n.delimiter n.root
    ((Record.uses n doc).filter fun r => suits n.delimiter n.root r.name) (n.hosting doc) :=
  kept_of_covers hs (Record.uses_cover n doc)

theorem mem_records_hosting (x : Nat) : x ∈ (n.hosting doc).records ↔
    x < (n.hosting doc).size ∧ ∃ id, n.Places doc id ∧ (n.hosting doc).name x = n.qualify id := by
  have hk := hosting_kept hs doc
  have hp : Placed n doc (n.hosting doc) := placed_of_covers hs (Record.uses_cover n doc)
  rw [hk.mem_records_iff]
  constructor
  · intro hx
    have hlt := lt_of_mem_records ((hk.mem_records_iff x).2 hx)
    exact ⟨hlt, (hp.payload x hlt).1 hx⟩
  · rintro ⟨hlt, hx⟩
    exact (hp.payload x hlt).2 hx

theorem exists_record (hid : n.Places doc s) :
    ∃ x ∈ (n.hosting doc).records, (n.hosting doc).name x = n.qualify s := by
  have hp : Placed n doc (n.hosting doc) := placed_of_covers hs (Record.uses_cover n doc)
  obtain ⟨x, hx, hn⟩ := hp.present s hid
  exact ⟨x, (mem_records_hosting hs x).2 ⟨hx, s, hid, hn⟩, hn⟩

theorem lookup_record (hx : x ∈ (n.hosting doc).records)
    (hn : (n.hosting doc).name x = n.qualify s) :
    (n.hosting doc).lookup (n.qualify s) = some x := by
  have hk := hosting_kept hs doc
  exact (hk.lookup_iff _ x).2 ⟨lt_of_mem_records hx, hn⟩

theorem imports_record (hid : n.Places doc s) (hx : x ∈ (n.hosting doc).records)
    (hn : (n.hosting doc).name x = n.qualify s) :
    imports (n.hosting doc) x = (doc.targets s).map n.qualify := by
  have hk := hosting_kept hs doc
  have hsuits : suits n.delimiter n.root (n.qualify s) = true :=
    (Naming.suits_qualify hs s).2 hid.2
  have hpay := hk.payload?_eq (lt_of_mem_records hx)
  rw [hn, (Forest.payloadIn_eq_some_iff _ hk.nodup _ _).2
    (List.mem_filter.2 ⟨Record.mem_uses hid.1, hsuits⟩)] at hpay
  simp [imports, hpay]

/-- A full name leads somewhere exactly when its id is placed. -/
theorem directory_qualify (hx : x ∈ (n.hosting doc).records)
    (hn : (n.hosting doc).name x = n.qualify u) (id : String) :
    (directory (n.hosting doc)).lookup (n.qualify id) = some x ↔ id = u := by
  rw [lookup_directory_iff (hosting_kept hs doc).toRooted, hn, n.qualify_injective.eq_iff]
  simp [hx, eq_comm]

theorem directory_eq_none_iff (id : String) :
    (directory (n.hosting doc)).lookup (n.qualify id) = none ↔ ¬ n.Places doc id := by
  have hr := (hosting_kept hs doc).toRooted
  constructor
  · intro hnone hid
    obtain ⟨x, hx, hn⟩ := exists_record hs hid
    rw [(directory_qualify hs hx hn id).2 rfl] at hnone
    cases hnone
  · intro hno
    rw [Option.eq_none_iff_forall_ne_some]
    intro x hx
    obtain ⟨hmem, hn⟩ := (lookup_directory_iff hr _ x).1 hx
    obtain ⟨-, id', hid', hn'⟩ := (mem_records_hosting hs x).1 hmem
    rw [n.qualify_injective (hn.symm.trans hn')] at hno
    exact hno hid'

theorem directory_name (id : String) :
    ((directory (n.hosting doc)).lookup (n.qualify id)).map (n.hosting doc).name =
      if n.Places doc id then some (n.qualify id) else none := by
  by_cases hid : n.Places doc id
  · obtain ⟨x, hx, hn⟩ := exists_record hs hid
    rw [(directory_qualify hs hx hn id).2 rfl, if_pos hid, Option.map_some, hn]
  · rw [(directory_eq_none_iff hs id).2 hid, if_neg hid]
    rfl

theorem outgoing_record (hid : n.Places doc s) (hx : x ∈ (n.hosting doc).records)
    (hn : (n.hosting doc).name x = n.qualify s) :
    (ofHierarchy (n.hosting doc)).outgoing x =
      (doc.links.filter fun l => l.source == s && l.target != s).map fun l =>
        ⟨x, (directory (n.hosting doc)).lookup (n.qualify l.target)⟩ := by
  rw [outgoing_eq, if_pos hx, linksFrom,
    imports_record hs hid hx hn, Document.targets, List.map_map, List.map_map]
  rfl

theorem count_resolved (hid : n.Places doc s) (hx : x ∈ (n.hosting doc).records)
    (hn : (n.hosting doc).name x = n.qualify s) {y : Nat}
    (hy : y ∈ (n.hosting doc).records) (hm : (n.hosting doc).name y = n.qualify u)
    (hne : u ≠ s) :
    ((ofHierarchy (n.hosting doc)).outgoing x).countP (fun l => l.target = some y) =
      doc.links.countP fun l => l.source = s ∧ l.target = u := by
  rw [outgoing_record hs hid hx hn, List.countP_map, List.countP_filter]
  apply List.countP_congr
  intro l _
  simp only [Function.comp_apply, directory_qualify hs hy hm, Bool.and_eq_true,
    decide_eq_true_eq, beq_iff_eq, bne_iff_ne]
  constructor
  · rintro ⟨htarget, hsource, -⟩
    exact ⟨hsource, htarget⟩
  · rintro ⟨hsource, htarget⟩
    exact ⟨htarget, hsource, htarget ▸ hne⟩

theorem count_unresolved (hid : n.Places doc s) (hx : x ∈ (n.hosting doc).records)
    (hn : (n.hosting doc).name x = n.qualify s) :
    ((ofHierarchy (n.hosting doc)).outgoing x).countP (fun l => l.target = none) =
      doc.links.countP fun l => l.source = s ∧ l.target ≠ s ∧ ¬ n.Places doc l.target := by
  rw [outgoing_record hs hid hx hn, List.countP_map, List.countP_filter]
  apply List.countP_congr
  intro l _
  simp only [Function.comp_apply, directory_eq_none_iff hs, Bool.and_eq_true,
    decide_eq_true_eq, beq_iff_eq, bne_iff_ne]
  constructor
  · rintro ⟨hno, hsource, hne⟩
    exact ⟨hsource, hne, hno⟩
  · rintro ⟨hsource, hne, hno⟩
    exact ⟨hno, hsource, hne⟩

theorem no_loop (doc : Document) {l : Crosslink}
    (hl : l ∈ (ofHierarchy (n.hosting doc)).links) : l.target ≠ some l.source := by
  rw [links_eq, List.mem_flatMap] at hl
  obtain ⟨x, hx, hl⟩ := hl
  obtain ⟨-, id, hid, hn⟩ := (mem_records_hosting hs x).1 hx
  rw [linksFrom, imports_record hs hid hx hn, List.map_map] at hl
  obtain ⟨target, htarget, rfl⟩ := List.mem_map.1 hl
  obtain ⟨m, hm, rfl⟩ := List.mem_map.1 htarget
  have hcond := (List.mem_filter.1 hm).2
  have hne : m.target ≠ id := by
    simp only [Bool.and_eq_true, bne_iff_ne] at hcond
    exact hcond.2
  exact fun he => hne ((directory_qualify hs hx hn m.target).1 he)

/-- The links of one record that are drawn, by the names of their ends. -/
theorem drawn_record (hx : x ∈ (n.hosting doc).records) :
    ((ofHierarchy (n.hosting doc)).outgoing x).filterMap (fun l =>
        (l.target.map (n.hosting doc).name).map fun target =>
          ((n.hosting doc).name l.source, target)) =
      ((doc.links.filter fun l =>
        l.source ≠ l.target ∧ n.Places doc l.source ∧ n.Places doc l.target).filter fun l =>
          n.qualify l.source = (n.hosting doc).name x).map fun l =>
            (n.qualify l.source, n.qualify l.target) := by
  obtain ⟨-, s, hid, hn⟩ := (mem_records_hosting hs x).1 hx
  rw [outgoing_record hs hid hx hn, List.filterMap_map, List.filterMap_filter,
    List.filter_filter, ← List.filterMap_eq_map, List.filterMap_filter]
  apply List.filterMap_congr
  intro l _
  simp only [Function.comp_apply, directory_name hs, hn, n.qualify_injective.eq_iff]
  by_cases hsource : l.source = s
  · by_cases htarget : l.target = s
    · simp [hsource, htarget]
    · by_cases hplaced : n.Places doc l.target
      · simp [hsource, htarget, hplaced, hid, Ne.symm htarget]
      · simp [hplaced]
  · simp [hsource]

theorem bundles_perm (doc : Document) :
    ((Radial.ofDocument n doc).drawing.bundles.map fun b => (b.source, b.target)).Perm
      ((doc.links.filter fun l =>
        l.source ≠ l.target ∧ n.Places doc l.source ∧ n.Places doc l.target).map fun l =>
          (n.qualify l.source, n.qualify l.target)) := by
  have htree : (Radial.ofDocument n doc).tree = n.hosting doc := rfl
  have hgraph : (Radial.ofDocument n doc).graph = ofHierarchy (n.hosting doc) := rfl
  have hbundles := bundle_ends (Radial.ofDocument n doc)
  rw [htree, hgraph] at hbundles
  rw [hbundles, List.flatMap_congr fun x hx => drawn_record hs hx, ← List.map_flatMap]
  apply List.Perm.map
  have hkeys := record_names_nodup (hosting_kept hs doc).toRooted
  have hsources : ∀ l ∈ doc.links.filter fun l =>
      l.source ≠ l.target ∧ n.Places doc l.source ∧ n.Places doc l.target,
      n.qualify l.source ∈ (n.hosting doc).records.map (n.hosting doc).name := by
    intro l hl
    have hcond := (List.mem_filter.1 hl).2
    simp only [decide_eq_true_eq] at hcond
    obtain ⟨x, hx, hn⟩ := exists_record hs hcond.2.1
    exact List.mem_map.2 ⟨x, hx, hn⟩
  have hperm := flatMap_filter_perm (fun l : Document.Link => n.qualify l.source) _ hkeys _ hsources
  rwa [List.flatMap_map] at hperm

end Sound

structure Faithful (n : Naming) (doc : Document) (v : Views) : Prop where
  resolved : ∀ s u, n.Places doc s → n.Places doc u → u ≠ s → ∃ x y,
    v.radial.tree.lookup (n.qualify s) = some x ∧
    v.radial.tree.lookup (n.qualify u) = some y ∧
    (v.radial.graph.outgoing x).countP (fun l => l.target = some y) =
      doc.links.countP fun l => l.source = s ∧ l.target = u
  unresolved : ∀ s, n.Places doc s → ∃ x, v.radial.tree.lookup (n.qualify s) = some x ∧
    (v.radial.graph.outgoing x).countP (fun l => l.target = none) =
      doc.links.countP fun l => l.source = s ∧ l.target ≠ s ∧ ¬ n.Places doc l.target
  loopless : ∀ l, (l ∈ v.radial.graph.links ∨
      ∃ x, l ∈ v.radial.graph.outgoing x ∨ l ∈ v.radial.graph.incoming x) →
    l.target ≠ some l.source
  bundles : (v.drawing.radial.bundles.map fun b => (b.source, b.target)).Perm
    ((doc.links.filter fun l =>
      l.source ≠ l.target ∧ n.Places doc l.source ∧ n.Places doc l.target).map fun l =>
        (n.qualify l.source, n.qualify l.target))
  arcs : ∀ s u, (∃ v ∈ doc.nodes, v.id = s) → (∃ v ∈ doc.nodes, v.id = u) →
    (v.listing.arcs.toList.countP fun a =>
      v.listing.idAt a.source = s ∧ v.listing.idAt a.target = u) =
      doc.links.countP fun l => l.source = s ∧ l.target = u

/-- Links survive from the document into every view, each as often as it was
there. -/
theorem ofDocument_faithful (n : Naming) (doc : Document) (hs : n.Sound) :
    Faithful n doc (Views.ofDocument n doc) := by
  constructor
  · intro s u hsource htarget hne
    obtain ⟨x, hx, hn⟩ := exists_record hs hsource
    obtain ⟨y, hy, hm⟩ := exists_record hs htarget
    exact ⟨x, y, lookup_record hs hx hn, lookup_record hs hy hm,
      count_resolved hs hsource hx hn hy hm hne⟩
  · intro s hsource
    obtain ⟨x, hx, hn⟩ := exists_record hs hsource
    exact ⟨x, lookup_record hs hx hn, count_unresolved hs hsource hx hn⟩
  · rintro l (hl | ⟨x, hl | hl⟩)
    · exact no_loop hs doc hl
    · have hl' : l ∈ (ofHierarchy (n.hosting doc)).outgoing x := hl
      have hx : x ∈ (n.hosting doc).records := by
        by_contra hno
        rw [outgoing_eq, if_neg hno] at hl'
        cases hl'
      exact no_loop hs doc (List.mem_flatMap.2 ⟨x, hx, hl⟩)
    · have hl' : l ∈ (ofHierarchy (n.hosting doc)).incoming x := hl
      rw [incoming_eq] at hl'
      exact no_loop hs doc (List.mem_filter.1 hl').1
  · exact bundles_perm hs doc
  · exact Listing.count_arcs doc

theorem tangled_faithful : Naming.Sound ⟨"->", "app"⟩ ∧
    Faithful ⟨"->", "app"⟩ tangled (Views.ofDocument ⟨"->", "app"⟩ tangled) :=
  ⟨arrow_sound, ofDocument_faithful ⟨"->", "app"⟩ tangled arrow_sound⟩

end UseGraph
