import UseGraph.Proofs.Guarded.Listing
import UseGraph.Proofs.Guarded.Packing
import UseGraph.Proofs.Guarded.Radial
import UseGraph.Proofs.Recall

/-!
# Requests with every index checked

A display keeps rows, entries and arcs between one request and the next. What
it keeps was in range when it was found, and the tables never change, so each
request finds and leaves everything in range. Hence no document, naming or
requests lead to an index that is out of range.
-/

set_option autoImplicit false

namespace UseGraph

namespace Hover

variable {κ η : Type} {P : κ → Prop} {Q : η → Prop}

structure Keeps (P : κ → Prop) (Q : η → Prop) (h : Hover κ η) : Prop where
  place : ∀ k, h.place = some k → P k
  highlight : ∀ x, h.highlight = some x → Q x

theorem keeps_empty : Keeps P Q (empty : Hover κ η) := ⟨nofun, nofun⟩

variable [DecidableEq κ] {place : Option κ}

theorem keeps_point {f : κ → η} {h : Hover κ η} (hf : ∀ k, P k → Q (f k)) (hk : Keeps P Q h)
    (hp : ∀ k, place = some k → P k) :
    Keeps P Q (point (fun k => (pure (f k) : Id η)) place h).2 := by
  unfold point
  by_cases hs : h.place = place
  · simpa [hs, pure] using hk
  · cases place with
    | none =>
      rw [if_neg hs]
      exact keeps_empty
    | some k =>
      have hk := hp k rfl
      have hnew : Keeps P Q (⟨some k, some (f k)⟩ : Hover κ η) :=
        ⟨fun _ he => Option.some.inj he ▸ hk, fun _ he => Option.some.inj he ▸ hf k hk⟩
      simpa [hs, pure, bind] using hnew

theorem point_checked {ask : κ → Option η} {f : κ → η} (h : Hover κ η)
    (hask : ∀ k, place = some k → ask k = some (f k)) :
    point ask place h = some (point (fun k => (pure (f k) : Id η)) place h) := by
  unfold point
  by_cases hs : h.place = place
  · simp [hs, pure]
  · cases place with
    | none => simp [hs, pure]
    | some k => simp [hs, pure, bind, hask k rfl]

end Hover

structure Listing.Highlight.Within (v : Listing) (h : Listing.Highlight) : Prop where
  primary : h.primary < v.rows.size
  secondary : ∀ i ∈ h.secondary, i < v.rows.size
  arcs : ∀ k ∈ h.arcs, k < v.arcs.size

structure Radial.Highlight.Within (v : Radial) (h : Radial.Highlight) : Prop where
  leaf : h.leaf < v.tree.size
  incoming : ∀ l ∈ h.incoming, l.Within v.tree.size
  outgoing : ∀ l ∈ h.outgoing, l.Within v.tree.size
  sources : ∀ x ∈ h.sources, x < v.tree.size
  targets : ∀ x ∈ h.targets, x < v.tree.size

theorem Listing.within_highlight {v : Listing} (h : Numbered v) {i : Nat} (hi : i < v.rows.size) :
    (v.highlight i).Within v where
  primary := hi
  secondary := secondary_lt h
  arcs := lit_arcs_lt v i

theorem Radial.within_highlight {v : Radial} (h : v.graph.Linked) {id : Nat}
    (hid : id < v.tree.size) : (v.highlight id).Within v where
  leaf := hid
  incoming := h.incoming id
  outgoing := h.outgoing id
  sources x hx := by
    obtain ⟨l, hl, rfl⟩ := List.mem_map.1 hx
    exact (h.incoming id l hl).1
  targets x hx := by
    obtain ⟨l, hl, hlx⟩ := List.mem_filterMap.1 hx
    exact (h.outgoing id l hl).2 x hlx

structure Views.Indexed (v : Views) : Prop where
  listing : v.listing.Numbered
  radial : v.radial.graph.Linked
  packing : v.packing.Valued

theorem Views.indexed_ofDocument (n : Naming) (d : Document) : (ofDocument n d).Indexed where
  listing := Listing.numbered_ofDocument d
  radial := Crosslinked.linked_ofHierarchy (Hierarchy.Made.forgiving _ _ _).shaped
  packing := Packing.valued_ofHierarchy (Hierarchy.Made.forgiving _ _ _).shaped

namespace Display

structure InRange (s : Display) : Prop where
  views : s.views.Indexed
  row : s.row.Keeps (· < s.views.listing.rows.size) (Listing.Highlight.Within s.views.listing)
  leaf : s.leaf.Keeps (· < s.views.radial.tree.size) (Radial.Highlight.Within s.views.radial)
  root : s.focus.root < s.views.packing.tree.size
  focus : s.focus.current < s.views.packing.tree.size

theorem inRange_ofViews {v : Views} (h : v.Indexed) : InRange (.ofViews v) where
  views := h
  row := Hover.keeps_empty
  leaf := Hover.keeps_empty
  root := h.packing.shaped.root
  focus := h.packing.shaped.root

variable {s : Display}

theorem rowNamed_lt {id : Option String} {i : Nat} (h : s.rowNamed id = some i) :
    i < s.views.listing.rows.size := by
  obtain ⟨x, -, hx⟩ := Option.bind_eq_some_iff.1 h
  exact Listing.position?_lt hx

theorem leafNamed_lt {name : Option String} {id : Nat} (h : s.leafNamed name = some id) :
    id < s.views.radial.tree.size := by
  obtain ⟨x, -, hx⟩ := Option.bind_eq_some_iff.1 (Option.filter_eq_some_iff.1 h).1
  exact Hierarchy.lookup_lt hx

theorem zoomed_lt (h : InRange s) (name : Option String) :
    (s.zoomed name).2.root < s.views.packing.tree.size ∧
      (s.zoomed name).2.current < s.views.packing.tree.size := by
  have hzoom : ∀ id, id < s.views.packing.tree.size →
      (s.focus.zoom id).2.root < s.views.packing.tree.size ∧
        (s.focus.zoom id).2.current < s.views.packing.tree.size := by
    intro id hid
    unfold Packing.Focus.zoom
    split
    · exact ⟨h.root, h.focus⟩
    · exact ⟨h.root, hid⟩
  cases name with
  | none => exact hzoom s.focus.root h.root
  | some name =>
    simp only [zoomed]
    split
    · rename_i id hid
      split
      · exact ⟨h.root, h.focus⟩
      · exact hzoom id (Hierarchy.lookup_lt hid)
    · exact ⟨h.root, h.focus⟩

theorem inRange_respond (h : InRange s) (r : Viewer.Request) :
    InRange (Viewer.respond s r).2 := by
  cases r with
  | drawing => exact h
  | sort order =>
    rw [Viewer.respond, sort]
    cases SortOrder.read order with
    | error e => exact h
    | ok o => exact ⟨h.views, h.row, h.leaf, h.root, h.focus⟩
  | hoverRow id =>
    have hplace : ∀ i, s.rowNamed id = some i → i < s.views.listing.rows.size :=
      fun _ => rowNamed_lt
    have hrow := Hover.keeps_point (fun _ => Listing.within_highlight h.views.listing) h.row hplace
    exact ⟨h.views, hrow, h.leaf, h.root, h.focus⟩
  | rowHighlight => exact h
  | hoverLeaf name =>
    have hplace : ∀ x, s.leafNamed name = some x → x < s.views.radial.tree.size :=
      fun _ => leafNamed_lt
    have hleaf := Hover.keeps_point (fun _ => Radial.within_highlight h.views.radial) h.leaf hplace
    exact ⟨h.views, h.row, hleaf, h.root, h.focus⟩
  | leafHighlight => exact h
  | zoom name =>
    have hzoom := zoomed_lt h name
    exact ⟨h.views, h.row, h.leaf, hzoom.1, hzoom.2⟩
  | visibleLabels => exact h

theorem inRange_run (h : InRange s) (rs : List Viewer.Request) : InRange (Viewer.run s rs) := by
  induction rs generalizing s with
  | nil => exact h
  | cons r rs ih => exact ih (inRange_respond h r)

end Display

namespace Guarded

def ofDocument (n : Naming) (d : Document) : Option Views := do
  return ⟨← Listing.ofDocument d, ← Radial.ofDocument n d, ← Packing.ofDocument n d⟩

def drawing (v : Views) : Option Views.Drawing := do
  return ⟨← Listing.drawing v.listing, ← Radial.drawing v.radial,
    (← Packing.drawing v.packing .fresh).1⟩

section Definitions

variable (s : Display)

def rowOrder : Option (List String) := Listing.orderedIds s.views.listing s.order

def hoverRow (id : Option String) : Option (Bool × Display) := do
  let (changed, row) ← Hover.point (Listing.highlight s.views.listing) (s.rowNamed id) s.row
  return (changed, { s with row := row })

def leafNamed (name : Option String) : Option (Option Nat) := do
  match name.bind s.views.radial.tree.lookup with
  | none => return none
  | some id => return if ← isLeaf s.views.radial.tree id then some id else none

def hoverLeaf (name : Option String) : Option (Bool × Display) := do
  let place ← leafNamed s name
  let (changed, leaf) ← Hover.point (Radial.highlight s.views.radial) place s.leaf
  return (changed, { s with leaf := leaf })

def rowHighlight : Option (Option Display.RowHighlight) :=
  s.row.highlight.mapM fun h => do
    return ⟨← Listing.idAt s.views.listing h.primary,
      ← h.secondary.mapM (Listing.idAt s.views.listing),
      ← Listing.summary s.views.listing h.primary⟩

def leafHighlight : Option (Option Display.LeafHighlight) :=
  s.leaf.highlight.mapM fun h => do
    return ⟨← name s.views.radial.tree h.leaf, ← Radial.title s.views.radial h.leaf,
      ← h.sources.mapM (name s.views.radial.tree), ← h.targets.mapM (name s.views.radial.tree)⟩

def zoomed : Option String → Option (Bool × Packing.Focus)
  | none => some s.focus.reset
  | some name =>
    match s.views.packing.tree.lookup name with
    | some id => do
      return if ← isLeaf s.views.packing.tree id then (false, s.focus) else s.focus.zoom id
    | none => some (false, s.focus)

def zoom (name : Option String) : Option (Bool × Display) := do
  let (changed, focus) ← zoomed s name
  return (changed, { s with focus := focus })

def visibleLabels : Option (List String) := Packing.visibleLabels s.views.packing s.focus

def respond : Viewer.Request → Option (Except Fault Viewer.Reply × Display)
  | .drawing => do return (.ok (.text (← drawing s.views).toJson.write), s)
  | .sort order =>
    match s.sort order with
    | .error e => some (.error e, s)
    | .ok s => do return (.ok (.text (Json.texts (← rowOrder s)).write), s)
  | .hoverRow id => do
    let (changed, s) ← hoverRow s id
    return (.ok (.changed changed), s)
  | .rowHighlight => do
    let h ← rowHighlight s
    return (.ok (.text (Json.orNull (h.map Display.RowHighlight.toJson)).write), s)
  | .hoverLeaf name => do
    let (changed, s) ← hoverLeaf s name
    return (.ok (.changed changed), s)
  | .leafHighlight => do
    let h ← leafHighlight s
    return (.ok (.text (Json.orNull (h.map Display.LeafHighlight.toJson)).write), s)
  | .zoom name => do
    let (changed, s) ← zoom s name
    return (.ok (.changed changed), s)
  | .visibleLabels => do return (.ok (.text (Json.texts (← visibleLabels s)).write), s)

def run (rs : List Viewer.Request) : Option Display :=
  rs.foldlM (fun s r => do return (← respond s r).2) s

end Definitions

theorem ofDocument_eq (n : Naming) (d : Document) : ofDocument n d = some (.ofDocument n d) := by
  simp only [ofDocument, Listing.ofDocument_eq, Radial.ofDocument_eq, Packing.ofDocument_eq,
    Option.bind_eq_bind, Option.bind_some]
  rfl

theorem drawing_eq {v : Views} (h : v.Indexed) : drawing v = some v.drawing := by
  simp only [drawing, Listing.drawing_eq h.listing, Radial.drawing_eq h.radial,
    Packing.drawing_eq h.packing, Option.bind_eq_bind, Option.bind_some]
  rfl

section Reads

variable {s : Display} (h : s.InRange)
include h

theorem rowOrder_eq : rowOrder s = some s.rowOrder :=
  Listing.orderedIds_eq h.views.listing s.order

omit h in
theorem hoverRow_eq (id : Option String) : hoverRow s id = some (s.hoverRow id) := by
  have hask : ∀ i, s.rowNamed id = some i → Listing.highlight s.views.listing i =
      some (s.views.listing.highlight i) := fun i _ => Listing.highlight_eq s.views.listing i
  have hpoint := Hover.point_checked s.row hask
  simp only [hoverRow, hpoint, Option.bind_eq_bind, Option.bind_some]
  rfl

omit h in
theorem leafNamed_eq (name : Option String) : leafNamed s name = some (s.leafNamed name) := by
  rw [leafNamed, Display.leafNamed]
  cases hid : name.bind s.views.radial.tree.lookup with
  | none => rfl
  | some id =>
    obtain ⟨x, -, hx⟩ := Option.bind_eq_some_iff.1 hid
    simp [isLeaf_eq (Hierarchy.lookup_lt hx), Option.filter_some]

theorem hoverLeaf_eq (name : Option String) : hoverLeaf s name = some (s.hoverLeaf name) := by
  have hask : ∀ id, s.leafNamed name = some id → Radial.highlight s.views.radial id =
      some (s.views.radial.highlight id) :=
    fun _ hid => Radial.highlight_eq h.views.radial (Display.leafNamed_lt hid)
  have hpoint := Hover.point_checked s.leaf hask
  simp only [hoverLeaf, leafNamed_eq, hpoint, Option.bind_eq_bind, Option.bind_some]
  rfl

theorem rowHighlight_eq : rowHighlight s = some s.rowHighlight := by
  apply optional_eq
  intro x hx
  have hin := h.row.highlight x hx
  have hsecondary : x.secondary.mapM (Listing.idAt s.views.listing) =
      some (x.secondary.map s.views.listing.idAt) := by
    apply mapM_eq
    intro i hi
    exact Listing.idAt_eq (hin.secondary i hi)
  simp [Listing.idAt_eq hin.primary, hsecondary, Listing.summary_eq h.views.listing hin.primary]

theorem leafHighlight_eq : leafHighlight s = some s.leafHighlight := by
  apply optional_eq
  intro x hx
  have hin := h.leaf.highlight x hx
  simp [name_eq hin.leaf, Radial.title_eq h.views.radial hin.leaf, names_eq hin.sources,
    names_eq hin.targets]

omit h in
theorem zoom_eq (name : Option String) : zoom s name = some (s.zoom name) := by
  have hzoomed : zoomed s name = some (s.zoomed name) := by
    cases name with
    | none => rfl
    | some name =>
      rw [zoomed, Display.zoomed]
      cases hid : s.views.packing.tree.lookup name with
      | none => rfl
      | some id => simp [isLeaf_eq (Hierarchy.lookup_lt hid)]
  rw [zoom, hzoomed]
  rfl

theorem visibleLabels_eq : visibleLabels s = some s.visibleLabels :=
  Packing.visibleLabels_eq h.views.packing s.focus

theorem respond_eq (r : Viewer.Request) : respond s r = some (Viewer.respond s r) := by
  cases r with
  | drawing => simp [respond, drawing_eq h.views, Viewer.respond, Viewer.drawingText]
  | sort order =>
    rw [respond, Viewer.respond, Display.sort]
    cases SortOrder.read order with
    | error e => rfl
    | ok o =>
      have hs : ({ s with order := o } : Display).InRange :=
        ⟨h.views, h.row, h.leaf, h.root, h.focus⟩
      simp [rowOrder_eq hs]
  | hoverRow id => simp [respond, hoverRow_eq, Viewer.respond]
  | rowHighlight => simp [respond, rowHighlight_eq h, Viewer.respond]
  | hoverLeaf name => simp [respond, hoverLeaf_eq h, Viewer.respond]
  | leafHighlight => simp [respond, leafHighlight_eq h, Viewer.respond]
  | zoom name => simp [respond, zoom_eq, Viewer.respond]
  | visibleLabels => simp [respond, visibleLabels_eq h, Viewer.respond]

theorem run_eq (rs : List Viewer.Request) : run s rs = some (Viewer.run s rs) := by
  apply foldlM_eq (P := Display.InRange) ?_ h
  intro s hs r _
  exact ⟨by simp [respond_eq hs r], Display.inRange_respond hs r⟩

end Reads

/-- No table is read or changed beyond its end: the views are built, drawn and
asked with every index checked, and what comes out is what comes out without
the checks. -/
structure Unfailing (n : Naming) (d : Document) (rs : List Viewer.Request) (v : Views)
    (s : Display) : Prop where
  built : ofDocument n d = some v
  leaves : Radial.leaves v.radial = some v.radial.leaves
  drawn : drawing v = some v.drawing
  ran : run (.ofViews v) rs = some s
  rowOrder : rowOrder s = some s.rowOrder
  rowHighlight : rowHighlight s = some s.rowHighlight
  leafHighlight : leafHighlight s = some s.leafHighlight
  visibleLabels : visibleLabels s = some s.visibleLabels
  radial : v.radial.tree.Enclosed
  packing : v.packing.tree.Enclosed
  tables : v.radial.graph.adjacency.size = v.radial.tree.size ∧
    v.packing.values.size = v.packing.tree.size
  links : ∀ id, ∀ l ∈ v.radial.graph.outgoing id ++ v.radial.graph.incoming id,
    l.Within v.radial.tree.size
  arcs : ∀ a ∈ v.listing.arcs.toList,
    a.source < v.listing.rows.size ∧ a.target < v.listing.rows.size
  numbers : ∀ i, ∀ k ∈ v.listing.outgoingAt i ++ v.listing.incomingAt i, k < v.listing.arcs.size
  kept : s.InRange

theorem ofDocument_unfailing (n : Naming) (d : Document) (rs : List Viewer.Request) :
    Unfailing n d rs (.ofDocument n d) (Viewer.run (.ofViews (.ofDocument n d)) rs) := by
  have hv := Views.indexed_ofDocument n d
  have hs := Display.inRange_ofViews hv
  have hrun := Display.inRange_run hs rs
  exact
    { built := ofDocument_eq n d
      leaves := Radial.leaves_eq hv.radial
      drawn := drawing_eq hv
      ran := run_eq hs rs
      rowOrder := rowOrder_eq hrun
      rowHighlight := rowHighlight_eq hrun
      leafHighlight := leafHighlight_eq hrun
      visibleLabels := visibleLabels_eq hrun
      radial := hv.radial.shaped.enclosed
      packing := hv.packing.shaped.enclosed
      tables := ⟨hv.radial.size, hv.packing.size⟩
      links := fun id => List.forall_mem_append.2 ⟨hv.radial.outgoing id, hv.radial.incoming id⟩
      arcs := hv.listing.ends
      numbers := fun i k hk => by
        obtain ⟨a, ha, -⟩ := UseGraph.Listing.arc_at hv.listing hk
        exact (Array.getElem?_eq_some_iff.1 ha).1
      kept := hrun }

end Guarded

end UseGraph
