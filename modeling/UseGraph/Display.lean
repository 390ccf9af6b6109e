import UseGraph.Layout.Listing
import UseGraph.Layout.Packing
import UseGraph.Layout.Radial

/-!
# The three views and what is sorted, hovered and in focus

Each view stands on structures of its own, so an id that the hierarchies
cannot hold is missing from them only. A display is the state of one reader
before the three views, which never change themselves. Requests name rows by
id and entries by full name, and tell whether anything changed. Moving the
pointer within one place works nothing out again.
-/

set_option autoImplicit false

namespace UseGraph

structure Hover (κ η : Type) where
  place : Option κ
  highlight : Option η

namespace Hover

variable {κ η : Type} [DecidableEq κ]

def empty : Hover κ η := ⟨none, none⟩

def point {m : Type → Type} [Monad m] (compute : κ → m η) (place : Option κ)
    (h : Hover κ η) : m (Bool × Hover κ η) :=
  if h.place = place then pure (false, h)
  else
    match place with
    | none => pure (true, ⟨none, none⟩)
    | some k => do
      let found ← compute k
      pure (true, ⟨some k, some found⟩)

end Hover

structure Views where
  listing : Listing
  radial : Radial
  packing : Packing

namespace Views

def ofDocument (n : Naming) (d : Document) : Views :=
  ⟨Listing.ofDocument d, Radial.ofDocument n d, Packing.ofDocument n d⟩

def load (naming : Option String) (document : String) : Except Fault Views :=
  match Naming.read naming with
  | .error e => .error e
  | .ok n =>
    match Document.read document with
    | .error e => .error e
    | .ok d => .ok (ofDocument n d)

structure Drawing where
  listing : Listing.Drawing
  radial : Radial.Drawing
  packing : Outline Packing.Circle

def drawing (v : Views) : Drawing :=
  ⟨v.listing.drawing, v.radial.drawing, (v.packing.drawing .fresh).1⟩

end Views

structure Display where
  views : Views
  order : SortOrder
  row : Hover Nat Listing.Highlight
  leaf : Hover Nat Radial.Highlight
  focus : Packing.Focus

namespace Display

structure RowHighlight where
  primary : String
  secondary : List String
  summary : Listing.Summary
  deriving DecidableEq, Repr

structure LeafHighlight where
  leaf : String
  title : String
  incoming : List String
  outgoing : List String
  deriving DecidableEq, Repr

def ofViews (v : Views) : Display := ⟨v, .name, .empty, .empty, v.packing.focus⟩

def rowOrder (s : Display) : List String := s.views.listing.orderedIds s.order

def sort (s : Display) (order : String) : Except Fault Display :=
  match SortOrder.read order with
  | .error e => .error e
  | .ok o => .ok { s with order := o }

def rowNamed (s : Display) (id : Option String) : Option Nat :=
  id.bind s.views.listing.position?

def leafNamed (s : Display) (name : Option String) : Option Nat :=
  (name.bind s.views.radial.tree.lookup).filter s.views.radial.tree.isLeaf

def hoverRow (s : Display) (id : Option String) : Bool × Display :=
  let (changed, row) := Hover.point (fun i => (pure (s.views.listing.highlight i) : Id _))
    (s.rowNamed id) s.row
  (changed, { s with row := row })

def hoverLeaf (s : Display) (name : Option String) : Bool × Display :=
  let (changed, leaf) := Hover.point (fun i => (pure (s.views.radial.highlight i) : Id _))
    (s.leafNamed name) s.leaf
  (changed, { s with leaf := leaf })

def rowHighlight (s : Display) : Option RowHighlight :=
  s.row.highlight.map fun h =>
    { primary := s.views.listing.idAt h.primary
      secondary := h.secondary.map s.views.listing.idAt
      summary := s.views.listing.summary h.primary }

def leafHighlight (s : Display) : Option LeafHighlight :=
  s.leaf.highlight.map fun h =>
    { leaf := s.views.radial.tree.name h.leaf
      title := s.views.radial.title h.leaf
      incoming := h.sources.map s.views.radial.tree.name
      outgoing := h.targets.map s.views.radial.tree.name }

def zoomed (s : Display) : Option String → Bool × Packing.Focus
  | none => s.focus.reset
  | some name =>
    match s.views.packing.tree.lookup name with
    | some id => if s.views.packing.tree.isLeaf id then (false, s.focus) else s.focus.zoom id
    | none => (false, s.focus)

def zoom (s : Display) (name : Option String) : Bool × Display :=
  ((s.zoomed name).1, { s with focus := (s.zoomed name).2 })

def visibleLabels (s : Display) : List String :=
  (s.views.packing.circles.filter (s.views.packing.labelVisible s.focus)).map
    s.views.packing.tree.segment

end Display

end UseGraph
