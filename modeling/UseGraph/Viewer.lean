import UseGraph.Display

/-!
# The viewer

A host page opens a document and sends requests; every answer that is not a
mere flag is a JSON text. A refused request changes nothing. Members of a
drawing come in a fixed order, and a part that it does not have is left out,
with one exception: a use without a target is `null` in its place.
-/

set_option autoImplicit false

namespace UseGraph

namespace Json

def ofMembers (members : List (String × Option Json)) : Json :=
  .obj (members.filterMap fun (k, v) => v.map fun v => (some k, v))

def float (x : Float) : Json :=
  match Decimal.ofFloat? x with
  | some n => .num n
  | none => .null

def orNull : Option Json → Json
  | some v => v
  | none => .null

end Json

namespace Listing

def Summary.members (s : Summary) : List (String × Option Json) :=
  [("id", some (.text s.id)), ("usedBy", some (.texts s.usedBy)),
    ("uses", some (.texts s.uses))]

def Summary.toJson (s : Summary) : Json := .ofMembers s.members

def Label.toJson (l : Label) : Json :=
  .ofMembers (l.summary.members
    ++ [("group", some (.nat l.group.toNat)), ("frequency", some (.float l.frequency))])

def Curve.toJson (c : Curve) : Json :=
  .ofMembers [("source", some (.text c.source)), ("target", some (.text c.target)),
    ("value", some (.float c.value))]

def Drawing.toJson (d : Drawing) : Json :=
  .ofMembers [("nodes", some (.arr (d.rows.map Label.toJson))),
    ("links", some (.arr (d.curves.map Curve.toJson))),
    ("orders", some (.ofMembers [("group", some (.texts d.group)),
      ("name", some (.texts d.name)), ("frequency", some (.texts d.frequency))]))]

end Listing

namespace Radial

def Label.toJson (l : Label) (children : Option (List Json)) : Json :=
  .ofMembers [("name", some (.text l.name)), ("fullName", some (.text l.fullName)),
    ("displayName", some (.text l.displayName)),
    ("size", l.size.map fun n => .nat n.toNat),
    ("children", children.map .arr),
    ("outgoing", some (.arr (l.outgoing.map fun t => .orNull (t.map .text)))),
    ("incoming", some (.texts l.incoming))]

def Bundle.toJson (b : Bundle) : Json :=
  .ofMembers [("source", some (.text b.source)), ("target", some (.text b.target)),
    ("route", some (.texts b.route))]

def Drawing.toJson (d : Drawing) : Json :=
  .ofMembers [("tree", some (d.tree.fold Label.toJson)),
    ("bundles", some (.arr (d.bundles.map Bundle.toJson)))]

end Radial

namespace Packing

def Circle.toJson (c : Circle) (children : Option (List Json)) : Json :=
  .ofMembers [("uid", some (.text c.uid)), ("name", some (.text c.name)),
    ("value", some (.nat c.value)), ("children", children.map .arr)]

def drawingJson (o : Outline Circle) : Json := o.fold Circle.toJson

end Packing

def Views.Drawing.toJson (d : Views.Drawing) : Json :=
  .ofMembers [("vertical", some d.listing.toJson), ("radial", some d.radial.toJson),
    ("packing", some (Packing.drawingJson d.packing))]

namespace Display

def RowHighlight.toJson (h : RowHighlight) : Json :=
  .ofMembers [("primary", some (.text h.primary)), ("secondary", some (.texts h.secondary)),
    ("summary", some h.summary.toJson)]

def LeafHighlight.toJson (h : LeafHighlight) : Json :=
  .ofMembers [("leaf", some (.text h.leaf)), ("title", some (.text h.title)),
    ("incoming", some (.texts h.incoming)), ("outgoing", some (.texts h.outgoing))]

end Display

namespace Viewer

inductive Request where
  | drawing
  | sort (order : String)
  | hoverRow (id : Option String)
  | rowHighlight
  | hoverLeaf (name : Option String)
  | leafHighlight
  | zoom (name : Option String)
  | visibleLabels
  deriving DecidableEq, Repr

inductive Reply where
  | changed (flag : Bool)
  | text (json : String)
  deriving DecidableEq, Repr

def load (naming : Option String) (document : String) : Except Fault Display :=
  match Views.load naming document with
  | .error e => .error e
  | .ok v => .ok (.ofViews v)

def drawingText (v : Views) : String := v.drawing.toJson.write

def respond (s : Display) : Request → Except Fault Reply × Display
  | .drawing => (.ok (.text (drawingText s.views)), s)
  | .sort order =>
    match s.sort order with
    | .error e => (.error e, s)
    | .ok s => (.ok (.text (Json.texts s.rowOrder).write), s)
  | .hoverRow id => (.ok (.changed (s.hoverRow id).1), (s.hoverRow id).2)
  | .rowHighlight =>
    (.ok (.text (Json.orNull (s.rowHighlight.map Display.RowHighlight.toJson)).write), s)
  | .hoverLeaf name => (.ok (.changed (s.hoverLeaf name).1), (s.hoverLeaf name).2)
  | .leafHighlight =>
    (.ok (.text (Json.orNull (s.leafHighlight.map Display.LeafHighlight.toJson)).write), s)
  | .zoom name => (.ok (.changed (s.zoom name).1), (s.zoom name).2)
  | .visibleLabels => (.ok (.text (Json.texts s.visibleLabels).write), s)

def textOf (document : String) : Except Fault String :=
  match Views.load none document with
  | .error e => .error e
  | .ok v => .ok (drawingText v)

end Viewer

end UseGraph
