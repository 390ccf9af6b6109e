import UseGraph.Proofs.Meaning
import UseGraph.Viewer

/-!
# Texts for the host, read back

A reader for every kind of value that the host is sent. A member that is left
out is not one that is empty or `null`, so the reader tells a leaf from a
container without children, and finds each value in its text again.
-/

set_option autoImplicit false

namespace UseGraph

namespace Json

variable {α : Type} {read : Json → Option α} {write : α → Json}

def texts? (v : Json) : Option (List String) := Document.list? text? v

def orNull? (read : Json → Option α) : Json → Option (Option α)
  | .null => some none
  | v => (read v).map some

def whereGiven? (read : Json → Option α) (f : Option Json) : Option (Option α) :=
  orDefault none (fun v => (read v).map some) f

theorem shows_ofMembers (fields : List (String × Option Json)) :
    Shows fields (ofMembers fields) :=
  .obj (List.forall_mem_nil _) (by rw [List.append_nil]; rfl)

theorem text?_text (s : String) : (text s).text? = some s := text?_eq_some_iff.2 rfl

theorem list?_arr (h : ∀ a, read (write a) = some a) (as : List α) :
    Document.list? read (.arr (as.map write)) = some as := by
  have hall : List.Forall₂ (fun v a => read v = some a) (as.map write) as :=
    List.forall₂_map_left_iff.2 (List.forall₂_same.2 fun a _ => h a)
  exact (Document.list?_eq_some_iff fun _ _ => Iff.rfl).2 ⟨_, rfl, hall⟩

theorem texts?_texts (ss : List String) : (texts ss).texts? = some ss := list?_arr text?_text ss

theorem orNull?_orNull (hnull : read .null = none) (h : ∀ a, read (write a) = some a)
    (a : Option α) : orNull? read (orNull (a.map write)) = some a := by
  cases a with
  | none => rfl
  | some a =>
    have hread := h a
    rw [Option.map_some, orNull]
    cases hv : write a with
    | null =>
      rw [hv, hnull] at hread
      cases hread
    | _ =>
      rw [hv] at hread
      rw [orNull?, hread, Option.map_some]
      intro hn
      cases hn

theorem whereGiven?_map (h : ∀ a, read (write a) = some a) (a : Option α) :
    whereGiven? read (a.map write) = some a := by
  cases a with
  | none => rfl
  | some a =>
    rw [Option.map_some, whereGiven?, orDefault, h a]
    rfl

end Json

open Json

namespace Outline

variable {α : Type} {read : Json → Option α} {write : α → Option (List Json) → Json}

mutual

def ofJson? (read : Json → Option α) : Json → Option (Outline α)
  | .obj members => do
    let a ← read (.obj members)
    match ← children? read members with
    | none => return .leaf a
    | some cs => return .container a cs
  | _ => none

def children? (read : Json → Option α) :
    List (Option String × Json) → Option (Option (List (Outline α)))
  | [] => some none
  | (k, v) :: members =>
    if k = some "children" then (list? read v).map some else children? read members

def list? (read : Json → Option α) : Json → Option (List (Outline α))
  | .arr vs => all? read vs
  | _ => none

def all? (read : Json → Option α) : List Json → Option (List (Outline α))
  | [] => some []
  | v :: vs => do return (← ofJson? read v) :: (← all? read vs)

end

structure Labelled (read : Json → Option α) (write : α → Option (List Json) → Json) : Prop where
  label : ∀ a cs, read (write a cs) = some a
  children : ∀ a cs, ∃ before after : List (String × Option Json),
    write a cs = .ofMembers (before ++ ("children", cs.map .arr) :: after) ∧
      "children" ∉ before.map Prod.fst ∧ "children" ∉ after.map Prod.fst

theorem children?_append {before : List (String × Option Json)}
    (h : "children" ∉ before.map Prod.fst) (after : List (Option String × Json)) :
    children? read (membersOf before ++ after) = children? read after := by
  have hkeys : ∀ m ∈ membersOf before, m.1 ≠ some "children" := by
    rintro ⟨k, w⟩ hm hk
    obtain ⟨name, rfl, hname⟩ := mem_membersOf.1 hm
    obtain rfl := Option.some.inj hk
    exact h (List.mem_map_of_mem hname)
  generalize membersOf before = members at hkeys ⊢
  induction members with
  | nil => rfl
  | cons m members ih =>
    obtain ⟨hm, hrest⟩ := List.forall_mem_cons.1 hkeys
    rw [List.cons_append, children?, if_neg hm, ih hrest]

/-- The children of a node are found among the members of its label. -/
theorem Labelled.ofJson?_write (h : Labelled read write) (a : α) (cs : Option (List Json)) :
    ofJson? read (write a cs) =
      match cs with
      | none => some (.leaf a)
      | some vs => (all? read vs).map (.container a) := by
  obtain ⟨before, after, hmembers, hbefore, hafter⟩ := h.children a cs
  have hread := h.label a cs
  have hobj : write a cs = .obj (membersOf before ++
      (((cs.map .arr).map fun v => (some "children", v)).toList ++ membersOf after)) := by
    rw [hmembers, ← membersOf_cons, membersOf, membersOf, ← List.filterMap_append]
    rfl
  have hnone : children? read (membersOf after) = some none := by
    have happ : children? read (membersOf after ++ []) = children? read [] :=
      children?_append hafter []
    rwa [List.append_nil] at happ
  rw [hobj] at hread ⊢
  rw [ofJson?, hread, children?_append hbefore]
  cases cs with
  | none =>
    rw [Option.map_none, Option.map_none, Option.toList_none, List.nil_append, hnone]
    rfl
  | some vs =>
    rw [Option.map_some, Option.map_some, Option.toList_some, List.singleton_append, children?,
      if_pos rfl, list?]
    show _ = (all? read vs).map (container a)
    cases all? read vs <;> rfl

mutual

/-- By induction on the outline, its children read back before it. -/
theorem ofJson?_fold (h : Labelled read write) : ∀ o, ofJson? read (o.fold write) = some o
  | .leaf a => h.ofJson?_write a none
  | .container a cs => by
    have hwrite : ofJson? read (write a (some (foldAll write cs))) =
        (all? read (foldAll write cs)).map (container a) := h.ofJson?_write a _
    rw [fold, hwrite, all?_foldAll h cs, Option.map_some]

theorem all?_foldAll (h : Labelled read write) : ∀ cs, all? read (foldAll write cs) = some cs
  | [] => rfl
  | c :: cs => by
    rw [foldAll, all?, ofJson?_fold h c, all?_foldAll h cs]
    rfl

end

end Outline

namespace Radial

def Label.ofJson? (v : Json) : Option Label := do
  match ← v.fields? ["name", "fullName", "displayName", "size", "children", "outgoing",
      "incoming"] with
  | [some name, some fullName, some displayName, size, _, some outgoing, some incoming] =>
    return ⟨← name.text?, ← fullName.text?, ← displayName.text?,
      ← whereGiven? Document.group? size, ← Document.list? (orNull? text?) outgoing,
      ← incoming.texts?⟩
  | _ => none

def Bundle.ofJson? (v : Json) : Option Bundle := do
  match ← v.fields? ["source", "target", "route"] with
  | [some source, some target, some route] =>
    return ⟨← source.text?, ← target.text?, ← route.texts?⟩
  | _ => none

def Drawing.ofJson? (v : Json) : Option Drawing := do
  match ← v.fields? ["tree", "bundles"] with
  | [some tree, some bundles] =>
    return ⟨← Outline.ofJson? Label.ofJson? tree, ← Document.list? Bundle.ofJson? bundles⟩
  | _ => none

theorem label_labelled : Outline.Labelled Label.ofJson? Label.toJson := by
  constructor
  · intro l cs
    have hnames : ["name", "fullName", "displayName", "size", "children", "outgoing",
        "incoming"].Nodup := by decide
    have hfs : (l.toJson cs).fields? ["name", "fullName", "displayName", "size", "children",
        "outgoing", "incoming"] = some [some (.text l.name), some (.text l.fullName),
        some (.text l.displayName), l.size.map fun n => .nat n.toNat, cs.map .arr,
        some (.arr (l.outgoing.map fun t => .orNull (t.map .text))), some (.texts l.incoming)] :=
      (fields?_eq_some_iff hnames rfl).2 (shows_ofMembers _)
    have hsize : whereGiven? Document.group? (l.size.map fun n => .nat n.toNat) = some l.size :=
      whereGiven?_map (fun _ => Document.group?_eq_some_iff.2 rfl) l.size
    have houtgoing : Document.list? (orNull? text?)
        (.arr (l.outgoing.map fun t => .orNull (t.map .text))) = some l.outgoing :=
      list?_arr (orNull?_orNull rfl text?_text) l.outgoing
    rw [Label.ofJson?, hfs]
    simp only [Option.bind_eq_bind, Option.bind_some, text?_text, hsize, houtgoing, texts?_texts,
      Option.pure_def]
  · intro l cs
    exact ⟨[("name", some (.text l.name)), ("fullName", some (.text l.fullName)),
      ("displayName", some (.text l.displayName)), ("size", l.size.map fun n => .nat n.toNat)],
      [("outgoing", some (.arr (l.outgoing.map fun t => .orNull (t.map .text)))),
      ("incoming", some (.texts l.incoming))], rfl, by simp, by simp⟩

theorem ofJson?_bundle (b : Bundle) : Bundle.ofJson? b.toJson = some b := by
  have hnames : ["source", "target", "route"].Nodup := by decide
  have hfs : b.toJson.fields? ["source", "target", "route"] =
      some [some (.text b.source), some (.text b.target), some (.texts b.route)] :=
    (fields?_eq_some_iff hnames rfl).2 (shows_ofMembers _)
  rw [Bundle.ofJson?, hfs]
  simp only [Option.bind_eq_bind, Option.bind_some, text?_text, texts?_texts, Option.pure_def]

theorem ofJson?_drawing (d : Drawing) : Drawing.ofJson? d.toJson = some d := by
  have hnames : ["tree", "bundles"].Nodup := by decide
  have hfs : d.toJson.fields? ["tree", "bundles"] =
      some [some (d.tree.fold Label.toJson), some (.arr (d.bundles.map Bundle.toJson))] :=
    (fields?_eq_some_iff hnames rfl).2 (shows_ofMembers _)
  rw [Drawing.ofJson?, hfs]
  simp only [Option.bind_eq_bind, Option.bind_some, Outline.ofJson?_fold label_labelled,
    list?_arr ofJson?_bundle, Option.pure_def]

end Radial

namespace Packing

def Circle.ofJson? (v : Json) : Option Circle := do
  match ← v.fields? ["uid", "name", "value", "children"] with
  | [some uid, some name, some value, _] => return ⟨← uid.text?, ← name.text?, ← value.nat?⟩
  | _ => none

def drawing? (v : Json) : Option (Outline Circle) := Outline.ofJson? Circle.ofJson? v

theorem circle_labelled : Outline.Labelled Circle.ofJson? Circle.toJson := by
  constructor
  · intro c cs
    have hnames : ["uid", "name", "value", "children"].Nodup := by decide
    have hfs : (c.toJson cs).fields? ["uid", "name", "value", "children"] =
        some [some (.text c.uid), some (.text c.name), some (.nat c.value), cs.map .arr] :=
      (fields?_eq_some_iff hnames rfl).2 (shows_ofMembers _)
    rw [Circle.ofJson?, hfs]
    simp only [Option.bind_eq_bind, Option.bind_some, text?_text, nat?_eq_some_iff.2 rfl,
      Option.pure_def]
  · intro c cs
    exact ⟨[("uid", some (.text c.uid)), ("name", some (.text c.name)),
      ("value", some (.nat c.value))], [], rfl, by simp, by simp⟩

theorem drawing?_drawingJson (o : Outline Circle) : drawing? (drawingJson o) = some o :=
  Outline.ofJson?_fold circle_labelled o

end Packing

namespace Listing

def Summary.ofJson? (v : Json) : Option Summary := do
  match ← v.fields? ["id", "usedBy", "uses"] with
  | [some id, some usedBy, some uses] =>
    return ⟨← id.text?, ← usedBy.texts?, ← uses.texts?⟩
  | _ => none

theorem ofJson?_summary (s : Summary) : Summary.ofJson? s.toJson = some s := by
  have hnames : ["id", "usedBy", "uses"].Nodup := by decide
  have hfs : s.toJson.fields? ["id", "usedBy", "uses"] =
      some [some (.text s.id), some (.texts s.usedBy), some (.texts s.uses)] :=
    (fields?_eq_some_iff hnames rfl).2 (shows_ofMembers _)
  rw [Summary.ofJson?, hfs]
  simp only [Option.bind_eq_bind, Option.bind_some, text?_text, texts?_texts, Option.pure_def]

end Listing

namespace Display

def RowHighlight.ofJson? (v : Json) : Option RowHighlight := do
  match ← v.fields? ["primary", "secondary", "summary"] with
  | [some primary, some secondary, some summary] =>
    return ⟨← primary.text?, ← secondary.texts?, ← Listing.Summary.ofJson? summary⟩
  | _ => none

def LeafHighlight.ofJson? (v : Json) : Option LeafHighlight := do
  match ← v.fields? ["leaf", "title", "incoming", "outgoing"] with
  | [some leaf, some title, some incoming, some outgoing] =>
    return ⟨← leaf.text?, ← title.text?, ← incoming.texts?, ← outgoing.texts?⟩
  | _ => none

theorem ofJson?_rowHighlight (h : RowHighlight) : RowHighlight.ofJson? h.toJson = some h := by
  have hnames : ["primary", "secondary", "summary"].Nodup := by decide
  have hfs : h.toJson.fields? ["primary", "secondary", "summary"] =
      some [some (.text h.primary), some (.texts h.secondary), some h.summary.toJson] :=
    (fields?_eq_some_iff hnames rfl).2 (shows_ofMembers _)
  rw [RowHighlight.ofJson?, hfs]
  simp only [Option.bind_eq_bind, Option.bind_some, text?_text, texts?_texts,
    Listing.ofJson?_summary, Option.pure_def]

theorem ofJson?_leafHighlight (h : LeafHighlight) : LeafHighlight.ofJson? h.toJson = some h := by
  have hnames : ["leaf", "title", "incoming", "outgoing"].Nodup := by decide
  have hfs : h.toJson.fields? ["leaf", "title", "incoming", "outgoing"] =
      some [some (.text h.leaf), some (.text h.title), some (.texts h.incoming),
        some (.texts h.outgoing)] :=
    (fields?_eq_some_iff hnames rfl).2 (shows_ofMembers _)
  rw [LeafHighlight.ofJson?, hfs]
  simp only [Option.bind_eq_bind, Option.bind_some, text?_text, texts?_texts, Option.pure_def]

end Display

def Views.Drawing.hierarchies? (v : Json) : Option (Radial.Drawing × Outline Packing.Circle) := do
  match ← v.fields? ["vertical", "radial", "packing"] with
  | [some _, some radial, some packing] =>
    return (← Radial.Drawing.ofJson? radial, ← Packing.drawing? packing)
  | _ => none

theorem Views.hierarchies?_drawing (d : Views.Drawing) :
    Views.Drawing.hierarchies? d.toJson = some (d.radial, d.packing) := by
  have hnames : ["vertical", "radial", "packing"].Nodup := by decide
  have hfs : d.toJson.fields? ["vertical", "radial", "packing"] =
      some [some d.listing.toJson, some d.radial.toJson, some (Packing.drawingJson d.packing)] :=
    (fields?_eq_some_iff hnames rfl).2 (shows_ofMembers _)
  rw [Views.Drawing.hierarchies?, hfs]
  simp only [Option.bind_eq_bind, Option.bind_some, Radial.ofJson?_drawing,
    Packing.drawing?_drawingJson, Option.pure_def]

structure Lossless {α : Type} (text : α → String) (read : Json → Option α) : Prop where
  valid : ∀ a, ∃ v : Json, v.Spells (text a).toList
  recovered : ∀ a, (Json.read? (text a)).bind read = some a
  distinct : Function.Injective text

theorem lossless_write {α : Type} {write : α → Json} {read : Json → Option α}
    (h : ∀ a, read (write a) = some a) : Lossless (fun a => (write a).write) read := by
  have hback : ∀ a, (Json.read? (write a).write).bind read = some a := by
    intro a
    rw [read?_write, Option.bind_some, h a]
  refine ⟨fun a => ⟨write a, spells_write _⟩, hback, ?_⟩
  intro a b hab
  have hsame : some a = some b := by
    rw [← hback a, ← hback b]
    exact congrArg (fun s => (Json.read? s).bind read) hab
  exact Option.some.inj hsame

namespace Viewer

theorem spells_reply {s : Display} {r : Request} {text : String}
    (h : (respond s r).1 = .ok (.text text)) : ∃ v : Json, v.Spells text.toList := by
  cases r with
  | drawing =>
    cases h
    exact ⟨_, spells_write _⟩
  | sort order =>
    simp only [respond] at h
    cases ho : s.sort order with
    | error e =>
      rw [ho] at h
      cases h
    | ok s' =>
      rw [ho] at h
      cases h
      exact ⟨_, spells_write _⟩
  | rowHighlight =>
    cases h
    exact ⟨_, spells_write _⟩
  | leafHighlight =>
    cases h
    exact ⟨_, spells_write _⟩
  | visibleLabels =>
    cases h
    exact ⟨_, spells_write _⟩
  | _ => cases h

/-- What the host is sent can be read again: both drawings of the hierarchy, alone and within
the text of all views, both highlights, and the lists of ids and labels. -/
structure Recoverable : Prop where
  reply : ∀ s r text, (respond s r).1 = .ok (.text text) → ∃ v : Json, v.Spells text.toList
  radial : Lossless (fun d : Radial.Drawing => d.toJson.write) Radial.Drawing.ofJson?
  packing : Lossless (fun o => (Packing.drawingJson o).write) Packing.drawing?
  both : ∀ d : Views.Drawing,
    (Json.read? d.toJson.write).bind Views.Drawing.hierarchies? = some (d.radial, d.packing)
  row : Lossless (fun h => (orNull (h.map Display.RowHighlight.toJson)).write)
    (orNull? Display.RowHighlight.ofJson?)
  leaf : Lossless (fun h => (orNull (h.map Display.LeafHighlight.toJson)).write)
    (orNull? Display.LeafHighlight.ofJson?)
  texts : Lossless (fun ss => (Json.texts ss).write) Json.texts?

theorem texts_recoverable : Recoverable where
  reply _ _ _ h := spells_reply h
  radial := lossless_write Radial.ofJson?_drawing
  packing := lossless_write Packing.drawing?_drawingJson
  both d := by
    rw [read?_write, Option.bind_some, Views.hierarchies?_drawing]
  row := lossless_write (orNull?_orNull rfl Display.ofJson?_rowHighlight)
  leaf := lossless_write (orNull?_orNull rfl Display.ofJson?_leafHighlight)
  texts := lossless_write texts?_texts

end Viewer

end UseGraph
