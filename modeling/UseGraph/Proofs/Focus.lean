import UseGraph.Proofs.Fallback
import UseGraph.Proofs.Orders
import UseGraph.Proofs.Recall

/-!
# What has the focus and what it shows

Requests move the focus from container to container, and every container can
be reached by its name. The circles are the children of all that the walk
visits, so those with the focus as parent stand together, as they were
attached. A container out of the walk's reach has children as well, but none
of them is drawn.
-/

set_option autoImplicit false

namespace UseGraph

namespace Hierarchy

variable {α : Type} {t : Hierarchy α} {id x : Nat}

theorem Made.lookup_name (h : Made t) (hx : x < t.size) : t.lookup (t.name x) = some x := by
  rcases h.built_or_lone with ⟨d, rs, hb⟩ | ⟨stem, d, rfl⟩
  · exact (hb.lookup_iff _ x).2 ⟨hx, rfl⟩
  · have h0 : x = 0 := Nat.lt_one_iff.1 hx
    subst h0
    simp [lookup, name, entry?, lone, Forest.attach, Forest.find?]

theorem Made.children_increasing (h : Made t) (id : Nat) : (t.children id).Pairwise (· < ·) := by
  rcases h.built_or_lone with ⟨d, rs, hb⟩ | ⟨stem, d, rfl⟩
  · exact hb.toRooted.children_increasing id
  · rw [lone_children]
    exact List.Pairwise.nil

theorem Made.parent_container {p : Nat} (h : Made t) (hp : t.parent? x = some p) :
    p < t.size ∧ t.isLeaf p = false := by
  rcases h.built_or_lone with ⟨d, rs, hb⟩ | ⟨stem, d, rfl⟩
  · exact ⟨((hb.parent?_iff x p).1 hp).2.1, (hb.coherent.parent x p hp).2.1⟩
  · rw [lone_parent?] at hp
    cases hp

/-- Whatever the forgiving build returns, nothing in it is out of reach unless
the delimiter overlaps itself. -/
theorem ofUsableRecords_reached {d : String} (hu : Text.Unbordered d.toList)
    (rs : List (Record α)) (stem : String) (hx : x < (ofUsableRecords rs d stem).size) :
    Climbs (ofUsableRecords rs d stem).parent? x (ofUsableRecords rs d stem).root := by
  rcases ofUsableRecords_cases rs d stem with hl | hok
  · rw [hl] at hx ⊢
    have h0 : x = 0 := Nat.lt_one_iff.1 hx
    exact h0 ▸ Climbs.refl 0
  · exact (kept_of_built hu (built_of_ok hok) rfl).reached hx

namespace Shaped

variable (h : Shaped t)
include h

theorem filter_children (p id : Nat) : (t.children id).filter (fun x => t.parent? x == some p) =
    if id = p then t.children p else [] := by
  have hparent : ∀ x ∈ t.children id, t.parent? x = some id := fun x hx =>
    (h.mem_children x id).1 hx
  split
  · rename_i he
    subst he
    rw [List.filter_eq_self]
    intro x hx
    rw [hparent x hx, beq_self_eq_true]
  · rename_i hne
    rw [List.filter_eq_nil_iff]
    intro x hx
    rw [hparent x hx, beq_iff_eq, Option.some.injEq]
    exact hne

/-- Among the children of entries that differ, those of one of them stay in
their order. -/
theorem filter_flatMap_children {ids : List Nat} (hn : ids.Nodup) (p : Nat) :
    (ids.flatMap t.children).filter (fun x => t.parent? x == some p) =
      if p ∈ ids then t.children p else [] := by
  induction ids with
  | nil => rfl
  | cons id ids ih =>
    obtain ⟨hid, hids⟩ := List.nodup_cons.1 hn
    rw [List.flatMap_cons, List.filter_append, h.filter_children, ih hids]
    by_cases he : id = p
    · subst he
      simp [hid]
    · simp [he, Ne.symm he]

end Shaped

end Hierarchy

open Hierarchy

namespace Packing

variable {v : Packing} {x p : Nat} (h : Shaped v.tree)
include h

theorem circles_eq : v.circles = v.tree.descendants.flatMap v.tree.children := by
  rw [circles, h.descendants_eq, List.drop_one, List.tail_cons, ← h.descendants_eq]

/-- The labels in sight are those of the children, if the walk comes to the
focus at all. -/
theorem filter_circles (f : Focus) : v.circles.filter (v.labelVisible f) =
    if f.current ∈ v.tree.descendants then v.tree.children f.current else [] := by
  rw [circles_eq h]
  exact h.filter_flatMap_children (descendants_nodup h) f.current

theorem parent_of_circle (hx : x ∈ v.circles) : ∃ p, v.tree.parent? x = some p := by
  rw [circles_eq h] at hx
  obtain ⟨p, -, hp⟩ := List.mem_flatMap.1 hx
  exact ⟨p, (h.mem_children x p).1 hp⟩

end Packing

namespace Viewer

open Request

variable {v : Views} {x p : Nat}

def Attainable (v : Views) (p : Nat) : Prop := ∃ rs, (run (.ofViews v) rs).focus.current = p

def Contains (v : Views) (p : Nat) : Prop :=
  p < v.packing.tree.size ∧ v.packing.tree.isLeaf p = false

/-- What is seen of the nested circles in one state of the display. Indices
rise as entries are attached, so rising children are in that order. -/
structure Focused (v : Views) (s : Display) : Prop where
  container : Contains v s.focus.current
  shown : Climbs v.packing.tree.parent? s.focus.current v.packing.tree.root →
    s.visibleLabels = (v.packing.tree.children s.focus.current).map v.packing.tree.segment
  hidden : ¬ Climbs v.packing.tree.parent? s.focus.current v.packing.tree.root →
    s.visibleLabels = []
  attached : (v.packing.tree.children s.focus.current).Pairwise (· < ·)

/-- Nothing but a container is ever asked for. -/
theorem contains_of_focus? (hroot : Contains v v.packing.tree.root) {r : Request}
    (h : focus? v r = some p) : Contains v p := by
  cases r with
  | zoom name =>
    cases name with
    | none =>
      cases h
      exact hroot
    | some name =>
      obtain ⟨hl, hleaf⟩ := Option.filter_eq_some_iff.1 h
      rw [entryNamed_eq] at hl
      exact ⟨lookup_lt hl, by simpa using hleaf⟩
  | _ => cases h

theorem contains_lastFocus (hroot : Contains v v.packing.tree.root) (rs : List Request) :
    Contains v (lastFocus v rs) := by
  induction rs using List.reverseRecOn with
  | nil => exact hroot
  | append_singleton rs r ih =>
    rw [lastFocus_append]
    cases hf : focus? v r with
    | none => exact ih
    | some p => exact contains_of_focus? hroot hf

theorem focus_run (v : Views) (rs : List Request) :
    (run (.ofViews v) rs).focus = ⟨v.packing.tree.root, lastFocus v rs⟩ := by
  rw [run_eq_recalled, recalled]

theorem attainable_of_contains (h : Made v.packing.tree) (hp : Contains v p) :
    Attainable v p := by
  refine ⟨[.zoom (some (v.packing.tree.name p))], ?_⟩
  have hask : focus? v (.zoom (some (v.packing.tree.name p))) = some p := by
    simp [focus?, entryNamed_eq, h.lookup_name hp.1, hp.2, Option.filter_some]
  rw [focus_run]
  exact (lastFocus_append v [] _).trans (by rw [hask, Option.getD_some])

/-- What can have the focus are the containers, whether drawn or not. -/
theorem attainable_iff (h : Made v.packing.tree) (hroot : Contains v v.packing.tree.root) :
    Attainable v p ↔ Contains v p := by
  constructor
  · rintro ⟨rs, rfl⟩
    rw [focus_run]
    exact contains_lastFocus hroot rs
  · exact attainable_of_contains h

theorem focused_run (h : Made v.packing.tree) (hroot : Contains v v.packing.tree.root)
    (rs : List Request) : Focused v (run (.ofViews v) rs) := by
  have hviews : (run (.ofViews v) rs).views = v := by rw [run_eq_recalled, recalled]
  have hlabels : (run (.ofViews v) rs).visibleLabels =
      (if (run (.ofViews v) rs).focus.current ∈ v.packing.tree.descendants then
        v.packing.tree.children (run (.ofViews v) rs).focus.current else []).map
          v.packing.tree.segment := by
    rw [Display.visibleLabels, hviews, Packing.filter_circles h.shaped]
  refine ⟨(attainable_iff h hroot).1 ⟨rs, rfl⟩, ?_, ?_, h.children_increasing _⟩
  · intro hc
    rw [hlabels, if_pos ((mem_descendants_iff h.shaped _).2 hc)]
  · intro hc
    rw [hlabels, if_neg fun hm => hc ((mem_descendants_iff h.shaped _).1 hm)]
    rfl

/-- A circle is labelled while its parent has the focus, and only then. -/
theorem labelled_by_parent (h : Made v.packing.tree) (hx : x ∈ v.packing.circles) :
    ∃ p, v.packing.tree.parent? x = some p ∧ Attainable v p ∧
      ∀ f, v.packing.labelVisible f x = true ↔ f.current = p := by
  obtain ⟨p, hp⟩ := Packing.parent_of_circle h.shaped hx
  refine ⟨p, hp, attainable_of_contains h (h.parent_container hp), ?_⟩
  intro f
  rw [Packing.labelVisible, hp, beq_iff_eq, Option.some.injEq, eq_comm]

/-- After any requests about any document a container has the focus, and its
children are what is labelled, unless it is out of reach. -/
theorem run_focused (n : Naming) (doc : Document) :
    (∀ rs, Focused (.ofDocument n doc) (run (.ofViews (.ofDocument n doc)) rs)) ∧
    (Text.Unbordered n.delimiter.toList → ∀ p, Attainable (.ofDocument n doc) p →
      Climbs (Packing.ofDocument n doc).tree.parent? p (Packing.ofDocument n doc).tree.root) ∧
    ∀ x ∈ (Packing.ofDocument n doc).circles, ∃ p,
      (Packing.ofDocument n doc).tree.parent? x = some p ∧ Attainable (.ofDocument n doc) p ∧
      ∀ f, (Packing.ofDocument n doc).labelVisible f x = true ↔ f.current = p := by
  have hmade : Made (Views.ofDocument n doc).packing.tree := .forgiving _ _ _
  obtain ⟨hlt, -, -, hleaf⟩ := root_ofUsableRecords (Record.weights n doc) n.delimiter n.root
  have hroot : Contains (.ofDocument n doc) (Views.ofDocument n doc).packing.tree.root :=
    ⟨hlt, hleaf⟩
  refine ⟨focused_run hmade hroot, ?_, fun x hx => labelled_by_parent hmade hx⟩
  intro hu p hp
  exact ofUsableRecords_reached hu _ _ ((attainable_iff hmade hroot).1 hp).1

theorem dotted_focused :
    let n : Naming := ⟨".", "app"⟩
    let doc : Document := ⟨[⟨"a.b", 0⟩], []⟩
    let v := Views.ofDocument n doc
    (∀ rs, Focused v (run (.ofViews v) rs)) ∧
    (Text.Unbordered n.delimiter.toList ∧ ∀ rs,
      Climbs v.packing.tree.parent? (run (.ofViews v) rs).focus.current v.packing.tree.root) ∧
    ∃ x ∈ v.packing.circles, ∃ p, v.packing.tree.parent? x = some p ∧ Attainable v p ∧
      ∀ f, v.packing.labelVisible f x = true ↔ f.current = p := by
  intro n doc v
  obtain ⟨hfocused, hreached, hlabelled⟩ := run_focused n doc
  have hu : Text.Unbordered n.delimiter.toList := by decide
  have hx : 2 ∈ v.packing.circles := by decide +kernel
  exact ⟨hfocused, ⟨hu, fun rs => hreached hu _ ⟨rs, rfl⟩⟩, 2, hx, hlabelled 2 hx⟩

/-- The container of a name that is cut elsewhere from the right than from the
left can be zoomed to, although it is not drawn. -/
example :
    let v := Views.ofDocument ⟨"::", "app"⟩ ⟨[⟨"a", 0⟩, ⟨":x", 0⟩], []⟩
    let s := run (.ofViews v) [.zoom (some "app:")]
    (v.packing.tree.name s.focus.current,
      (v.packing.tree.children s.focus.current).map v.packing.tree.segment,
      s.visibleLabels) = ("app:", ["x"], []) := by
  decide +kernel

end Viewer

end UseGraph
