import Mathlib.Data.List.Induction
import UseGraph.Proofs.Arcs
import UseGraph.Proofs.Representation
import UseGraph.Viewer

/-!
# What a display recalls of its requests

A display keeps what it worked out and works nothing out twice. Still, after
any requests, all that can be seen of it follows from the views and from the
last request of each kind that counted: the last order that is one, the last
row and the last leaf pointed at, the last container zoomed to. A hover
reports a change exactly when another highlight is seen.
-/

set_option autoImplicit false

namespace UseGraph

namespace Hover

variable {κ η : Type}

def settled (f : κ → η) (place : Option κ) : Hover κ η := ⟨place, place.map f⟩

theorem point_settled [DecidableEq κ] (f : κ → η) (old new : Option κ) :
    point (fun k => (pure (f k) : Id η)) new (settled f old) =
      (decide (old ≠ new), settled f new) := by
  unfold point
  by_cases h : old = new
  · simp [settled, h, pure]
  · cases new with
    | none => simp [settled, h, pure]
    | some k => simp [settled, h, pure, bind]

end Hover

section Places

variable (s : String) (xs : List String)

/-- The last of all places where the text stands. -/
theorem Listing.lastIndexOf_eq_getLast? : lastIndexOf s xs =
    ((List.range xs.length).filter fun i => xs[i]?.getD "" = s).getLast? := by
  induction xs using List.reverseRecOn with
  | nil => rfl
  | append_singleton xs t ih =>
    have hold : (List.range xs.length).filter (fun i => (xs ++ [t])[i]?.getD "" = s) =
        (List.range xs.length).filter fun i => xs[i]?.getD "" = s := by
      apply List.filter_congr
      intro i hi
      rw [List.getElem?_append_left (List.mem_range.1 hi)]
    rw [List.length_append, List.length_singleton, List.range_succ, List.filter_append, hold,
      List.getLast?_append, ← ih, lastIndexOf_concat]
    by_cases ht : t = s <;> simp [ht]

/-- The first of all places where the text stands. -/
theorem find?_range_eq_findIdx? :
    ((List.range xs.length).find? fun i => xs[i]?.getD "" = s) = xs.findIdx? (· == s) := by
  induction xs with
  | nil => rfl
  | cons t xs ih =>
    rw [List.length_cons, List.range_succ_eq_map, List.findIdx?_cons]
    by_cases ht : t = s
    · simp [ht]
    · rw [List.find?_cons_of_neg (by simpa using ht), List.find?_map, if_neg (by simpa using ht)]
      exact congrArg (Option.map Nat.succ) ih

end Places

namespace Viewer

variable {β : Type} {v : Views}

def rowNamed (w : Listing) (id : String) : Option Nat :=
  ((List.range w.rows.size).filter fun i => w.idAt i = id).getLast?

def entryNamed {α : Type} (t : Hierarchy α) (name : String) : Option Nat :=
  (List.range t.size).find? fun x => t.name x = name

theorem rowNamed_eq (w : Listing) (id : String) : rowNamed w id = w.position? id := by
  have hsize : w.rows.size = w.ids.length := by simp [Listing.ids]
  rw [rowNamed, Listing.position?, Listing.lastIndexOf_eq_getLast?, hsize]
  simp only [Listing.idAt_eq]

theorem entryNamed_eq {α : Type} (t : Hierarchy α) (name : String) :
    entryNamed t name = t.lookup name := by
  have hname : ∀ x, t.name x = t.forest.names[x]?.getD "" := by
    intro x
    rw [Forest.names_getElem?]
    rfl
  rw [entryNamed, Hierarchy.lookup, Forest.find?_eq_findIdx?, ← find?_range_eq_findIdx?,
    Forest.names_length]
  simp only [hname]
  rfl

namespace Request

def order? : Request → Option SortOrder
  | .sort "Group" => some .group
  | .sort "Name" => some .name
  | .sort "Frequency" => some .frequency
  | _ => none

def row? : Request → Option (Option String)
  | .hoverRow id => some id
  | _ => none

def leaf? : Request → Option (Option String)
  | .hoverLeaf name => some name
  | _ => none

def focus? (v : Views) : Request → Option Nat
  | .zoom none => some v.packing.tree.root
  | .zoom (some name) => (entryNamed v.packing.tree name).filter fun x => !v.packing.tree.isLeaf x
  | _ => none

end Request

open Request

theorem order?_sort (order : String) : order? (.sort order) = (SortOrder.read order).toOption := by
  unfold SortOrder.read
  split
  · rfl
  · rfl
  · rfl
  · rename_i hg hn hf
    unfold order?
    split
    · rename_i h
      exact absurd (Request.sort.inj h) hg
    · rename_i h
      exact absurd (Request.sort.inj h) hn
    · rename_i h
      exact absurd (Request.sort.inj h) hf
    · rfl

def lastOf (ask : Request → Option β) (rs : List Request) : Option β :=
  (rs.filterMap ask).getLast?

def rowOf (v : Views) (id : Option String) : Option Nat := id.bind (rowNamed v.listing)

def leafOf (v : Views) (name : Option String) : Option Nat :=
  (name.bind (entryNamed v.radial.tree)).filter v.radial.tree.isLeaf

theorem rowOf_eq (v : Views) (id : Option String) : rowOf v id = id.bind v.listing.position? := by
  rw [rowOf, funext (rowNamed_eq v.listing)]

theorem leafOf_eq (v : Views) (name : Option String) :
    leafOf v name = (name.bind v.radial.tree.lookup).filter v.radial.tree.isLeaf := by
  rw [leafOf, funext (entryNamed_eq v.radial.tree)]

def lastOrder (rs : List Request) : SortOrder := (lastOf order? rs).getD .name

def lastRow (v : Views) (rs : List Request) : Option Nat := rowOf v (lastOf row? rs).join

def lastLeaf (v : Views) (rs : List Request) : Option Nat := leafOf v (lastOf leaf? rs).join

def lastFocus (v : Views) (rs : List Request) : Nat :=
  (lastOf (focus? v) rs).getD v.packing.tree.root

def rowAnew (v : Views) (i : Nat) : Display.RowHighlight :=
  { primary := v.listing.idAt i
    secondary := (v.listing.highlight i).secondary.map v.listing.idAt
    summary := v.listing.summary i }

def leafAnew (v : Views) (x : Nat) : Display.LeafHighlight :=
  { leaf := v.radial.tree.name x
    title := v.radial.title x
    incoming := ((v.radial.graph.incoming x).map Crosslink.source).map v.radial.tree.name
    outgoing := ((v.radial.graph.outgoing x).filterMap Crosslink.target).map v.radial.tree.name }

def recalled (v : Views) (rs : List Request) : Display :=
  { views := v
    order := lastOrder rs
    row := .settled v.listing.highlight (lastRow v rs)
    leaf := .settled v.radial.highlight (lastLeaf v rs)
    focus := ⟨v.packing.tree.root, lastFocus v rs⟩ }

def run (s : Display) (rs : List Request) : Display := rs.foldl (fun s r => (respond s r).2) s

theorem run_append (s : Display) (rs : List Request) (r : Request) :
    run s (rs ++ [r]) = (respond (run s rs) r).2 := by
  simp [run]

theorem lastOf_append (ask : Request → Option β) (rs : List Request) (r : Request) :
    lastOf ask (rs ++ [r]) = (ask r).or (lastOf ask rs) := by
  cases h : ask r <;> simp [lastOf, h]

section Append

variable (v : Views) (rs : List Request) (r : Request)

theorem lastOrder_append : lastOrder (rs ++ [r]) = (order? r).getD (lastOrder rs) := by
  rw [lastOrder, lastOf_append]
  cases order? r <;> rfl

theorem lastRow_append :
    lastRow v (rs ++ [r]) = ((row? r).map (rowOf v)).getD (lastRow v rs) := by
  rw [lastRow, lastOf_append]
  cases row? r <;> rfl

theorem lastLeaf_append :
    lastLeaf v (rs ++ [r]) = ((leaf? r).map (leafOf v)).getD (lastLeaf v rs) := by
  rw [lastLeaf, lastOf_append]
  cases leaf? r <;> rfl

theorem lastFocus_append : lastFocus v (rs ++ [r]) = (focus? v r).getD (lastFocus v rs) := by
  rw [lastFocus, lastOf_append]
  cases focus? v r <;> rfl

/-- Each part of the display changes by its own kind of request. -/
theorem recalled_append : recalled v (rs ++ [r]) =
    { views := v
      order := (order? r).getD (lastOrder rs)
      row := .settled v.listing.highlight (((row? r).map (rowOf v)).getD (lastRow v rs))
      leaf := .settled v.radial.highlight (((leaf? r).map (leafOf v)).getD (lastLeaf v rs))
      focus := ⟨v.packing.tree.root, (focus? v r).getD (lastFocus v rs)⟩ } := by
  rw [recalled, lastOrder_append, lastRow_append, lastLeaf_append, lastFocus_append]

/-- A request that asks for nothing leaves nothing behind. -/
theorem recalled_idle (ho : order? r = none) (hr : row? r = none) (hl : leaf? r = none)
    (hf : focus? v r = none) : recalled v (rs ++ [r]) = recalled v rs := by
  rw [recalled_append, ho, hr, hl, hf]
  rfl

end Append

/-- The focus moves to what the request asks for, or stays. -/
theorem zoomed_eq (s : Display) (hroot : s.focus.root = s.views.packing.tree.root)
    (name : Option String) : s.zoomed name =
      (decide (s.focus.current ≠ (focus? s.views (.zoom name)).getD s.focus.current),
        { s.focus with current := (focus? s.views (.zoom name)).getD s.focus.current }) := by
  have hzoom : ∀ id, s.focus.zoom id =
      (decide (s.focus.current ≠ id), { s.focus with current := id }) := by
    intro id
    by_cases h : s.focus.current = id
    · subst h
      simp [Packing.Focus.zoom]
    · simp [Packing.Focus.zoom, h]
  cases name with
  | none => rw [Display.zoomed, Packing.Focus.reset, hzoom, hroot, focus?, Option.getD_some]
  | some name =>
    cases h : s.views.packing.tree.lookup name with
    | none => simp [Display.zoomed, focus?, entryNamed_eq, h]
    | some id =>
      by_cases hl : s.views.packing.tree.isLeaf id = true
      · simp [Display.zoomed, focus?, entryNamed_eq, h, hl, Option.filter_some]
      · simp [Display.zoomed, focus?, entryNamed_eq, h, hl, Option.filter_some, hzoom]

section Steps

variable (v : Views) (rs : List Request)

theorem sort_recalled (order : String) :
    (respond (recalled v rs) (.sort order)).2 = recalled v (rs ++ [.sort order]) := by
  cases h : SortOrder.read order with
  | error e =>
    have hnone : order? (.sort order) = none := by simp [order?_sort, h, Except.toOption]
    rw [recalled_idle v rs _ hnone rfl rfl rfl]
    simp [respond, Display.sort, h]
  | ok o =>
    have hsome : order? (.sort order) = some o := by simp [order?_sort, h, Except.toOption]
    rw [recalled_append, hsome]
    simp [respond, Display.sort, h, recalled, row?, leaf?, focus?]

theorem hoverRow_recalled (id : Option String) : (recalled v rs).hoverRow id =
    (decide (lastRow v rs ≠ rowOf v id), recalled v (rs ++ [.hoverRow id])) := by
  have hrow : (recalled v rs).rowNamed id = rowOf v id := (rowOf_eq v id).symm
  have hpoint := Hover.point_settled v.listing.highlight (lastRow v rs) (rowOf v id)
  rw [Display.hoverRow, hrow]
  simp only [recalled] at hpoint ⊢
  rw [hpoint]
  exact congrArg _ (recalled_append v rs (.hoverRow id)).symm

theorem hoverLeaf_recalled (name : Option String) : (recalled v rs).hoverLeaf name =
    (decide (lastLeaf v rs ≠ leafOf v name), recalled v (rs ++ [.hoverLeaf name])) := by
  have hleaf : (recalled v rs).leafNamed name = leafOf v name := (leafOf_eq v name).symm
  have hpoint := Hover.point_settled v.radial.highlight (lastLeaf v rs) (leafOf v name)
  rw [Display.hoverLeaf, hleaf]
  simp only [recalled] at hpoint ⊢
  rw [hpoint]
  exact congrArg _ (recalled_append v rs (.hoverLeaf name)).symm

theorem zoom_recalled (name : Option String) : (recalled v rs).zoom name =
    (decide (lastFocus v rs ≠ lastFocus v (rs ++ [.zoom name])),
      recalled v (rs ++ [.zoom name])) := by
  rw [Display.zoom, zoomed_eq (recalled v rs) rfl, lastFocus_append]
  exact congrArg _ (recalled_append v rs (.zoom name)).symm

/-- What one request leaves is again what the requests recall. -/
theorem respond_recalled (r : Request) :
    (respond (recalled v rs) r).2 = recalled v (rs ++ [r]) := by
  cases r with
  | drawing => exact (recalled_idle v rs _ rfl rfl rfl rfl).symm
  | sort order => exact sort_recalled v rs order
  | hoverRow id => exact congrArg Prod.snd (hoverRow_recalled v rs id)
  | rowHighlight => exact (recalled_idle v rs _ rfl rfl rfl rfl).symm
  | hoverLeaf name => exact congrArg Prod.snd (hoverLeaf_recalled v rs name)
  | leafHighlight => exact (recalled_idle v rs _ rfl rfl rfl rfl).symm
  | zoom name => exact congrArg Prod.snd (zoom_recalled v rs name)
  | visibleLabels => exact (recalled_idle v rs _ rfl rfl rfl rfl).symm

theorem rowHighlight_recalled :
    (recalled v rs).rowHighlight = (lastRow v rs).map (rowAnew v) := by
  have hnew : (recalled v rs).row.highlight = (lastRow v rs).map v.listing.highlight := rfl
  rw [Display.rowHighlight, hnew, Option.map_map]
  rfl

theorem leafHighlight_recalled :
    (recalled v rs).leafHighlight = (lastLeaf v rs).map (leafAnew v) := by
  have hnew : (recalled v rs).leaf.highlight = (lastLeaf v rs).map v.radial.highlight := rfl
  rw [Display.leafHighlight, hnew, Option.map_map]
  rfl

end Steps

theorem run_eq_recalled (v : Views) (rs : List Request) : run (.ofViews v) rs = recalled v rs := by
  induction rs using List.reverseRecOn with
  | nil => rfl
  | append_singleton rs r ih => rw [run_append, ih, respond_recalled]

/-- Different rows that ids lead to have different ids. -/
theorem row_of_idAt {w : Listing} {a b : String} {i j : Nat} (hi : w.position? a = some i)
    (hj : w.position? b = some j) (h : w.idAt i = w.idAt j) : i = j := by
  rw [Listing.idAt_eq, Listing.idAt_eq, Listing.getElem?_of_lastIndexOf hi,
    Listing.getElem?_of_lastIndexOf hj, Option.getD_some, Option.getD_some] at h
  rw [h, hj] at hi
  exact (Option.some.inj hi).symm

theorem map_eq_map_iff {f : Nat → β} {p q : Option Nat}
    (h : ∀ i j, p = some i → q = some j → f i = f j → i = j) : p.map f = q.map f ↔ p = q := by
  cases p with
  | none => cases q <;> simp
  | some i =>
    cases q with
    | none => simp
    | some j =>
      simp only [Option.map_some, Option.some.injEq]
      exact ⟨h i j rfl rfl, congrArg f⟩

/-- Whichever of several rows with one id is meant, it is always the same. -/
theorem rowAnew_eq_iff (v : Views) (a b : Option String) :
    (rowOf v a).map (rowAnew v) = (rowOf v b).map (rowAnew v) ↔ rowOf v a = rowOf v b := by
  apply map_eq_map_iff
  intro i j hi hj hij
  rw [rowOf_eq] at hi hj
  obtain ⟨s, -, hs⟩ := Option.bind_eq_some_iff.1 hi
  obtain ⟨u, -, hu⟩ := Option.bind_eq_some_iff.1 hj
  exact row_of_idAt hs hu (congrArg Display.RowHighlight.primary hij)

theorem leafAnew_eq_iff (v : Views) (a b : Option String) :
    (leafOf v a).map (leafAnew v) = (leafOf v b).map (leafAnew v) ↔ leafOf v a = leafOf v b := by
  apply map_eq_map_iff
  intro x y hx hy hxy
  rw [leafOf_eq] at hx hy
  obtain ⟨s, -, hs⟩ := Option.bind_eq_some_iff.1 (Option.filter_eq_some_iff.1 hx).1
  obtain ⟨u, -, hu⟩ := Option.bind_eq_some_iff.1 (Option.filter_eq_some_iff.1 hy).1
  have hname : v.radial.tree.name x = v.radial.tree.name y :=
    congrArg Display.LeafHighlight.leaf hxy
  rw [Hierarchy.name_of_lookup hs, Hierarchy.name_of_lookup hu] at hname
  rw [hname, hu] at hs
  exact (Option.some.inj hs).symm

section Changes

variable (v : Views) (rs : List Request)

theorem hoverRow_changed (id : Option String) : ((recalled v rs).hoverRow id).1 = true ↔
    ((recalled v rs).hoverRow id).2.rowHighlight ≠ (recalled v rs).rowHighlight := by
  have hnew : lastRow v (rs ++ [.hoverRow id]) = rowOf v id := lastRow_append v rs _
  rw [hoverRow_recalled, rowHighlight_recalled, rowHighlight_recalled, hnew, decide_eq_true_iff,
    ne_comm]
  exact not_congr (rowAnew_eq_iff v id _).symm

theorem hoverLeaf_changed (name : Option String) : ((recalled v rs).hoverLeaf name).1 = true ↔
    ((recalled v rs).hoverLeaf name).2.leafHighlight ≠ (recalled v rs).leafHighlight := by
  have hnew : lastLeaf v (rs ++ [.hoverLeaf name]) = leafOf v name := lastLeaf_append v rs _
  rw [hoverLeaf_recalled, leafHighlight_recalled, leafHighlight_recalled, hnew,
    decide_eq_true_iff, ne_comm]
  exact not_congr (leafAnew_eq_iff v name _).symm

theorem zoom_changed (name : Option String) : ((recalled v rs).zoom name).1 = true ↔
    ((recalled v rs).zoom name).2.focus.current ≠ (recalled v rs).focus.current := by
  rw [zoom_recalled, decide_eq_true_iff]
  exact ne_comm

end Changes

theorem read_eq_error {order : String}
    (h : order ≠ "Group" ∧ order ≠ "Name" ∧ order ≠ "Frequency") :
    SortOrder.read order = .error (.unknownSortOrder order) := by
  unfold SortOrder.read
  split
  · exact absurd rfl h.1
  · exact absurd rfl h.2.1
  · exact absurd rfl h.2.2
  · rfl

structure Recalls (v : Views) (rs : List Request) (s : Display) : Prop where
  views : s.views = v
  drawing : respond s .drawing = (.ok (.text (drawingText v)), s)
  rowOrder : s.rowOrder = v.listing.orderedIds (lastOrder rs)
  rowHighlight : s.rowHighlight = (lastRow v rs).map (rowAnew v)
  leafHighlight : s.leafHighlight = (lastLeaf v rs).map (leafAnew v)
  focus : s.focus.current = lastFocus v rs
  refused : ∀ order, order ≠ "Group" ∧ order ≠ "Name" ∧ order ≠ "Frequency" →
    s.sort order = .error (.unknownSortOrder order) ∧
    respond s (.sort order) = (.error (.unknownSortOrder order), s)
  rowChanged : ∀ id,
    (s.hoverRow id).1 = true ↔ (s.hoverRow id).2.rowHighlight ≠ s.rowHighlight
  leafChanged : ∀ name,
    (s.hoverLeaf name).1 = true ↔ (s.hoverLeaf name).2.leafHighlight ≠ s.leafHighlight
  focusChanged : ∀ name,
    (s.zoom name).1 = true ↔ (s.zoom name).2.focus.current ≠ s.focus.current

/-- After any requests, what is seen is what the last ones that counted ask
for, worked out anew. -/
theorem run_recalls (v : Views) (rs : List Request) : Recalls v rs (run (.ofViews v) rs) := by
  rw [run_eq_recalled]
  constructor
  · rfl
  · rfl
  · rfl
  · exact rowHighlight_recalled v rs
  · exact leafHighlight_recalled v rs
  · rfl
  · intro order ho
    have hread := read_eq_error ho
    simp [respond, Display.sort, hread]
  · exact hoverRow_changed v rs
  · exact hoverLeaf_changed v rs
  · exact zoom_changed v rs

end Viewer

end UseGraph
