import UseGraph.Proofs.Guarded.Basic
import UseGraph.Proofs.Incidence

/-!
# The list with every index checked

Rows number arcs and arcs number rows. Each number is given out for an arc or
a row that is there, and neither table ever shrinks.
-/

set_option autoImplicit false

namespace UseGraph

namespace Listing

variable {v : Listing} {i k : Nat}

section Numbered

variable (h : Numbered v)
include h

theorem ends_of_arc {a : Arc} (ha : v.arcs[k]? = some a) :
    a.source < v.rows.size ∧ a.target < v.rows.size :=
  h.ends a (Array.mem_toList_iff.2 (Array.mem_of_getElem? ha))

/-- A number that a row has leads to an arc between rows. -/
theorem arc_at (hk : k ∈ v.outgoingAt i ++ v.incomingAt i) :
    ∃ a, v.arcs[k]? = some a ∧ a.source < v.rows.size ∧ a.target < v.rows.size := by
  have harc : ∃ a, v.arcs[k]? = some a := by
    cases List.mem_append.1 hk with
    | inl hk =>
      obtain ⟨a, ha, -⟩ := (mem_outgoingAt h i k).1 hk
      exact ⟨a, ha⟩
    | inr hk =>
      obtain ⟨a, ha, -⟩ := (mem_incomingAt h i k).1 hk
      exact ⟨a, ha⟩
  obtain ⟨a, ha⟩ := harc
  exact ⟨a, ha, ends_of_arc h ha⟩

theorem secondary_lt : ∀ s ∈ (v.highlight i).secondary, s < v.rows.size := by
  intro s hs
  cases (lit_rows_of_numbered h i s).1 hs with
  | inl hs =>
    obtain ⟨k, -, a, ha, rfl⟩ := hs
    exact (ends_of_arc h ha).2
  | inr hs =>
    obtain ⟨k, -, a, ha, rfl⟩ := hs
    exact (ends_of_arc h ha).1

end Numbered

theorem lit_arcs_lt (v : Listing) (i : Nat) : ∀ k ∈ (v.highlight i).arcs, k < v.arcs.size := by
  intro k hk
  exact List.mem_range.1 (List.mem_filter.1 hk).1

end Listing

namespace Guarded.Listing

section Definitions

variable (v : Listing)

def addArc (a : Listing.Arc) : Option Listing := do
  let n := v.arcs.size
  let rows ← modify v.rows a.source fun r => { r with outgoing := r.outgoing ++ [n] }
  return { rows := ← modify rows a.target fun r => { r with incoming := r.incoming ++ [n] }
           arcs := v.arcs.push a }

def addLink (dir : List (String × Nat)) (l : Document.Link) : Option Listing :=
  match dir.lookup l.source, dir.lookup l.target with
  | some s, some t => addArc v ⟨s, t, l.value⟩
  | _, _ => some v

def ofDocument (d : Document) : Option Listing :=
  d.links.foldlM (fun v l => addLink v (Listing.directory d) l)
    ⟨(d.nodes.map fun n => ⟨n.id, n.group, [], []⟩).toArray, #[]⟩

def idAt (i : Nat) : Option String := v.rows[i]?.map Listing.Row.id

def groupAt (i : Nat) : Option UInt32 := v.rows[i]?.map Listing.Row.group

def outgoingAt (i : Nat) : Option (List Nat) := v.rows[i]?.map Listing.Row.outgoing

def incomingAt (i : Nat) : Option (List Nat) := v.rows[i]?.map Listing.Row.incoming

def frequency (i : Nat) : Option Float := do
  let numbers := (← outgoingAt v i) ++ (← incomingAt v i)
  numbers.foldlM (fun sum a => do return sum + (← v.arcs[a]?).value) (-0.0)

def idLe (i j : Nat) : Option Bool := do return (← idAt v i) ≤ (← idAt v j)

def before : SortOrder → Nat → Nat → Option Bool
  | .name, i, j => idLe v i j
  | .group, i, j => do
    let a ← groupAt v i
    let b ← groupAt v j
    return a < b || a == b && (← idLe v i j)
  | .frequency, i, j => do
    let a := Decimal.Binary64.rank (← frequency v i)
    let b := Decimal.Binary64.rank (← frequency v j)
    return b < a || a == b && (← idLe v i j)

def order (o : SortOrder) : Option (List Nat) := mergeSort (before v o) (List.range v.rows.size)

def orderedIds (o : SortOrder) : Option (List String) := do (← order v o).mapM (idAt v)

def highlight (i : Nat) : Option Listing.Highlight := do
  let near := neighbourhood i v.ends
  let arcs ← filter (fun k => v.arcs[k]?.map fun a => a.source == i || a.target == i)
    (List.range v.arcs.size)
  return ⟨i, if v.ends.contains (i, i) then near else near.filter (· != i), arcs⟩

def summary (i : Nat) : Option Listing.Summary := do
  let incoming ← incomingAt v i
  let outgoing ← outgoingAt v i
  return ⟨← idAt v i, ← incoming.mapM fun k => do idAt v (← v.arcs[k]?).source,
    ← outgoing.mapM fun k => do idAt v (← v.arcs[k]?).target⟩

def drawing : Option Listing.Drawing := do
  let rows ← (List.range v.rows.size).mapM fun i => do
    return ⟨← summary v i, ← groupAt v i, ← frequency v i⟩
  let curves ← v.arcs.toList.mapM fun a => do
    return ⟨← idAt v a.source, ← idAt v a.target, a.value⟩
  return ⟨rows, curves, ← orderedIds v .group, ← orderedIds v .name, ← orderedIds v .frequency⟩

end Definitions

section Build

variable {v : Listing}

theorem addArc_eq {a : Listing.Arc} (hs : a.source < v.rows.size) (ht : a.target < v.rows.size) :
    addArc v a = some (v.addArc a) := by
  simp only [addArc, modify_eq hs, Option.bind_eq_bind, Option.bind_some]
  rw [modify_eq (by simpa using ht)]
  rfl

theorem addLink_eq {d : Document} (hsize : v.rows.size = d.nodes.length) (l : Document.Link) :
    addLink v (UseGraph.Listing.directory d) l =
      some (UseGraph.Listing.addLink (UseGraph.Listing.directory d) v l) := by
  rw [addLink, UseGraph.Listing.addLink]
  cases hs : (UseGraph.Listing.directory d).lookup l.source with
  | none => rfl
  | some s =>
    cases ht : (UseGraph.Listing.directory d).lookup l.target with
    | none => rfl
    | some t =>
      exact addArc_eq (hsize ▸ UseGraph.Listing.directory_lt hs)
        (hsize ▸ UseGraph.Listing.directory_lt ht)

theorem ofDocument_eq (d : Document) : ofDocument d = some (UseGraph.Listing.ofDocument d) :=
  foldlM_eq (P := fun v => v.rows.size = d.nodes.length)
    (fun v hv l _ => ⟨addLink_eq hv l, (UseGraph.Listing.rows_addLink _ v l).trans hv⟩) (by simp)

end Build

section Reads

variable {v : Listing} {i : Nat} (hi : i < v.rows.size)
include hi

theorem idAt_eq : idAt v i = some (v.idAt i) := by
  simp [idAt, UseGraph.Listing.idAt, hi]

theorem groupAt_eq : groupAt v i = some (v.groupAt i) := by
  simp [groupAt, UseGraph.Listing.groupAt, hi]

theorem outgoingAt_eq : outgoingAt v i = some (v.outgoingAt i) := by
  simp [outgoingAt, UseGraph.Listing.outgoingAt, hi]

theorem incomingAt_eq : incomingAt v i = some (v.incomingAt i) := by
  simp [incomingAt, UseGraph.Listing.incomingAt, hi]

end Reads

theorem highlight_eq (v : Listing) (i : Nat) : highlight v i = some (v.highlight i) := by
  have harcs : filter (fun k => v.arcs[k]?.map fun a => a.source == i || a.target == i)
      (List.range v.arcs.size) = some (v.highlight i).arcs := by
    apply filter_eq
    intro k hk
    simp [List.mem_range.1 hk]
  simp only [highlight, harcs, Option.bind_eq_bind, Option.bind_some]
  rfl

section Numbered

variable {v : Listing} (h : v.Numbered)
include h

theorem frequency_eq {i : Nat} (hi : i < v.rows.size) : frequency v i = some (v.frequency i) := by
  simp only [frequency, outgoingAt_eq hi, incomingAt_eq hi, Option.bind_eq_bind, Option.bind_some]
  apply foldlM_eq (P := fun _ => True) ?_ trivial
  intro sum _ k hk
  obtain ⟨a, ha, -⟩ := UseGraph.Listing.arc_at h hk
  simp [ha]

theorem before_eq (o : SortOrder) (i j : Nat) (hi : i < v.rows.size) (hj : j < v.rows.size) :
    before v o i j = some (v.before o i j) := by
  have hid : idLe v i j = some (v.idLe i j) := by
    simp [idLe, idAt_eq hi, idAt_eq hj, UseGraph.Listing.idLe]
  cases o with
  | name => exact hid
  | group => simp [before, groupAt_eq hi, groupAt_eq hj, hid, UseGraph.Listing.before]
  | frequency => simp [before, frequency_eq h hi, frequency_eq h hj, hid, UseGraph.Listing.before]

theorem orderedIds_eq (o : SortOrder) : orderedIds v o = some (v.orderedIds o) := by
  have horder : order v o = some (v.order o) := by
    apply mergeSort_eq
    intro i hi j hj
    exact before_eq h o i j (List.mem_range.1 hi) (List.mem_range.1 hj)
  rw [orderedIds, horder]
  apply mapM_eq
  intro i hi
  exact idAt_eq (List.mem_range.1 (List.mem_mergeSort.1 hi))

theorem summary_eq {i : Nat} (hi : i < v.rows.size) : summary v i = some (v.summary i) := by
  have hincoming : (v.incomingAt i).mapM (fun k => do idAt v (← v.arcs[k]?).source) =
      some (v.summary i).usedBy := by
    apply mapM_eq
    intro k hk
    obtain ⟨a, ha, hs, -⟩ := UseGraph.Listing.arc_at h (List.mem_append_right (v.outgoingAt i) hk)
    simp [ha, idAt_eq hs]
  have houtgoing : (v.outgoingAt i).mapM (fun k => do idAt v (← v.arcs[k]?).target) =
      some (v.summary i).uses := by
    apply mapM_eq
    intro k hk
    obtain ⟨a, ha, -, ht⟩ := UseGraph.Listing.arc_at h (List.mem_append_left (v.incomingAt i) hk)
    simp [ha, idAt_eq ht]
  simp only [summary, incomingAt_eq hi, outgoingAt_eq hi, idAt_eq hi, Option.bind_eq_bind,
    Option.bind_some] at hincoming houtgoing ⊢
  rw [hincoming, houtgoing]
  rfl

theorem drawing_eq : drawing v = some v.drawing := by
  have hrows : ((List.range v.rows.size).mapM fun i => do
      return (⟨← summary v i, ← groupAt v i, ← frequency v i⟩ : Listing.Label)) =
        some v.drawing.rows := by
    apply mapM_eq
    intro i hi
    have hlt := List.mem_range.1 hi
    simp [summary_eq h hlt, groupAt_eq hlt, frequency_eq h hlt]
  have hcurves : (v.arcs.toList.mapM fun a => do
      return (⟨← idAt v a.source, ← idAt v a.target, a.value⟩ : Listing.Curve)) =
        some v.drawing.curves := by
    apply mapM_eq
    intro a ha
    simp [idAt_eq (h.ends a ha).1, idAt_eq (h.ends a ha).2]
  simp only [drawing, orderedIds_eq h, Option.bind_eq_bind, Option.bind_some] at hrows hcurves ⊢
  rw [hrows, hcurves]
  rfl

end Numbered

end Guarded.Listing

end UseGraph
