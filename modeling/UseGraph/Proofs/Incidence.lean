import Mathlib.Data.List.Forall2
import UseGraph.Proofs.Arcs

/-!
# Arcs at a row

The rows keep the numbers of the arcs that leave and arrive, one at a time as
links come in, while a highlight looks through all arcs anew and a summary
follows the kept numbers. All of them say the same about the links of the
document, for any number of rows with one id, arcs between the same rows and
arcs from a row to itself.
-/

set_option autoImplicit false

namespace UseGraph

section Neighbourhood

variable {x y z : Nat} {xs : List Nat} {edges : List (Nat × Nat)}

theorem mem_insertOnce : z ∈ insertOnce x xs ↔ z = x ∨ z ∈ xs := by
  induction xs with
  | nil => simp [insertOnce]
  | cons y xs ih =>
    rw [insertOnce]
    split
    · simp
    · split
      · rename_i he
        simp [he]
      · simp only [List.mem_cons, ih, or_left_comm]

theorem insertOnce_increasing (h : xs.Pairwise (· < ·)) : (insertOnce x xs).Pairwise (· < ·) := by
  induction xs with
  | nil => simp [insertOnce]
  | cons y xs ih =>
    have hy := List.pairwise_cons.1 h
    rw [insertOnce]
    split
    · rename_i hxy
      apply List.pairwise_cons.2
      constructor
      · intro z hz
        cases List.mem_cons.1 hz with
        | inl he => omega
        | inr hz =>
          have hyz := hy.1 z hz
          omega
      · exact h
    · split
      · exact h
      · apply List.pairwise_cons.2
        constructor
        · intro z hz
          cases mem_insertOnce.1 hz with
          | inl he => omega
          | inr hz => exact hy.1 z hz
        · exact ih hy.2

def neighbourStep (x : Nat) (near : List Nat) (e : Nat × Nat) : List Nat :=
  if e.1 = x then insertOnce e.2 near else if e.2 = x then insertOnce e.1 near else near

theorem mem_neighbourStep (x z : Nat) (near : List Nat) (e : Nat × Nat) (hx : x ∈ near) :
    z ∈ neighbourStep x near e ↔ z ∈ near ∨ e = (x, z) ∨ e = (z, x) := by
  have hself : z = x → z ∈ near := fun hz => hz ▸ hx
  unfold neighbourStep
  simp only [Prod.ext_iff]
  split
  · rename_i hsource
    rw [mem_insertOnce, hsource]
    grind
  · rename_i hsource
    split
    · rename_i htarget
      rw [mem_insertOnce, htarget]
      grind
    · rename_i htarget
      simp [hsource, htarget]

theorem neighbours_of_steps (hx : x ∈ xs) (h : xs.Pairwise (· < ·)) :
    (edges.foldl (neighbourStep x) xs).Pairwise (· < ·) ∧
      ∀ z, z ∈ edges.foldl (neighbourStep x) xs ↔ z ∈ xs ∨ (x, z) ∈ edges ∨ (z, x) ∈ edges := by
  induction edges generalizing xs with
  | nil => simp [h]
  | cons e edges ih =>
    have hmem := fun z => mem_neighbourStep x z xs e hx
    have hstep : (neighbourStep x xs e).Pairwise (· < ·) := by
      unfold neighbourStep
      split
      · exact insertOnce_increasing h
      · split
        · exact insertOnce_increasing h
        · exact h
    have hrest := ih ((hmem x).2 (Or.inl hx)) hstep
    rw [List.foldl_cons]
    constructor
    · exact hrest.1
    · intro z
      rw [hrest.2, hmem]
      simp only [List.mem_cons, eq_comm (a := e)]
      tauto

theorem neighbourhood_eq (x : Nat) (edges : List (Nat × Nat)) :
    neighbourhood x edges = edges.foldl (neighbourStep x) [x] := rfl

theorem neighbourhood_increasing (x : Nat) (edges : List (Nat × Nat)) :
    (neighbourhood x edges).Pairwise (· < ·) := by
  rw [neighbourhood_eq]
  exact (neighbours_of_steps (List.mem_singleton_self x) (List.pairwise_singleton _ x)).1

theorem mem_neighbourhood (x z : Nat) (edges : List (Nat × Nat)) :
    z ∈ neighbourhood x edges ↔ z = x ∨ (x, z) ∈ edges ∨ (z, x) ∈ edges := by
  rw [neighbourhood_eq,
    (neighbours_of_steps (List.mem_singleton_self x) (List.pairwise_singleton _ x)).2,
    List.mem_singleton]

end Neighbourhood

namespace Listing

variable {v : Listing} {d : Document} {id : String} {r : Nat}

theorem not_later {ids : List String} {i : Nat} (h : lastIndexOf id ids = some i) :
    ∀ j, i < j → ids[j]? ≠ some id := by
  induction ids generalizing i with
  | nil => cases h
  | cons s ids ih =>
    intro j hj
    cases j with
    | zero => omega
    | succ j =>
      rw [List.getElem?_cons_succ]
      rw [lastIndexOf] at h
      cases hr : lastIndexOf id ids with
      | some k =>
        have hi : k + 1 = i := by simpa [hr] using h
        exact ih hr j (by omega)
      | none =>
        intro hsome
        exact (lastIndexOf_eq_none_iff id ids).1 hr (List.mem_of_getElem? hsome)

theorem lastIndexOf_eq_some_iff (id : String) (ids : List String) (i : Nat) :
    lastIndexOf id ids = some i ↔ ids[i]? = some id ∧ ∀ j, i < j → ids[j]? ≠ some id := by
  constructor
  · intro h
    exact ⟨getElem?_of_lastIndexOf h, not_later h⟩
  · intro h
    cases hk : lastIndexOf id ids with
    | none => exact absurd (List.mem_of_getElem? h.1) ((lastIndexOf_eq_none_iff id ids).1 hk)
    | some k =>
      have hlate : ¬ i < k := fun hlt => h.2 k hlt (getElem?_of_lastIndexOf hk)
      have hearly : ¬ k < i := fun hlt => not_later hk i hlt h.1
      congr 1
      omega

def places (p : Arc → Bool) (arcs : Array Arc) : List Nat :=
  (List.range arcs.size).filter fun k => (arcs[k]?.map p).getD false

theorem mem_places (p : Arc → Bool) (arcs : Array Arc) (k : Nat) :
    k ∈ places p arcs ↔ ∃ a, arcs[k]? = some a ∧ p a = true := by
  rw [places, List.mem_filter, List.mem_range]
  cases h : arcs[k]? with
  | none => simp
  | some a => simp [(Array.getElem?_eq_some_iff.1 h).1]

theorem places_increasing (p : Arc → Bool) (arcs : Array Arc) :
    (places p arcs).Pairwise (· < ·) := List.pairwise_lt_range.filter _

theorem places_push (p : Arc → Bool) (arcs : Array Arc) (a : Arc) :
    places p (arcs.push a) = places p arcs ++ if p a then [arcs.size] else [] := by
  have hold : (List.range arcs.size).filter (fun k => ((arcs.push a)[k]?.map p).getD false) =
      places p arcs := by
    apply List.filter_congr
    intro k hk
    have hlt := List.mem_range.1 hk
    rw [Array.getElem?_push, if_neg (by omega)]
  rw [places, Array.size_push, List.range_succ, List.filter_append, hold]
  cases h : p a <;> simp [h]

section Numbers

variable {num : Row → List Nat} {f : Row → Row}

theorem num_modify_keep (rows : Array Row) (i r : Nat) (hf : ∀ row, num (f row) = num row) :
    ((rows.modify i f)[r]?.map num).getD [] = (rows[r]?.map num).getD [] := by
  rw [Array.getElem?_modify]
  by_cases hi : i = r
  · cases rows[r]? <;> simp [hi, hf]
  · simp [hi]

theorem num_modify_add (n : Nat) (rows : Array Row) (i r : Nat) (hf : ∀ row, num (f row) = num row ++ [n])
    (hi : i < rows.size) : ((rows.modify i f)[r]?.map num).getD [] =
      (rows[r]?.map num).getD [] ++ if i = r then [n] else [] := by
  rw [Array.getElem?_modify]
  by_cases hr : i = r
  · have hrow : rows[r]? = some rows[i] := by simp [← hr, hi]
    simp [hr, hrow, hf]
  · simp [hr]

end Numbers

structure Numbered (v : Listing) : Prop where
  outgoing : ∀ r, v.outgoingAt r = places (fun a => a.source = r) v.arcs
  incoming : ∀ r, v.incomingAt r = places (fun a => a.target = r) v.arcs
  ends : ∀ a ∈ v.arcs.toList, a.source < v.rows.size ∧ a.target < v.rows.size

theorem rows_addArc (v : Listing) (a : Arc) : (v.addArc a).rows.size = v.rows.size := by
  simp [addArc]

theorem numbered_addArc (h : Numbered v) (a : Arc) (hs : a.source < v.rows.size)
    (ht : a.target < v.rows.size) : Numbered (v.addArc a) where
  outgoing r := by
    have hold := h.outgoing r
    simp only [outgoingAt, addArc, places_push] at hold ⊢
    rw [num_modify_keep, num_modify_add v.arcs.size, hold]
    · simp
    · intro row
      rfl
    · exact hs
    · intro row
      rfl
  incoming r := by
    have hold := h.incoming r
    simp only [incomingAt, addArc, places_push] at hold ⊢
    rw [num_modify_add v.arcs.size, num_modify_keep, hold]
    · simp
    · intro row
      rfl
    · intro row
      rfl
    · simpa using ht
  ends b hb := by
    rw [rows_addArc]
    simp only [addArc, Array.toList_push, List.mem_append, List.mem_singleton] at hb
    cases hb with
    | inl hb => exact h.ends b hb
    | inr hb => exact hb ▸ ⟨hs, ht⟩

theorem position?_lt (h : v.position? id = some r) : r < v.rows.size := by
  have hr := (List.getElem?_eq_some_iff.1 (getElem?_of_lastIndexOf h)).1
  simpa [ids] using hr

theorem directory_lt (h : (directory d).lookup id = some r) : r < d.nodes.length := by
  rw [lookup_directory] at h
  simpa using (List.getElem?_eq_some_iff.1 (getElem?_of_lastIndexOf h)).1

theorem rows_addLink (dir : List (String × Nat)) (v : Listing) (l : Document.Link) :
    (addLink dir v l).rows.size = v.rows.size := by
  unfold addLink
  split
  · exact rows_addArc v _
  · rfl

theorem numbered_addLink (h : Numbered v) (hsize : v.rows.size = d.nodes.length)
    (l : Document.Link) : Numbered (addLink (directory d) v l) := by
  unfold addLink
  split
  · rename_i s t hs ht
    exact numbered_addArc h _ (hsize ▸ directory_lt hs) (hsize ▸ directory_lt ht)
  · exact h

theorem numbered_addLinks (h : Numbered v) (hsize : v.rows.size = d.nodes.length)
    (ls : List Document.Link) : Numbered (ls.foldl (addLink (directory d)) v) := by
  induction ls generalizing v with
  | nil => exact h
  | cons l ls ih => exact ih (numbered_addLink h hsize l) ((rows_addLink _ v l).trans hsize)

theorem numbered_bare (rows : List Row) (h : ∀ row ∈ rows, row.outgoing = [] ∧ row.incoming = []) :
    Numbered ⟨rows.toArray, #[]⟩ where
  outgoing r := by
    simp only [outgoingAt, places, List.getElem?_toArray]
    cases hr : rows[r]? with
    | none => rfl
    | some row => simp [(h row (List.mem_of_getElem? hr)).1]
  incoming r := by
    simp only [incomingAt, places, List.getElem?_toArray]
    cases hr : rows[r]? with
    | none => rfl
    | some row => simp [(h row (List.mem_of_getElem? hr)).2]
  ends a ha := by simp at ha

theorem numbered_ofDocument (d : Document) : Numbered (ofDocument d) := by
  apply numbered_addLinks
  · apply numbered_bare
    simp
  · simp

structure Incident (d : Document) (v : Listing) : Prop where
  ids : v.ids = d.nodes.map Document.Node.id
  position : ∀ id i, v.position? id = some i ↔
    v.ids[i]? = some id ∧ ∀ j, i < j → v.ids[j]? ≠ some id
  directory : ∀ id, (directory d).lookup id = v.position? id
  arcs : List.Forall₂ (fun l a => v.position? l.source = some a.source ∧
      v.position? l.target = some a.target ∧ a.value = l.value)
    (d.links.filter fun l => l.source ∈ v.ids ∧ l.target ∈ v.ids) v.arcs.toList
  outgoing : ∀ r, (v.outgoingAt r).Pairwise (· < ·) ∧
    ∀ k, k ∈ v.outgoingAt r ↔ ∃ a, v.arcs[k]? = some a ∧ a.source = r
  incoming : ∀ r, (v.incomingAt r).Pairwise (· < ·) ∧
    ∀ k, k ∈ v.incomingAt r ↔ ∃ a, v.arcs[k]? = some a ∧ a.target = r
  shadowed : ∀ i j id, i < j → v.ids[i]? = some id → v.ids[j]? = some id →
    v.outgoingAt i = [] ∧ v.incomingAt i = []
  lit_arcs : ∀ r, (v.highlight r).arcs.Pairwise (· < ·) ∧
    ∀ k, k ∈ (v.highlight r).arcs ↔ k ∈ v.outgoingAt r ∨ k ∈ v.incomingAt r
  lit_rows : ∀ r, (v.highlight r).secondary.Pairwise (· < ·) ∧
    ∀ s, s ∈ (v.highlight r).secondary ↔
      (∃ k ∈ v.outgoingAt r, ∃ a, v.arcs[k]? = some a ∧ a.target = s) ∨
      ∃ k ∈ v.incomingAt r, ∃ a, v.arcs[k]? = some a ∧ a.source = s
  loop : ∀ r, r ∈ (v.highlight r).secondary ↔
    ∃ a ∈ v.arcs.toList, a.source = r ∧ a.target = r
  uses : ∀ r, List.Forall₂
    (fun k id => ∃ a, v.arcs[k]? = some a ∧ v.ids[a.target]? = some id)
    (v.outgoingAt r) (v.summary r).uses
  usedBy : ∀ r, List.Forall₂
    (fun k id => ∃ a, v.arcs[k]? = some a ∧ v.ids[a.source]? = some id)
    (v.incomingAt r) (v.summary r).usedBy
  mutual_rows : ∀ r s, s ∈ (v.highlight r).secondary ↔ r ∈ (v.highlight s).secondary

theorem mem_ends (v : Listing) (r s : Nat) :
    (r, s) ∈ v.ends ↔ ∃ a ∈ v.arcs.toList, a.source = r ∧ a.target = s := by
  simp [ends, Prod.ext_iff]

/-- A row is not its own neighbour, though every neighbourhood begins with the
node it is about. -/
theorem secondary_of_ends (v : Listing) (r : Nat) :
    (v.highlight r).secondary.Pairwise (· < ·) ∧
      ∀ s, s ∈ (v.highlight r).secondary ↔ (r, s) ∈ v.ends ∨ (s, r) ∈ v.ends := by
  have hnear := neighbourhood_increasing r v.ends
  have hmem := fun s => mem_neighbourhood r s v.ends
  unfold highlight
  split
  · rename_i hloop
    have hself : (r, r) ∈ v.ends := by simpa using hloop
    constructor
    · exact hnear
    · intro s
      rw [hmem]
      constructor
      · intro hs
        cases hs with
        | inl he => exact Or.inl (he ▸ hself)
        | inr hs => exact hs
      · exact Or.inr
  · rename_i hloop
    have hself : (r, r) ∉ v.ends := by simpa using hloop
    constructor
    · exact hnear.filter _
    · intro s
      rw [List.mem_filter, hmem, bne_iff_ne]
      by_cases hs : s = r
      · simp [hs, hself]
      · simp [hs]

/-- The two ends of an arc, the one by the number and the other by the arc. -/
theorem ends_of_places (f g : Arc → Nat) (arcs : Array Arc) (r s : Nat) :
    (∃ k ∈ places (fun a => f a = r) arcs, ∃ a, arcs[k]? = some a ∧ g a = s) ↔
      ∃ a ∈ arcs.toList, f a = r ∧ g a = s := by
  simp only [mem_places, decide_eq_true_eq, Array.mem_toList_iff, Array.mem_iff_getElem?]
  constructor
  · rintro ⟨k, ⟨a, ha, hr⟩, b, hb, hs⟩
    rw [ha] at hb
    cases hb
    exact ⟨a, ⟨k, ha⟩, hr, hs⟩
  · rintro ⟨a, ⟨k, ha⟩, hr, hs⟩
    exact ⟨k, ⟨a, ha, hr⟩, a, ha, hs⟩

theorem ids_of_lt (hr : r < v.rows.size) : v.ids[r]? = some (v.idAt r) := by
  have hlen : r < v.ids.length := by simpa [ids] using hr
  rw [idAt_eq, List.getElem?_eq_getElem hlen, Option.getD_some]

/-- Numbers lead to arcs and arcs to rows, so each number has its id. -/
theorem ids_of_numbers (f : Arc → Nat) (numbers : List Nat)
    (hk : ∀ k ∈ numbers, ∃ a, v.arcs[k]? = some a ∧ f a < v.rows.size) :
    List.Forall₂ (fun k id => ∃ a, v.arcs[k]? = some a ∧ v.ids[f a]? = some id) numbers
      (numbers.map fun k => ((v.arcs[k]?.map f).map v.idAt).getD "") := by
  rw [List.forall₂_map_right_iff, List.forall₂_same]
  intro k hmem
  obtain ⟨a, ha, hlt⟩ := hk k hmem
  refine ⟨a, ha, ?_⟩
  rw [ha, Option.map_some, Option.map_some, Option.getD_some]
  exact ids_of_lt hlt

section Numbered

variable (h : Numbered v)
include h

theorem mem_outgoingAt (r k : Nat) :
    k ∈ v.outgoingAt r ↔ ∃ a, v.arcs[k]? = some a ∧ a.source = r := by
  rw [h.outgoing, mem_places]
  simp

theorem mem_incomingAt (r k : Nat) :
    k ∈ v.incomingAt r ↔ ∃ a, v.arcs[k]? = some a ∧ a.target = r := by
  rw [h.incoming, mem_places]
  simp

theorem lit_arcs_of_numbered (r k : Nat) :
    k ∈ (v.highlight r).arcs ↔ k ∈ v.outgoingAt r ∨ k ∈ v.incomingAt r := by
  have hlit : (v.highlight r).arcs = places (fun a => a.source == r || a.target == r) v.arcs := rfl
  rw [hlit, mem_places, mem_outgoingAt h, mem_incomingAt h]
  simp only [Bool.or_eq_true, beq_iff_eq]
  constructor
  · rintro ⟨a, ha, hr | hr⟩
    · exact Or.inl ⟨a, ha, hr⟩
    · exact Or.inr ⟨a, ha, hr⟩
  · rintro (⟨a, ha, hr⟩ | ⟨a, ha, hr⟩)
    · exact ⟨a, ha, Or.inl hr⟩
    · exact ⟨a, ha, Or.inr hr⟩

theorem lit_rows_of_numbered (r s : Nat) : s ∈ (v.highlight r).secondary ↔
    (∃ k ∈ v.outgoingAt r, ∃ a, v.arcs[k]? = some a ∧ a.target = s) ∨
    ∃ k ∈ v.incomingAt r, ∃ a, v.arcs[k]? = some a ∧ a.source = s := by
  rw [(secondary_of_ends v r).2, h.outgoing, h.incoming, ends_of_places Arc.source Arc.target,
    ends_of_places Arc.target Arc.source, mem_ends, mem_ends]
  simp only [and_comm]

theorem shadowed_of_numbered
    (harcs : ∀ a ∈ v.arcs.toList, ∃ s u, v.position? s = some a.source ∧
      v.position? u = some a.target) {i j : Nat} (hij : i < j) (hi : v.ids[i]? = some id)
    (hj : v.ids[j]? = some id) : v.outgoingAt i = [] ∧ v.incomingAt i = [] := by
  have hlast : ∀ s, v.position? s ≠ some i := by
    intro s hs
    have hp := (lastIndexOf_eq_some_iff s v.ids i).1 hs
    have hsame : s = id := Option.some.inj (hp.1.symm.trans hi)
    exact hp.2 j hij (hsame ▸ hj)
  simp only [List.eq_nil_iff_forall_not_mem, mem_outgoingAt h, mem_incomingAt h]
  constructor
  · rintro k ⟨a, ha, hr⟩
    obtain ⟨s, -, hs, -⟩ := harcs a (Array.mem_toList_iff.2 (Array.mem_of_getElem? ha))
    exact hlast s (hr ▸ hs)
  · rintro k ⟨a, ha, hr⟩
    obtain ⟨-, u, -, hu⟩ := harcs a (Array.mem_toList_iff.2 (Array.mem_of_getElem? ha))
    exact hlast u (hr ▸ hu)

end Numbered

/-- Links with both ends in rows become arcs, and no others. -/
theorem arcs_forall₂ (ids : List String) (ls : List Document.Link) :
    List.Forall₂ (fun l a => lastIndexOf l.source ids = some a.source ∧
        lastIndexOf l.target ids = some a.target ∧ a.value = l.value)
      (ls.filter fun l => l.source ∈ ids ∧ l.target ∈ ids) (ls.filterMap (arc? ids)) := by
  induction ls with
  | nil => exact .nil
  | cons l ls ih =>
    have hsource := lastIndexOf_eq_none_iff l.source ids
    have htarget := lastIndexOf_eq_none_iff l.target ids
    rw [List.filter_cons, List.filterMap_cons, arc?]
    cases hs : lastIndexOf l.source ids with
    | none => simpa [hsource.1 hs] using ih
    | some s =>
      cases ht : lastIndexOf l.target ids with
      | none => simpa [htarget.1 ht] using ih
      | some t =>
        have hboth : l.source ∈ ids ∧ l.target ∈ ids :=
          ⟨List.mem_of_getElem? (getElem?_of_lastIndexOf hs),
            List.mem_of_getElem? (getElem?_of_lastIndexOf ht)⟩
        rw [if_pos (by simpa using hboth)]
        exact .cons ⟨hs, ht, rfl⟩ ih

theorem positions_of_arc (d : Document) {a : Arc} (ha : a ∈ (ofDocument d).arcs.toList) :
    ∃ s u, (ofDocument d).position? s = some a.source ∧
      (ofDocument d).position? u = some a.target := by
  rw [arcs_ofDocument, ← ids_ofDocument, List.mem_filterMap] at ha
  obtain ⟨l, -, hl⟩ := ha
  unfold arc? at hl
  split at hl
  · rename_i s t hs ht
    cases hl
    exact ⟨l.source, l.target, hs, ht⟩
  · cases hl

/-- Rows, highlights and summaries of a list are readings of its arcs, and the
arcs are the links of the document between the last rows of their ends. -/
theorem ofDocument_incident (d : Document) : Incident d (ofDocument d) := by
  have h := numbered_ofDocument d
  have hids := ids_ofDocument d
  constructor
  · exact hids
  · exact fun id i => lastIndexOf_eq_some_iff id _ i
  · exact directory_eq_position? d
  · rw [arcs_ofDocument, ← hids]
    exact arcs_forall₂ _ d.links
  · intro r
    exact ⟨h.outgoing r ▸ places_increasing _ _, mem_outgoingAt h r⟩
  · intro r
    exact ⟨h.incoming r ▸ places_increasing _ _, mem_incomingAt h r⟩
  · intro i j id hij hi hj
    exact shadowed_of_numbered h (fun a ha => positions_of_arc d ha) hij hi hj
  · intro r
    exact ⟨places_increasing _ _, lit_arcs_of_numbered h r⟩
  · intro r
    exact ⟨(secondary_of_ends _ r).1, lit_rows_of_numbered h r⟩
  · intro r
    rw [(secondary_of_ends _ r).2, or_self, mem_ends]
  · intro r
    apply ids_of_numbers Arc.target
    intro k hk
    obtain ⟨a, ha, -⟩ := (mem_outgoingAt h r k).1 hk
    exact ⟨a, ha, (h.ends a (Array.mem_toList_iff.2 (Array.mem_of_getElem? ha))).2⟩
  · intro r
    apply ids_of_numbers Arc.source
    intro k hk
    obtain ⟨a, ha, -⟩ := (mem_incomingAt h r k).1 hk
    exact ⟨a, ha, (h.ends a (Array.mem_toList_iff.2 (Array.mem_of_getElem? ha))).1⟩
  · intro r s
    rw [(secondary_of_ends _ r).2, (secondary_of_ends _ s).2, or_comm]

/-- The first of the two rows named `a` has no arcs; the other is its own
neighbour. -/
example :
    let v := ofDocument ⟨[⟨"a", 1⟩, ⟨"b", 1⟩, ⟨"a", 2⟩],
      [⟨"a", "b", 1.0⟩, ⟨"a", "a", 1.0⟩, ⟨"b", "c", 1.0⟩, ⟨"a", "b", 2.0⟩]⟩
    v.highlight 0 = ⟨0, [], []⟩ ∧ v.highlight 2 = ⟨2, [1, 2], [0, 1, 2]⟩ ∧
      v.summary 2 = ⟨"a", ["a"], ["b", "a", "b"]⟩ := by decide

end Listing

end UseGraph
