import UseGraph.Layout.Listing

/-!
# Which arcs the list has

The ids of the rows never change, so a link is an arc between the last rows
that have its ends, or none when one end has no row. Of several rows with one
id only the last has arcs, and between two ids there are as many arcs as
links.
-/

set_option autoImplicit false

namespace UseGraph.Listing

variable {x : String} {xs : List String} {i : Nat}

theorem lastIndexOf_eq_none_iff (x : String) (xs : List String) :
    lastIndexOf x xs = none ↔ x ∉ xs := by
  induction xs with
  | nil => simp [lastIndexOf]
  | cons y xs ih =>
    rw [lastIndexOf, List.mem_cons, not_or]
    cases h : lastIndexOf x xs with
    | some k => simp [← ih, h]
    | none => by_cases hy : y = x <;> simp [← ih, h, hy, eq_comm (a := x)]

theorem getElem?_of_lastIndexOf (h : lastIndexOf x xs = some i) : xs[i]? = some x := by
  induction xs generalizing i with
  | nil => cases h
  | cons y xs ih =>
    rw [lastIndexOf] at h
    cases hr : lastIndexOf x xs with
    | some k =>
      have hi : k + 1 = i := by simpa [hr] using h
      rw [← hi, List.getElem?_cons_succ]
      exact ih hr
    | none =>
      by_cases hy : y = x
      · have hi : 0 = i := by simpa [hr, hy] using h
        rw [← hi, hy, List.getElem?_cons_zero]
      · simp [hr, hy] at h

def arc? (ids : List String) (l : Document.Link) : Option Arc :=
  match lastIndexOf l.source ids, lastIndexOf l.target ids with
  | some s, some t => some ⟨s, t, l.value⟩
  | _, _ => none

theorem map_modify {β : Type} (field : Row → β) (rows : Array Row) (i : Nat) (f : Row → Row)
    (hf : ∀ r, field (f r) = field r) :
    (rows.modify i f).toList.map field = rows.toList.map field := by
  apply List.ext_getElem?
  intro k
  rw [List.getElem?_map, List.getElem?_map, Array.getElem?_toList, Array.getElem?_toList,
    Array.getElem?_modify]
  by_cases hk : i = k
  · cases rows[k]? <;> simp [hk, hf]
  · simp [hk]

theorem lastIndexOf_concat (x y : String) (xs : List String) :
    lastIndexOf x (xs ++ [y]) = if y = x then some xs.length else lastIndexOf x xs := by
  induction xs with
  | nil => rfl
  | cons z xs ih =>
    rw [List.cons_append, lastIndexOf, ih, lastIndexOf]
    by_cases hy : y = x <;> simp [hy]

/-- What is found newest first is what stands last. -/
theorem lookup_zipIdx_reverse (x : String) (xs : List String) (k : Nat) :
    (xs.zipIdx k).reverse.lookup x = (lastIndexOf x xs).map (· + k) := by
  induction xs generalizing k with
  | nil => rfl
  | cons y xs ih =>
    rw [List.zipIdx_cons, List.reverse_cons, List.lookup_append, ih, lastIndexOf]
    cases lastIndexOf x xs with
    | some i => simp [Nat.add_assoc, Nat.add_comm 1]
    | none =>
      by_cases hy : y = x
      · simp [hy]
      · simp [hy, Ne.symm hy]

theorem lookup_directory (d : Document) (id : String) :
    (directory d).lookup id = lastIndexOf id (d.nodes.map Document.Node.id) := by
  rw [directory, lookup_zipIdx_reverse]
  simp

theorem ids_addLink (dir : List (String × Nat)) (v : Listing) (l : Document.Link) :
    (addLink dir v l).ids = v.ids := by
  unfold addLink
  split
  · rw [ids, addArc, map_modify, map_modify, ids]
    · intro r
      rfl
    · intro r
      rfl
  · rfl

theorem arcs_addLink (d : Document) (v : Listing) (l : Document.Link) :
    (addLink (directory d) v l).arcs.toList =
      v.arcs.toList ++ (arc? (d.nodes.map Document.Node.id) l).toList := by
  rw [addLink, lookup_directory, lookup_directory, arc?]
  split <;> simp [addArc, *]

theorem ids_addLinks (dir : List (String × Nat)) (v : Listing) (ls : List Document.Link) :
    (ls.foldl (addLink dir) v).ids = v.ids := by
  induction ls generalizing v with
  | nil => rfl
  | cons l ls ih => rw [List.foldl_cons, ih, ids_addLink]

theorem arcs_addLinks (d : Document) (v : Listing) (ls : List Document.Link) :
    (ls.foldl (addLink (directory d)) v).arcs.toList =
      v.arcs.toList ++ ls.filterMap (arc? (d.nodes.map Document.Node.id)) := by
  induction ls generalizing v with
  | nil => simp
  | cons l ls ih =>
    rw [List.foldl_cons, ih, arcs_addLink, List.append_assoc, List.filterMap_cons]
    cases arc? (d.nodes.map Document.Node.id) l <;> rfl

theorem ids_ofDocument (d : Document) : (ofDocument d).ids = d.nodes.map Document.Node.id := by
  rw [ofDocument, ids_addLinks]
  simp [ids, Function.comp_def]

theorem arcs_ofDocument (d : Document) : (ofDocument d).arcs.toList =
    d.links.filterMap (arc? (d.nodes.map Document.Node.id)) := by
  rw [ofDocument, arcs_addLinks]
  simp

/-- The row that a link's end leads to while the list is made is the row that is found later. -/
theorem directory_eq_position? (d : Document) (id : String) :
    (directory d).lookup id = (ofDocument d).position? id := by
  rw [lookup_directory, position?, ids_ofDocument]

theorem idAt_eq (v : Listing) (i : Nat) : v.idAt i = v.ids[i]?.getD "" := by
  simp [idAt, ids]

/-- The ends of an arc stand in rows with the ends of its link. -/
theorem idAt_arc {v : Listing} {l : Document.Link} {a : Arc} (h : arc? v.ids l = some a) :
    v.idAt a.source = l.source ∧ v.idAt a.target = l.target := by
  unfold arc? at h
  split at h
  · rename_i s t hs ht
    cases h
    rw [idAt_eq, idAt_eq, getElem?_of_lastIndexOf hs, getElem?_of_lastIndexOf ht]
    exact ⟨rfl, rfl⟩
  · cases h

theorem arc?_eq_none (ids : List String) (l : Document.Link) (h : arc? ids l = none) :
    l.source ∉ ids ∨ l.target ∉ ids := by
  rw [← lastIndexOf_eq_none_iff, ← lastIndexOf_eq_none_iff]
  unfold arc? at h
  cases hs : lastIndexOf l.source ids with
  | none => exact Or.inl rfl
  | some s =>
    cases ht : lastIndexOf l.target ids with
    | none => exact Or.inr rfl
    | some t => simp [hs, ht] at h

theorem count_arcs (d : Document) (s t : String) (hs : ∃ v ∈ d.nodes, v.id = s)
    (ht : ∃ v ∈ d.nodes, v.id = t) :
    ((ofDocument d).arcs.toList.countP fun a =>
      (ofDocument d).idAt a.source = s ∧ (ofDocument d).idAt a.target = t) =
      d.links.countP fun l => l.source = s ∧ l.target = t := by
  have hids := ids_ofDocument d
  rw [arcs_ofDocument, List.countP_filterMap, ← hids]
  apply List.countP_congr
  intro l _
  cases ha : arc? (ofDocument d).ids l with
  | some a =>
    obtain ⟨hsource, htarget⟩ := idAt_arc ha
    simp [hsource, htarget]
  | none =>
    simp only [Option.map_none, Option.getD_none, Bool.false_eq_true, false_iff,
      decide_eq_true_eq]
    rintro ⟨rfl, rfl⟩
    rcases arc?_eq_none _ l ha with hno | hno
    · exact hno (hids ▸ List.mem_map.2 hs)
    · exact hno (hids ▸ List.mem_map.2 ht)

end UseGraph.Listing
