import UseGraph.Crosslink
import UseGraph.Proofs.Registers
import UseGraph.Proofs.Representation

/-!
# Which links a hierarchy has

Rebuilt from its segments, the path of an entry is its name, so uses resolve
against the names of the entries with a payload. An entry then has one link
for every use, in order, and is entered at by the links that lead to it.
-/

set_option autoImplicit false

namespace UseGraph

/-- Grouping by a key neither loses nor repeats anything. -/
theorem flatMap_filter_perm {α κ : Type} [DecidableEq κ] (key : α → κ) (keys : List κ)
    (hn : keys.Nodup) (ls : List α) (h : ∀ l ∈ ls, key l ∈ keys) :
    (keys.flatMap fun k => ls.filter fun l => key l = k).Perm ls := by
  induction keys generalizing ls with
  | nil =>
    have hnil : ls = [] := List.eq_nil_iff_forall_not_mem.2 fun l hl => by simpa using h l hl
    simp [hnil]
  | cons k keys ih =>
    obtain ⟨hk, hkeys⟩ := List.nodup_cons.1 hn
    have hrest : (keys.flatMap fun k' => ls.filter fun l => key l = k') =
        keys.flatMap fun k' => (ls.filter fun l => ¬key l = k).filter fun l => key l = k' := by
      apply List.flatMap_congr
      intro k' hk'
      rw [List.filter_filter]
      apply List.filter_congr
      intro l _
      by_cases hl : key l = k'
      · have hne : key l ≠ k := fun he => hk (he ▸ hl ▸ hk')
        simp [hl, hl ▸ hne]
      · simp [hl]
    have hperm := ih hkeys (ls.filter fun l => ¬key l = k) (by
      intro l hl
      obtain ⟨hmem, hne⟩ := List.mem_filter.1 hl
      exact (List.mem_cons.1 (h l hmem)).resolve_left (by simpa using hne))
    rw [List.flatMap_cons, hrest]
    have hsplit := List.filter_append_perm (fun l => decide (key l = k)) ls
    simp only [decide_not] at hperm ⊢
    exact (hperm.append_left _).trans hsplit

namespace Hierarchy

variable {α : Type} {d : String} {pay : String → Option α} {t : Hierarchy α} {id k : Nat}

theorem ascentFrom_ne_nil (t : Hierarchy α) (k id : Nat) : t.ascentFrom k id ≠ [] := by
  cases k with
  | zero => simp [ascentFrom]
  | succ k =>
    unfold ascentFrom
    split <;> simp

theorem segment_of_top (h : Rooted d pay t) (hid : id < t.size) (hp : t.parent? id = none) :
    t.segment id = t.name id := by
  rw [h.segment_eq hid]
  exact Path.segment_of_top ((h.parent?_none_iff hid).1 hp)

/-- The index bounds the height, so the climb is never cut short. -/
theorem intercalate_ascentFrom (h : Rooted d pay t) (hid : id < t.size) (hk : id ≤ k) :
    d.intercalate ((t.ascentFrom k id).reverse.map t.segment) = t.name id := by
  induction k generalizing id with
  | zero =>
    have hp : t.parent? id = none := by
      rw [Option.eq_none_iff_forall_ne_some]
      intro p hp
      have hlt := h.parent_lt hp
      omega
    simp [ascentFrom, segment_of_top h hid hp]
  | succ k ih =>
    cases hp : t.parent? id with
    | none => simp [ascentFrom, hp, segment_of_top h hid hp]
    | some p =>
      obtain ⟨-, hpl, hn⟩ := (h.parent?_iff id p).1 hp
      have hlt := h.parent_lt hp
      have hne : (t.ascentFrom k p).reverse.map t.segment ≠ [] := by
        simpa using ascentFrom_ne_nil t k p
      simp only [ascentFrom, hp, List.reverse_cons, List.map_append, List.map_cons, List.map_nil]
      rw [String.intercalate_append_of_ne_nil hne (by simp), ih hpl (by omega),
        String.intercalate_singleton, h.segment_eq hid]
      exact (Path.eq_of_parent hn).symm

theorem fullPath_eq (h : Rooted d pay t) (hid : id < t.size) : t.fullPath id = t.name id := by
  rw [fullPath, ascent, h.delimiter]
  exact intercalate_ascentFrom h hid (Nat.le_of_lt hid)

theorem lt_of_mem_records (hid : id ∈ t.records) : id < t.size :=
  lt_of_payload (List.mem_filter.1 hid).2

theorem record_names_nodup (h : Rooted d pay t) : (t.records.map t.name).Nodup := by
  apply List.Nodup.map_on ?_ (records_nodup h.shaped)
  intro x hx y hy he
  exact h.name_injective (lt_of_mem_records hx) (lt_of_mem_records hy) he

end Hierarchy

namespace Crosslinked

open Hierarchy

variable {d : String} {pay : String → Option Uses} {t : Hierarchy Uses}

theorem lookup_paths (h : Rooted d pay t) (ids : List Nat) (hids : ∀ id ∈ ids, id < t.size)
    (s : String) (x : Nat) :
    (ids.map fun id => (t.fullPath id, id)).lookup s = some x ↔ x ∈ ids ∧ t.name x = s := by
  induction ids with
  | nil => simp
  | cons id ids ih =>
    obtain ⟨hid, hrest⟩ := List.forall_mem_cons.1 hids
    rw [List.map_cons, Register.lookup_entry, fullPath_eq h hid]
    by_cases hs : s = t.name id
    · rw [if_pos hs, Option.some.injEq, hs]
      constructor
      · rintro rfl
        exact ⟨List.mem_cons_self, rfl⟩
      · rintro ⟨hx, hn⟩
        exact h.name_injective hid (hids x hx) hn.symm
    · rw [if_neg hs, ih hrest, List.mem_cons]
      constructor
      · rintro ⟨hx, hn⟩
        exact ⟨Or.inr hx, hn⟩
      · rintro ⟨rfl | hx, hn⟩
        · exact absurd hn.symm hs
        · exact ⟨hx, hn⟩

theorem lookup_directory_iff (h : Rooted d pay t) (s : String) (x : Nat) :
    (directory t).lookup s = some x ↔ x ∈ t.records ∧ t.name x = s :=
  lookup_paths h t.records (fun _ hid => lt_of_mem_records hid) s x

section Table

variable (table : Array Adjacency)

@[simp] theorem declare_size (id : Nat) (ls : List Crosslink) :
    (declare table id ls).size = table.size := by
  simp [declare]

@[simp] theorem receive_size (l : Crosslink) : (receive table l).size = table.size := by
  unfold receive
  split <;> simp

theorem outgoingAt_declare (id x : Nat) (ls : List Crosslink) (hx : x < table.size) :
    outgoingAt (declare table id ls) x = if id = x then ls else outgoingAt table x := by
  have ha : table[x]? = some table[x] := Array.getElem?_eq_getElem hx
  rw [outgoingAt, outgoingAt, declare, Array.getElem?_modify, ha]
  by_cases hid : id = x <;> simp [hid]

theorem incomingAt_declare (id x : Nat) (ls : List Crosslink) :
    incomingAt (declare table id ls) x = incomingAt table x := by
  rw [incomingAt, incomingAt, declare, Array.getElem?_modify]
  by_cases hid : id = x
  · cases table[x]? <;> simp [hid]
  · simp [hid]

theorem outgoingAt_receive (l : Crosslink) (x : Nat) :
    outgoingAt (receive table l) x = outgoingAt table x := by
  unfold receive
  split
  · rename_i i hi
    rw [outgoingAt, outgoingAt, Array.getElem?_modify]
    by_cases hid : i = x
    · cases table[x]? <;> simp [hid]
    · simp [hid]
  · rfl

theorem incomingAt_receive (l : Crosslink) (x : Nat) (hx : x < table.size) :
    incomingAt (receive table l) x =
      incomingAt table x ++ if l.target = some x then [l] else [] := by
  have ha : table[x]? = some table[x] := Array.getElem?_eq_getElem hx
  unfold receive
  split
  · rename_i i hi
    rw [incomingAt, incomingAt, Array.getElem?_modify, ha, hi]
    by_cases hid : i = x <;> simp [hid]
  · rename_i hi
    simp [hi]

end Table

theorem outgoingAt_declare_all (ids : List Nat) (ls : Nat → List Crosslink)
    (table : Array Adjacency) (x : Nat) (hx : x < table.size) :
    outgoingAt (ids.foldl (fun table id => declare table id (ls id)) table) x =
      if x ∈ ids then ls x else outgoingAt table x := by
  induction ids generalizing table with
  | nil => simp
  | cons id ids ih =>
    rw [List.foldl_cons, ih _ (by simpa using hx), outgoingAt_declare table id x _ hx]
    by_cases hm : x ∈ ids
    · simp [hm]
    · by_cases hid : id = x
      · simp [hid]
      · simp [hm, hid, Ne.symm hid]

theorem incomingAt_declare_all (ids : List Nat) (ls : Nat → List Crosslink)
    (table : Array Adjacency) (x : Nat) :
    incomingAt (ids.foldl (fun table id => declare table id (ls id)) table) x =
      incomingAt table x := by
  induction ids generalizing table with
  | nil => rfl
  | cons id ids ih => rw [List.foldl_cons, ih, incomingAt_declare]

theorem declare_all_size (ids : List Nat) (ls : Nat → List Crosslink)
    (table : Array Adjacency) :
    (ids.foldl (fun table id => declare table id (ls id)) table).size = table.size := by
  induction ids generalizing table with
  | nil => rfl
  | cons id ids ih => rw [List.foldl_cons, ih, declare_size]

theorem received_size (ls : List Crosslink) (table : Array Adjacency) :
    (ls.foldl receive table).size = table.size := by
  induction ls generalizing table with
  | nil => rfl
  | cons l ls ih => rw [List.foldl_cons, ih, receive_size]

theorem outgoingAt_received (ls : List Crosslink) (table : Array Adjacency) (x : Nat) :
    outgoingAt (ls.foldl receive table) x = outgoingAt table x := by
  induction ls generalizing table with
  | nil => rfl
  | cons l ls ih => rw [List.foldl_cons, ih, outgoingAt_receive]

theorem incomingAt_received (ls : List Crosslink) (table : Array Adjacency) (x : Nat)
    (hx : x < table.size) : incomingAt (ls.foldl receive table) x =
      incomingAt table x ++ ls.filter fun l => l.target = some x := by
  induction ls generalizing table with
  | nil => simp
  | cons l ls ih =>
    rw [List.foldl_cons, ih _ (by simpa using hx), incomingAt_receive table l x hx]
    by_cases hl : l.target = some x <;> simp [hl]

theorem outgoingAt_of_size_le {table : Array Adjacency} {x : Nat} (hx : table.size ≤ x) :
    outgoingAt table x = [] := by
  simp [outgoingAt, Array.getElem?_eq_none_iff.2 hx]

theorem incomingAt_of_size_le {table : Array Adjacency} {x : Nat} (hx : table.size ≤ x) :
    incomingAt table x = [] := by
  simp [incomingAt, Array.getElem?_eq_none_iff.2 hx]

def declared (t : Hierarchy Uses) : Array Adjacency :=
  t.records.foldl (fun table id => declare table id (linksFrom t (directory t) id))
    (Array.replicate t.size ⟨[], []⟩)

theorem adjacency_eq (t : Hierarchy Uses) : (ofHierarchy t).adjacency =
    (t.records.flatMap (outgoingAt (declared t))).foldl receive (declared t) := rfl

theorem declared_size (t : Hierarchy Uses) : (declared t).size = t.size := by
  rw [declared, declare_all_size, Array.size_replicate]

theorem outgoing_declared (t : Hierarchy Uses) (x : Nat) :
    (ofHierarchy t).outgoing x = outgoingAt (declared t) x := by
  rw [outgoing, adjacency_eq, outgoingAt_received]

theorem incomingAt_declared (t : Hierarchy Uses) (x : Nat) : incomingAt (declared t) x = [] := by
  rw [declared, incomingAt_declare_all]
  by_cases hx : x < t.size
  · simp [incomingAt, hx]
  · exact incomingAt_of_size_le (by simpa using hx)

/-- What is attached depends on the records alone, and stays as declared. -/
theorem outgoing_eq (t : Hierarchy Uses) (x : Nat) : (ofHierarchy t).outgoing x =
    if x ∈ t.records then linksFrom t (directory t) x else [] := by
  rw [outgoing_declared]
  by_cases hx : x < t.size
  · rw [declared, outgoingAt_declare_all t.records _ _ x (by simpa using hx)]
    simp [outgoingAt, hx]
  · have hno : x ∉ t.records := fun hm => hx (lt_of_mem_records hm)
    rw [if_neg hno]
    apply outgoingAt_of_size_le
    rw [declared_size]
    omega

theorem links_eq (t : Hierarchy Uses) :
    (ofHierarchy t).links = t.records.flatMap (linksFrom t (directory t)) := by
  apply List.flatMap_congr
  intro x hx
  have hx' : x ∈ t.records := hx
  rw [outgoing_eq, if_pos hx']

theorem mem_records_of_lookup {s : String} {x : Nat} (h : (directory t).lookup s = some x) :
    x ∈ t.records := by
  obtain ⟨front, back, he, -⟩ := List.lookup_eq_some_iff.1 h
  have hm : (s, x) ∈ directory t := by simp [he]
  obtain ⟨id, hid, hs⟩ := List.mem_map.1 hm
  cases hs
  exact hid

theorem target_of_mem_links {l : Crosslink} {x : Nat}
    (hl : l ∈ (ofHierarchy t).links) (hx : l.target = some x) : x ∈ t.records := by
  rw [links_eq, List.mem_flatMap] at hl
  obtain ⟨y, -, hl⟩ := hl
  obtain ⟨s, -, rfl⟩ := List.mem_map.1 hl
  exact mem_records_of_lookup hx

theorem source_of_mem_links {l : Crosslink} (hl : l ∈ (ofHierarchy t).links) :
    l.source ∈ t.records := by
  rw [links_eq, List.mem_flatMap] at hl
  obtain ⟨x, hx, hl⟩ := hl
  obtain ⟨s, -, rfl⟩ := List.mem_map.1 hl
  exact hx

/-- An entry is entered at by just the links that lead to it. -/
theorem incoming_eq (t : Hierarchy Uses) (x : Nat) : (ofHierarchy t).incoming x =
    (ofHierarchy t).links.filter fun l => l.target = some x := by
  have hlinks : (ofHierarchy t).links = t.records.flatMap (outgoingAt (declared t)) := by
    apply List.flatMap_congr
    intro id _
    exact outgoing_declared t id
  by_cases hx : x < t.size
  · rw [incoming, adjacency_eq, incomingAt_received _ _ x (by rwa [declared_size]),
      incomingAt_declared, List.nil_append, hlinks]
  · have hnone : ((ofHierarchy t).links.filter fun l => l.target = some x) = [] := by
      rw [List.filter_eq_nil_iff]
      intro l hl hlx
      exact hx (lt_of_mem_records (target_of_mem_links hl (by simpa using hlx)))
    rw [hnone]
    apply incomingAt_of_size_le
    rw [adjacency_eq, received_size, declared_size]
    omega

end Crosslinked

end UseGraph
