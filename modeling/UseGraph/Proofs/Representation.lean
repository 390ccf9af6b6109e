import UseGraph.Proofs.Acceptance
import UseGraph.Proofs.Walks

/-!
# What a hierarchy of records looks like

Entries and names determine each other, parents are the names before the last
delimiter, and children lists are the parents read the other way. The names
are those of the records and of everything above them, the payloads are the
records' own, and siblings stand in the order of their first records.
-/

set_option autoImplicit false

namespace UseGraph.Hierarchy

open UseGraph.Growth

variable {α : Type} {d s : String} {rs : List (Record α)} {pay : String → Option α}
  {t : Hierarchy α} {id c p x y : Nat}

structure Rooted (d : String) (pay : String → Option α) (t : Hierarchy α) : Prop where
  delimiter : t.delimiter = d
  delimited : d ≠ ""
  stands : Forest.Stands d pay none t.forest
  root : t.root < t.size
  top : Path.parent? d (t.name t.root) = none

structure Built (d : String) (rs : List (Record α)) (t : Hierarchy α) : Prop
    extends Rooted d (Forest.payloadIn rs) t where
  names : t.forest.names = growth d (rs.map Record.name)
  fitting : Fitting d (t.name t.root) (rs.map Record.name)

theorem entry_of_lt (h : id < t.size) : ∃ e, t.entry? id = some e :=
  ⟨t.forest[id], Array.getElem?_eq_getElem h⟩

theorem lt_of_entry {e : Entry α} (h : t.entry? id = some e) : id < t.size :=
  (Array.getElem?_eq_some_iff.1 h).1

theorem lt_of_payload (h : (t.payload? id).isSome = true) : id < t.size := by
  obtain ⟨a, ha⟩ := Option.isSome_iff_exists.1 h
  obtain ⟨e, he, -⟩ := Option.bind_eq_some_iff.1 ha
  exact lt_of_entry he

theorem names_getElem?_iff (t : Hierarchy α) (id : Nat) (s : String) :
    t.forest.names[id]? = some s ↔ id < t.size ∧ t.name id = s := by
  rw [Forest.names_getElem?]
  constructor
  · intro h
    obtain ⟨e, he, rfl⟩ := Option.map_eq_some_iff.1 h
    have he' : t.entry? id = some e := he
    exact ⟨lt_of_entry he, by simp [name, he']⟩
  · rintro ⟨hid, rfl⟩
    obtain ⟨e, he⟩ := entry_of_lt hid
    have he' : t.forest[id]? = some e := he
    simp [name, he, he']

theorem lookup_lt {s : String} (h : t.lookup s = some id) : id < t.size :=
  ((names_getElem?_iff t id s).1 (Forest.names_of_find? h)).1

theorem name_of_lookup {s : String} (h : t.lookup s = some id) : t.name id = s :=
  ((names_getElem?_iff t id s).1 (Forest.names_of_find? h)).2

theorem mem_names_iff (t : Hierarchy α) (s : String) :
    s ∈ t.forest.names ↔ ∃ id < t.size, t.name id = s := by
  rw [List.mem_iff_getElem?]
  constructor
  · rintro ⟨i, hi⟩
    exact ⟨i, (names_getElem?_iff t i s).1 hi⟩
  · rintro ⟨i, hi⟩
    exact ⟨i, (names_getElem?_iff t i s).2 hi⟩

namespace Rooted

theorem fits (h : Rooted d pay t) {e : Entry α} (he : t.entry? id = some e) :
    Forest.Fits d t.forest.names pay none id e :=
  h.stands.fits id e he

theorem lookup_iff (h : Rooted d pay t) (s : String) (id : Nat) :
    t.lookup s = some id ↔ id < t.size ∧ t.name id = s :=
  (Forest.find?_eq_some_iff h.stands.laid s id).trans (names_getElem?_iff t id s)

theorem name_injective (h : Rooted d pay t) (hid : id < t.size) (hc : c < t.size)
    (hn : t.name id = t.name c) : id = c :=
  h.stands.laid.place_unique ((names_getElem?_iff t id _).2 ⟨hid, hn⟩)
    ((names_getElem?_iff t c _).2 ⟨hc, rfl⟩)

theorem parent?_iff (h : Rooted d pay t) (id p : Nat) : t.parent? id = some p ↔
    id < t.size ∧ p < t.size ∧ Path.parent? d (t.name id) = some (t.name p) := by
  constructor
  · intro hp
    obtain ⟨e, he, hep⟩ := Option.bind_eq_some_iff.1 hp
    have hf := (h.fits he).parent
    rw [hep] at hf
    obtain ⟨s, hs, hps⟩ := hf.of_entry
    obtain ⟨hpl, rfl⟩ := (names_getElem?_iff t p s).1 hps
    exact ⟨lt_of_entry he, hpl, by simpa [name, he] using hs⟩
  · rintro ⟨hid, hp, hs⟩
    obtain ⟨e, he⟩ := entry_of_lt hid
    have hf := (h.fits he).parent
    have hs' : Path.parent? d e.name = some (t.name p) := by simpa [name, he] using hs
    rw [hs'] at hf
    obtain ⟨k, hk, hkn⟩ := hf.of_name
    obtain ⟨hkl, hkp⟩ := (names_getElem?_iff t k _).1 hkn
    rw [parent?, he, Option.bind_some, hk, h.name_injective hkl hp hkp]

theorem parent?_none_iff (h : Rooted d pay t) (hid : id < t.size) :
    t.parent? id = none ↔ Path.parent? d (t.name id) = none := by
  obtain ⟨e, he⟩ := entry_of_lt hid
  have hn := (h.fits he).parent.none_iff
  simpa [parent?, name, he] using hn

theorem parent_of_name (h : Rooted d pay t) (hid : id < t.size)
    (hs : Path.parent? d (t.name id) = some s) :
    ∃ p < id, t.parent? id = some p ∧ t.name p = s := by
  obtain ⟨p, hlt, hp⟩ := h.stands.laid.parent id _ _
    ((names_getElem?_iff t id _).2 ⟨hid, rfl⟩) hs
  obtain ⟨hpl, rfl⟩ := (names_getElem?_iff t p s).1 hp
  exact ⟨p, hlt, (h.parent?_iff id p).2 ⟨hid, hpl, hs⟩, rfl⟩

theorem parent_lt (h : Rooted d pay t) (hp : t.parent? id = some p) : p < id := by
  obtain ⟨hid, -, hs⟩ := (h.parent?_iff id p).1 hp
  obtain ⟨k, hlt, hk, -⟩ := h.parent_of_name hid hs
  rw [hp] at hk
  cases hk
  exact hlt

theorem children_eq (h : Rooted d pay t) (hp : p < t.size) :
    t.children p = Forest.childIds d t.forest.names (t.name p) := by
  obtain ⟨e, he⟩ := entry_of_lt hp
  simpa [children, name, he] using (h.fits he).children

theorem mem_children_iff (h : Rooted d pay t) (c p : Nat) :
    c ∈ t.children p ↔ t.parent? c = some p := by
  by_cases hp : p < t.size
  · rw [h.children_eq hp, Forest.mem_childIds, h.parent?_iff]
    constructor
    · rintro ⟨s, hs, hsp⟩
      obtain ⟨hc, rfl⟩ := (names_getElem?_iff t c s).1 hs
      exact ⟨hc, hp, hsp⟩
    · rintro ⟨hc, -, hcp⟩
      exact ⟨t.name c, (names_getElem?_iff t c _).2 ⟨hc, rfl⟩, hcp⟩
  · have hnone : t.entry? p = none := Array.getElem?_eq_none_iff.2 (Nat.le_of_not_lt hp)
    simp only [children, hnone, Option.map_none, Option.getD_none, List.not_mem_nil, false_iff]
    intro hc
    exact hp ((h.parent?_iff c p).1 hc).2.1

theorem children_increasing (h : Rooted d pay t) (p : Nat) :
    (t.children p).Pairwise (· < ·) := by
  by_cases hp : p < t.size
  · rw [h.children_eq hp]
    exact List.pairwise_lt_range.filter _
  · have hnone : t.entry? p = none := Array.getElem?_eq_none_iff.2 (Nat.le_of_not_lt hp)
    simp [children, hnone]

theorem children_nodup (h : Rooted d pay t) (p : Nat) : (t.children p).Nodup :=
  (h.children_increasing p).imp (fun hlt => Nat.ne_of_lt hlt)

theorem isLeaf_iff (h : Rooted d pay t) (hid : id < t.size) :
    t.isLeaf id = true ↔ t.children id = [] ∧ t.parent? id ≠ none := by
  obtain ⟨e, he⟩ := entry_of_lt hid
  simpa [isLeaf, children, parent?, he] using (h.fits he).leaf

theorem payload?_eq (h : Rooted d pay t) (hid : id < t.size) :
    t.payload? id = pay (t.name id) := by
  obtain ⟨e, he⟩ := entry_of_lt hid
  simpa [payload?, name, he] using (h.fits he).payload

theorem segment_eq (h : Rooted d pay t) (hid : id < t.size) :
    t.segment id = Path.segment d (t.name id) := by
  obtain ⟨e, he⟩ := entry_of_lt hid
  simpa [segment, name, he] using (h.fits he).segment

theorem root_top (h : Rooted d pay t) : t.parent? t.root = none :=
  (h.parent?_none_iff h.root).2 h.top

theorem shaped (h : Rooted d pay t) : Shaped t :=
  ⟨fun _ _ hp => h.parent_lt hp, h.mem_children_iff, h.children_nodup, h.root⟩

/-- Entries stand above each other exactly as their names do. -/
theorem climbs_iff (h : Rooted d pay t) (hy : y < t.size) : Climbs t.parent? x y ↔
    x < t.size ∧ Path.AtOrBelow d (t.name x) (t.name y) := by
  constructor
  · intro hc
    refine ⟨lt_size_of_climbs hc hy, ?_⟩
    induction hc using Relation.ReflTransGen.head_induction_on with
    | refl => exact Climbs.refl (t.name y)
    | head hp _ ih => exact Climbs.head ((h.parent?_iff _ _).1 hp).2.2 ih
  · rintro ⟨hx, hc⟩
    generalize hs : t.name x = s at hc
    induction hc using Relation.ReflTransGen.head_induction_on generalizing x with
    | refl =>
      rw [h.name_injective hx hy hs]
      exact Climbs.refl y
    | head hp _ ih =>
      obtain ⟨p, -, hxp, hn⟩ := h.parent_of_name hx (hs ▸ hp)
      exact Climbs.head hxp (ih ((h.parent?_iff x p).1 hxp).2.1 hn)

/-- Where the names with a parent are those that something listed is at or
below, an entry without children has none of it below but itself. -/
theorem childless_iff (h : Rooted d pay t) (below : List String)
    (hb : ∀ s p, Path.parent? d s = some p →
      ((∃ id < t.size, t.name id = s) ↔ ∃ r ∈ below, Path.AtOrBelow d r s))
    (hid : id < t.size) : t.children id = [] ↔
      ∀ r ∈ below, Path.AtOrBelow d r (t.name id) → r = t.name id := by
  rw [List.eq_nil_iff_forall_not_mem]
  constructor
  · intro hno r hr hc
    rcases hc.eq_or_last with he | ⟨s, hs, hsp⟩
    · exact he
    · obtain ⟨c, hcl, rfl⟩ := (hb s _ hsp).2 ⟨r, hr, hs⟩
      have hmem := (h.mem_children_iff c id).2 ((h.parent?_iff c id).2 ⟨hcl, hid, hsp⟩)
      exact absurd hmem (hno c)
  · intro hall c hc
    obtain ⟨hcl, -, hcp⟩ := (h.parent?_iff c id).1 ((h.mem_children_iff c id).1 hc)
    obtain ⟨r, hr, hrc⟩ := (hb (t.name c) _ hcp).1 ⟨c, hcl, rfl⟩
    have hle := Climbs.size_le (Path.parent?_length h.delimited) hrc
    have hlt := Path.parent?_length h.delimited _ _ hcp
    rw [hall r hr (hrc.tail hcp)] at hle
    omega

end Rooted

theorem built_of_ok (h : ofRecords rs d = .ok t) : Built d rs t := by
  obtain ⟨root, id, hf, hid, rfl⟩ := (ofRecords_ok_iff rs d t).1 h
  have hn := (names_getElem?_iff ⟨Forest.ofRecords d rs, id, d⟩ id root).1
    (Forest.names_of_find? hid)
  have hg := Forest.grown_ofRecords hf.delimiter rs hf.nodup
  have htop : Path.parent? d root = none := by
    obtain ⟨s, hs⟩ := List.exists_mem_of_ne_nil _ hf.inhabited
    exact hf.first s hs ▸ Path.first_top hf.delimiter s
  exact ⟨⟨rfl, hf.delimiter, hg.stands, hn.1, hn.2 ▸ htop⟩, hg.names, hn.2 ▸ hf⟩

namespace Built

theorem mem_names (h : Built d rs t) (s : String) :
    (∃ id < t.size, t.name id = s) ↔ ∃ r ∈ rs, Path.AtOrBelow d r.name s := by
  rw [← mem_names_iff, h.names, mem_growth h.delimited]
  simp

/-- Without children an entry has no records below it but its own. -/
theorem own_or_children (h : Built d rs t) (hid : id < t.size) : t.children id = [] ↔
    ∀ r ∈ rs, Path.AtOrBelow d r.name (t.name id) → r.name = t.name id := by
  rw [h.childless_iff (rs.map Record.name) (fun s _ _ => by simp [h.mem_names s]) hid]
  simp

theorem leaf_or_root (h : Built d rs t) (hid : id < t.size) (hc : t.children id = []) :
    t.isLeaf id = true ∨ id = t.root := by
  by_cases hp : t.parent? id = none
  · right
    obtain ⟨r, hr, hrid⟩ := (h.mem_names (t.name id)).1 ⟨id, hid, rfl⟩
    have hown := (h.own_or_children hid).1 hc r hr hrid
    have htop := Path.parent?_eq_none_iff.1 ((h.parent?_none_iff hid).1 hp)
    apply h.name_injective hid h.root
    rw [← h.fitting.first r.name (List.mem_map_of_mem hr), hown, Path.first_eq_self htop]
  · exact Or.inl ((h.isLeaf_iff hid).2 ⟨hc, hp⟩)

end Built

/-- Every leaf holds a payload, whatever the hierarchy. -/
theorem payload_of_leaf (h : t.isLeaf id = true) : (t.payload? id).isSome = true := by
  unfold isLeaf at h
  unfold payload?
  cases he : t.entry? id with
  | none => simp [he] at h
  | some e =>
    cases hc : e.content with
    | leaf a => simp [hc, Content.payload?]
    | container cs a => simp [he, hc, Content.isLeaf] at h

structure Coherent (t : Hierarchy α) : Prop where
  lookup_name : ∀ id < t.size, t.lookup (t.name id) = some id
  lookup_unknown : ∀ s, (∀ id < t.size, t.name id ≠ s) → t.lookup s = none
  indexed : ∀ s, t.forest.index.lookup s = t.lookup s
  names_differ : ∀ i < t.size, ∀ j < t.size, t.name i = t.name j → i = j
  parent_iff : ∀ id < t.size, ∀ p < t.size, t.parent? id = some p ↔
    Path.lastSplit? t.delimiter (t.name id) = some (t.name p, t.segment id)
  parent_none_iff : ∀ id < t.size,
    t.parent? id = none ↔ Path.lastSplit? t.delimiter (t.name id) = none
  parent : ∀ id p, t.parent? id = some p →
    p < id ∧ t.isLeaf p = false ∧ (t.children p).count id = 1
  child : ∀ p, ∀ c ∈ t.children p, t.parent? c = some p
  top : ∀ id < t.size, t.parent? id = none →
    t.segment id = t.name id ∧ ∀ p, id ∉ t.children p
  leaf : ∀ id, t.isLeaf id = true →
    (t.payload? id).isSome = true ∧ (t.parent? id).isSome = true ∧ t.children id = []
  childless : ∀ id < t.size, t.children id = [] → t.isLeaf id = true ∨ id = t.root
  root : t.root < t.size ∧ t.parent? t.root = none ∧ t.isLeaf t.root = false

theorem lt_of_leaf (h : t.isLeaf id = true) : id < t.size := by
  unfold isLeaf at h
  cases he : t.entry? id with
  | none => simp [he] at h
  | some e => exact lt_of_entry he

theorem Built.coherent (h : Built d rs t) : Coherent t where
  lookup_name id hid := (h.lookup_iff _ id).2 ⟨hid, rfl⟩
  lookup_unknown s hs := by
    rw [lookup, Forest.find?_eq_none_iff, mem_names_iff]
    rintro ⟨id, hid, hn⟩
    exact hs id hid hn
  indexed := Forest.lookup_index h.stands.laid
  names_differ i hi j hj hn := h.name_injective hi hj hn
  parent_iff id hid p hp := by
    rw [h.parent?_iff, h.delimiter, Path.lastSplit?_eq_some_iff, h.segment_eq hid]
    simp [hid, hp]
  parent_none_iff id hid := by
    rw [h.parent?_none_iff hid, h.delimiter, Path.lastSplit?_eq_none_iff]
  parent id p hp := by
    have hm := (h.mem_children_iff id p).2 hp
    refine ⟨h.parent_lt hp, ?_, ?_⟩
    · rw [← Bool.not_eq_true, h.isLeaf_iff ((h.parent?_iff id p).1 hp).2.1]
      intro hleaf
      rw [hleaf.1] at hm
      cases hm
    · rw [(h.children_nodup p).count, if_pos hm]
  child p c hc := (h.mem_children_iff c p).1 hc
  top id hid hp := by
    refine ⟨?_, ?_⟩
    · rw [h.segment_eq hid]
      exact Path.segment_of_top ((h.parent?_none_iff hid).1 hp)
    · intro p hm
      rw [h.mem_children_iff, hp] at hm
      cases hm
  leaf id hl := by
    obtain ⟨hc, hp⟩ := (h.isLeaf_iff (lt_of_leaf hl)).1 hl
    exact ⟨payload_of_leaf hl, Option.isSome_iff_ne_none.2 hp, hc⟩
  childless id hid hc := h.leaf_or_root hid hc
  root := by
    refine ⟨h.root, h.root_top, ?_⟩
    rw [← Bool.not_eq_true, h.isLeaf_iff h.root]
    exact fun hl => hl.2 h.root_top

/-- Every accepted list of records makes a coherent hierarchy, and the name
of its root is the first segment that all records share. -/
theorem ofRecords_coherent (rs : List (Record α)) (d : String) (t : Hierarchy α)
    (h : ofRecords rs d = .ok t) :
    t.delimiter = d ∧ Coherent t ∧ rs ≠ [] ∧ ∀ r ∈ rs, Path.first d r.name = t.name t.root := by
  have hb := built_of_ok h
  refine ⟨hb.delimiter, hb.coherent, ?_, ?_⟩
  · rintro rfl
    exact hb.fitting.inhabited rfl
  · intro r hr
    exact hb.fitting.first r.name (List.mem_map_of_mem hr)

def overlapping : List (Record Nat) :=
  [⟨"r::a::b", 2⟩, ⟨"r:::x", 3⟩, ⟨"r::a", 1⟩, ⟨"r", 5⟩]

theorem overlapping_accepted : ∃ t, ofRecords overlapping "::" = .ok t :=
  accepted_of_isSome overlapping "::" (by decide +kernel)

theorem overlapping_coherent : ∃ t, ofRecords overlapping "::" = .ok t ∧
    t.delimiter = "::" ∧ Coherent t ∧ overlapping ≠ [] ∧
    ∀ r ∈ overlapping, Path.first "::" r.name = t.name t.root := by
  obtain ⟨t, ht⟩ := overlapping_accepted
  exact ⟨t, ht, ofRecords_coherent overlapping "::" t ht⟩

end UseGraph.Hierarchy
