import UseGraph.Proofs.Representation

/-!
# Records in another order

The order of the records decides at which index an entry stands and how its
children follow one another, and nothing else: whether a hierarchy is made at
all, its names, and at each name the parent, the segment, the payload and the
set of children are the same for every order.
-/

set_option autoImplicit false

namespace UseGraph.Hierarchy

variable {α : Type} {d root : String} {names names' : List String} {rs rs' : List (Record α)}
  {pay : String → Option α} {t u : Hierarchy α} {x y : Nat}

structure SameEntry (t u : Hierarchy α) (x y : Nat) : Prop where
  parent : (t.parent? x).map t.name = (u.parent? y).map u.name
  segment : t.segment x = u.segment y
  isLeaf : t.isLeaf x = u.isLeaf y
  payload : t.payload? x = u.payload? y
  children : ((t.children x).map t.name).Perm ((u.children y).map u.name)

structure SameShape (t u : Hierarchy α) : Prop where
  root : t.name t.root = u.name u.root
  size : t.size = u.size
  names : ∀ s, (∃ x < t.size, t.name x = s) ↔ ∃ y < u.size, u.name y = s
  entry : ∀ x < t.size, ∀ y < u.size, t.name x = u.name y → SameEntry t u x y

theorem Fitting.perm (h : Fitting d root names) (hp : names.Perm names') :
    Fitting d root names' where
  delimiter := h.delimiter
  inhabited hnil := h.inhabited (List.perm_nil.1 (hnil ▸ hp))
  nodup := hp.nodup_iff.1 h.nodup
  wellFormed s hs := h.wellFormed s (hp.mem_iff.2 hs)
  first s hs := h.first s (hp.mem_iff.2 hs)

theorem accepts_of_perm (hp : rs.Perm rs') (h : ∃ t, ofRecords rs d = .ok t) :
    ∃ u, ofRecords rs' d = .ok u := by
  have hn : (rs.map Record.name).Perm (rs'.map Record.name) := hp.map Record.name
  obtain ⟨root, hf, s, hs, hroot⟩ := (ofRecords_accepts_iff rs d).1 h
  exact (ofRecords_accepts_iff rs' d).2 ⟨root, hf.perm hn, s, hn.mem_iff.1 hs, hroot⟩

theorem payloadIn_perm (hp : rs.Perm rs') (hn : (rs.map Record.name).Nodup) :
    Forest.payloadIn rs = Forest.payloadIn rs' := by
  have hn' := (hp.map Record.name).nodup_iff.1 hn
  funext s
  apply Option.ext
  intro a
  rw [Forest.payloadIn_eq_some_iff rs hn, Forest.payloadIn_eq_some_iff rs' hn', hp.mem_iff]

namespace Rooted

theorem mem_child_names (h : Rooted d pay t) (hx : x < t.size) (s : String) :
    s ∈ (t.children x).map t.name ↔
      (∃ c < t.size, t.name c = s) ∧ Path.parent? d s = some (t.name x) := by
  rw [List.mem_map]
  constructor
  · rintro ⟨c, hc, rfl⟩
    obtain ⟨hcl, -, hcp⟩ := (h.parent?_iff c x).1 ((h.mem_children_iff c x).1 hc)
    exact ⟨⟨c, hcl, rfl⟩, hcp⟩
  · rintro ⟨⟨c, hcl, rfl⟩, hcp⟩
    exact ⟨c, (h.mem_children_iff c x).2 ((h.parent?_iff c x).2 ⟨hcl, hx, hcp⟩), rfl⟩

theorem child_names_nodup (h : Rooted d pay t) (x : Nat) : ((t.children x).map t.name).Nodup := by
  apply List.Nodup.map_on ?_ (h.children_nodup x)
  intro a ha b hb he
  have hal := ((h.parent?_iff a x).1 ((h.mem_children_iff a x).1 ha)).1
  have hbl := ((h.parent?_iff b x).1 ((h.mem_children_iff b x).1 hb)).1
  exact h.name_injective hal hbl he

theorem parent_name (h : Rooted d pay t) (hx : x < t.size) :
    (t.parent? x).map t.name = Path.parent? d (t.name x) := by
  cases hp : Path.parent? d (t.name x) with
  | none => rw [(h.parent?_none_iff hx).2 hp, Option.map_none]
  | some s =>
    obtain ⟨p, -, hxp, rfl⟩ := h.parent_of_name hx hp
    rw [hxp, Option.map_some]

section Both

variable (ht : Rooted d pay t) (hu : Rooted d pay u)
  (hnames : ∀ s, (∃ x < t.size, t.name x = s) ↔ ∃ y < u.size, u.name y = s)
include ht hu hnames

theorem size_eq : t.size = u.size := by
  have hp : t.forest.names.Perm u.forest.names := by
    rw [List.perm_ext_iff_of_nodup ht.stands.laid.nodup hu.stands.laid.nodup]
    intro s
    rw [mem_names_iff, mem_names_iff, hnames]
  simpa [size] using hp.length_eq

/-- An entry is determined by its name once the names are given. -/
theorem sameEntry (hx : x < t.size) (hy : y < u.size) (hxy : t.name x = u.name y) :
    SameEntry t u x y := by
  have hparent : (t.parent? x).map t.name = (u.parent? y).map u.name := by
    rw [ht.parent_name hx, hu.parent_name hy, hxy]
  have hchildren : ((t.children x).map t.name).Perm ((u.children y).map u.name) := by
    rw [List.perm_ext_iff_of_nodup (ht.child_names_nodup x) (hu.child_names_nodup y)]
    intro s
    rw [ht.mem_child_names hx, hu.mem_child_names hy, hnames, hxy]
  constructor
  · exact hparent
  · rw [ht.segment_eq hx, hu.segment_eq hy, hxy]
  · have hnil : t.children x = [] ↔ u.children y = [] := by
      have hlen : (t.children x).length = (u.children y).length := by
        simpa using hchildren.length_eq
      rw [← List.length_eq_zero_iff, hlen, List.length_eq_zero_iff]
    have hnone : t.parent? x = none ↔ u.parent? y = none := by
      rw [← Option.map_eq_none_iff, hparent, Option.map_eq_none_iff]
    rw [Bool.eq_iff_iff, ht.isLeaf_iff hx, hu.isLeaf_iff hy, hnil, ne_eq, ne_eq, hnone]
  · rw [ht.payload?_eq hx, hu.payload?_eq hy, hxy]
  · exact hchildren

theorem sameShape (hroot : t.name t.root = u.name u.root) : SameShape t u :=
  ⟨hroot, size_eq ht hu hnames, hnames, fun _ hx _ hy => sameEntry ht hu hnames hx hy⟩

end Both

end Rooted

theorem Built.sameShape (hp : rs.Perm rs') (ht : Built d rs t) (hu : Built d rs' u) :
    SameShape t u := by
  have hroot : t.name t.root = u.name u.root := by
    obtain ⟨s, hs⟩ := List.exists_mem_of_ne_nil _ ht.fitting.inhabited
    rw [← ht.fitting.first s hs, hu.fitting.first s ((hp.map Record.name).mem_iff.1 hs)]
  have hnames : ∀ s, (∃ x < t.size, t.name x = s) ↔ ∃ y < u.size, u.name y = s := by
    intro s
    rw [ht.mem_names, hu.mem_names]
    simp only [hp.mem_iff]
  have hpay := payloadIn_perm hp ht.fitting.nodup
  exact Rooted.sameShape ht.toRooted (hpay ▸ hu.toRooted) hnames hroot

/-- Records in any order are accepted or refused together, and what they make
differs in indices and in the order of siblings only. -/
theorem ofRecords_reordered (rs rs' : List (Record α)) (d : String) (hp : rs.Perm rs') :
    ((∃ t, ofRecords rs d = .ok t) ↔ ∃ u, ofRecords rs' d = .ok u) ∧
    ∀ t u, ofRecords rs d = .ok t → ofRecords rs' d = .ok u → SameShape t u := by
  refine ⟨⟨accepts_of_perm hp, accepts_of_perm hp.symm⟩, ?_⟩
  intro t u ht hu
  exact (built_of_ok ht).sameShape hp (built_of_ok hu)

theorem overlapping_reordered : overlapping.Perm overlapping.reverse ∧
    ∃ t u, ofRecords overlapping "::" = .ok t ∧
      ofRecords overlapping.reverse "::" = .ok u ∧ SameShape t u := by
  have hp : overlapping.Perm overlapping.reverse := (List.reverse_perm overlapping).symm
  obtain ⟨hiff, hsame⟩ := ofRecords_reordered overlapping overlapping.reverse "::" hp
  obtain ⟨t, ht⟩ := overlapping_accepted
  obtain ⟨u, hu⟩ := hiff.1 ⟨t, ht⟩
  exact ⟨hp, t, u, ht, hu, hsame t u ht hu⟩

end UseGraph.Hierarchy
