import UseGraph.Proofs.Fallback
import UseGraph.Proofs.Readings
import UseGraph.Proofs.Trails
import UseGraph.Display

/-!
# What entries are called

Segments are cut from the right, display names from the left, and the name of
an entry is spelled by either: the segments on the way down joined again, or
the name of the root and the display name. Both hold for delimiters that
overlap themselves.
-/

set_option autoImplicit false

namespace UseGraph

namespace Path

variable {d s x y : String}

/-- A name that is cut from the left can be put together again. -/
theorem eq_of_occurrence (h : s = x ++ d ++ y) : s = first d s ++ d ++ belowFirst d s := by
  cases hc : Text.firstCut d.toList s.toList with
  | none => exact absurd (by simp [h]) (Text.firstCut_eq_none_iff.1 hc x.toList y.toList)
  | some c =>
    obtain ⟨a, b⟩ := c
    apply String.toList_injective
    simpa [first, belowFirst, hc] using Text.eq_append_of_firstCut hc

theorem first_of_longer (h : s = x ++ d ++ y) (r : String) : first d (s ++ r) = first d s := by
  cases hc : Text.firstCut d.toList s.toList with
  | none => exact absurd (by simp [h]) (Text.firstCut_eq_none_iff.1 hc x.toList y.toList)
  | some c =>
    obtain ⟨a, b⟩ := c
    simp [first, hc, Text.firstCut_of_longer hc]

theorem segment_empty (s : String) : segment "" s = "" := by
  simp [segment, lastCut_nil]

/-- Only a delimiter in it keeps a name from being its own last segment. -/
theorem segment_eq_self_iff (d s : String) :
    segment d s = s ↔ s = "" ∨ ∀ x y, s ≠ x ++ d ++ y := by
  cases hp : parent? d s with
  | none => simp [segment_of_top hp, parent?_eq_none_iff.1 hp]
  | some p =>
    have hs := eq_of_parent hp
    have hlen := congrArg String.length hs
    simp only [String.length_append] at hlen
    constructor
    · intro hg
      have hd : d = "" := by
        rw [hg] at hlen
        apply String.length_eq_zero_iff.1
        omega
      exact Or.inl (by rw [← hg, hd, segment_empty])
    · rintro (rfl | hno)
      · apply String.length_eq_zero_iff.1
        simp only [String.length_empty] at hlen
        omega
      · exact absurd hs (hno p (segment d s))

theorem belowFirst_empty (d : String) : belowFirst d "" = "" := by
  by_cases hd : d = "" <;> simp [belowFirst, Text.firstCut, hd]

theorem belowFirst_of_segment (h : segment d s = s) : belowFirst d s = s := by
  rcases (segment_eq_self_iff d s).1 h with rfl | hno
  · exact belowFirst_empty d
  · exact belowFirst_eq_self hno

end Path

namespace Hierarchy

variable {α : Type} {d : String} {rs : List (Record α)} {t : Hierarchy α} {x y : Nat}

structure Spelled (t : Hierarchy α) : Prop where
  fullPath : ∀ id < t.size, t.fullPath id = t.name id
  lookup : ∀ id < t.size, t.lookup (t.fullPath id) = some id
  displayName : ∀ id, Climbs t.parent? id t.root → id ≠ t.root →
    t.name id = t.name t.root ++ t.delimiter ++ t.displayName id
  displayNames_differ : ∀ x y, Climbs t.parent? x t.root → x ≠ t.root →
    Climbs t.parent? y t.root → y ≠ t.root → t.displayName x = t.displayName y → x = y

namespace Built

/-- Below the root every name begins as that of some record does. -/
theorem name_eq_displayName (h : Built d rs t) (hc : Climbs t.parent? x t.root)
    (hx : x ≠ t.root) : t.name x = t.name t.root ++ d ++ t.displayName x := by
  obtain ⟨hxl, hbelow⟩ := (h.climbs_iff h.root).1 hc
  have hne : t.name x ≠ t.name t.root := fun he => hx (h.name_injective hxl h.root he)
  obtain ⟨y, hy⟩ := (Path.atOrBelow_cases hbelow).resolve_left hne
  have hfirst : Path.first d (t.name x) = t.name t.root := by
    obtain ⟨r, hr, hrx⟩ := (h.mem_names (t.name x)).1 ⟨x, hxl, rfl⟩
    have hroot := h.fitting.first r.name (List.mem_map_of_mem hr)
    rcases Path.atOrBelow_cases hrx with he | ⟨z, hz⟩
    · rw [← he, hroot]
    · rw [← hroot, hz, String.append_assoc, Path.first_of_longer hy]
  calc t.name x = Path.first d (t.name x) ++ d ++ Path.belowFirst d (t.name x) :=
        Path.eq_of_occurrence hy
    _ = t.name t.root ++ d ++ t.displayName x := by rw [hfirst, displayName, h.delimiter]

theorem spelled (h : Built d rs t) : Spelled t where
  fullPath id hid := fullPath_eq h.toRooted hid
  lookup id hid := by
    rw [fullPath_eq h.toRooted hid, h.lookup_iff]
    exact ⟨hid, rfl⟩
  displayName id hc hid := by
    rw [h.delimiter]
    exact h.name_eq_displayName hc hid
  displayNames_differ x y hcx hx hcy hy he := by
    have hxl := ((h.climbs_iff h.root).1 hcx).1
    have hyl := ((h.climbs_iff h.root).1 hcy).1
    apply h.name_injective hxl hyl
    rw [h.name_eq_displayName hcx hx, h.name_eq_displayName hcy hy, he]

end Built

/-- In every hierarchy of records full paths and display names spell the names,
and uses are resolved by full path as entries with a payload are looked up. -/
theorem ofRecords_spelled (d : String) :
    (∀ (rs : List (Record α)) (t : Hierarchy α), ofRecords rs d = .ok t →
      t.delimiter = d ∧ Spelled t) ∧
    ∀ (rs : List (Record Uses)) (t : Hierarchy Uses), ofRecords rs d = .ok t → ∀ s,
      (Crosslinked.directory t).lookup s = (t.lookup s).filter fun x => x ∈ t.records := by
  constructor
  · intro rs t h
    exact ⟨(built_of_ok h).delimiter, (built_of_ok h).spelled⟩
  · intro rs t h s
    ext x
    rw [Crosslinked.lookup_directory (.strict h), Option.filter_eq_some_iff, decide_eq_true_eq]

theorem overlapping_spelled :
    (∃ t, ofRecords overlapping "::" = .ok t ∧ t.delimiter = "::" ∧ Spelled t) ∧
    ∃ t, ofRecords Crosslinked.entwined "::" = .ok t ∧ ∀ s,
      (Crosslinked.directory t).lookup s = (t.lookup s).filter fun x => x ∈ t.records := by
  constructor
  · obtain ⟨t, ht⟩ := overlapping_accepted
    exact ⟨t, ht, (ofRecords_spelled "::").1 overlapping t ht⟩
  · obtain ⟨t, ht⟩ := accepted_of_isSome Crosslinked.entwined "::" (by decide +kernel)
    exact ⟨t, ht, (ofRecords_spelled "::" (α := Nat)).2 Crosslinked.entwined t ht⟩

/-- What the root is called, whether records were kept under it or not. Its
labels agree unless the root asked for holds the delimiter; an empty delimiter
is held by every root but cuts nothing off an empty one. -/
structure Captioned (n : Naming) (t : Hierarchy α) : Prop where
  name : t.name t.root = n.root
  segment : t.segment t.root = Path.segment n.delimiter n.root
  fullPath : t.fullPath t.root = Path.segment n.delimiter n.root
  displayName : t.displayName t.root = Path.belowFirst n.delimiter n.root
  agree_iff : (t.segment t.root = n.root ∧ t.fullPath t.root = n.root ∧
      t.displayName t.root = n.root) ↔
    n.root = "" ∨ ∀ x y, n.root ≠ x ++ n.delimiter ++ y

theorem captioned_of_labels {n : Naming} (hn : t.name t.root = n.root)
    (hs : t.segment t.root = Path.segment n.delimiter n.root)
    (hf : t.fullPath t.root = Path.segment n.delimiter n.root)
    (hd : t.displayName t.root = Path.belowFirst n.delimiter n.root) : Captioned n t := by
  refine ⟨hn, hs, hf, hd, ?_⟩
  rw [hs, hf, hd, ← Path.segment_eq_self_iff]
  exact ⟨fun h => h.1, fun h => ⟨h, h, Path.belowFirst_of_segment h⟩⟩

theorem fullPath_of_top (hp : t.parent? x = none) : t.fullPath x = t.segment x := by
  simp [fullPath, ascent_of_top hp]

/-- The forgiving build names the root as it was told, but a root alone is cut
at the delimiter like any name. -/
theorem captioned_ofUsableRecords (n : Naming) (rs : List (Record α)) :
    Captioned n (ofUsableRecords rs n.delimiter n.root) := by
  obtain ⟨hlt, hname, htop, -⟩ := root_ofUsableRecords rs n.delimiter n.root
  have hpath := fullPath_of_top htop
  rcases ofUsableRecords_cases rs n.delimiter n.root with hl | hok
  · rw [hl] at hpath ⊢
    exact captioned_of_labels rfl rfl hpath rfl
  · have hb := built_of_ok hok
    have hseg := hb.segment_eq hlt
    rw [hname] at hseg
    refine captioned_of_labels hname hseg (hpath.trans hseg) ?_
    rw [displayName, hname, hb.delimiter]

theorem preorder_head (h : Shaped t) (le : Nat → Nat → Bool) :
    (t.preorder le).head? = some t.root := by
  rw [preorder_eq h, subtree_eq (h.descends (t.sortedChildren_perm le)) h.root, List.head?_cons]

end Hierarchy

open Hierarchy

variable {t : Hierarchy Uses} {u : Hierarchy UInt32}

theorem Radial.drawing_head (h : Shaped t) :
    ((ofHierarchy t).drawing.tree.labels.head?.map fun a => (a.name, a.fullName, a.displayName)) =
      some (t.segment t.root, t.name t.root, t.displayName t.root) := by
  rw [Outline.labels_eq, marked_drawing h, List.map_map, List.head?_map, preorder_head h]
  rfl

theorem Packing.drawing_head (h : Shaped u) (ids : ElementIds) :
    ((ofHierarchy u).drawing ids).1.labels.head?.map Circle.name = some (u.segment u.root) := by
  rw [Outline.labels_eq, (read_drawing h ids).circles, List.head?_map, List.head?_map,
    List.head?_zipIdx, preorder_head h]
  rfl

/-- The root of either view of a document is named as the naming says, and so
are its other labels if the naming's root does not hold the delimiter. -/
theorem ofDocument_captioned (n : Naming) (doc : Document) :
    Captioned n (Radial.ofDocument n doc).tree ∧ Captioned n (Packing.ofDocument n doc).tree ∧
    ((Radial.ofDocument n doc).drawing.tree.labels.head?.map fun a =>
      (a.name, a.fullName, a.displayName)) = some (Path.segment n.delimiter n.root, n.root,
        Path.belowFirst n.delimiter n.root) ∧
    ∀ ids, ((Packing.ofDocument n doc).drawing ids).1.labels.head?.map Packing.Circle.name =
      some (Path.segment n.delimiter n.root) := by
  have hr : Captioned n (Radial.ofDocument n doc).tree := captioned_ofUsableRecords n _
  have hp : Captioned n (Packing.ofDocument n doc).tree := captioned_ofUsableRecords n _
  have hrs : Shaped (Radial.ofDocument n doc).tree := (Made.forgiving _ _ _).shaped
  have hps : Shaped (Packing.ofDocument n doc).tree := (Made.forgiving _ _ _).shaped
  refine ⟨hr, hp, ?_, ?_⟩
  · apply (Radial.drawing_head hrs).trans
    rw [hr.segment, hr.name, hr.displayName]
  · intro ids
    apply (Packing.drawing_head hps ids).trans
    rw [hp.segment]

/-- A root alone is cut at its dot, and both views show the rest of it. -/
theorem dotted_root_split :
    let n : Naming := ⟨".", "my.app"⟩
    let doc : Document := ⟨[⟨"core", 1⟩], []⟩
    let t := (Radial.ofDocument n doc).tree
    let u := (Packing.ofDocument n doc).tree
    (t.name t.root, t.segment t.root, t.fullPath t.root, t.displayName t.root) =
      ("my.app", "app", "app", "app") ∧
    (u.name u.root, u.segment u.root, u.fullPath u.root, u.displayName u.root) =
      ("my.app", "app", "app", "app") := by
  decide +kernel

end UseGraph
