import UseGraph.Proofs.Forgiving
import UseGraph.Proofs.Records
import UseGraph.Display

/-!
# Where ids are placed

An id is joined to the root by the delimiter and the result is cut up again:
from the left to check it and to read the root off, from the right to find
its parents. A delimiter without a border and a root without the delimiter
make all of these cuts fall where the parts were joined, so the payloads of
both hierarchies stand at the names of the placed ids and nowhere else.
-/

set_option autoImplicit false

namespace UseGraph

open Hierarchy

variable {α : Type} {n : Naming} {doc : Document} {rs : List (Record α)} {id other : String}

def Naming.Places (n : Naming) (doc : Document) (id : String) : Prop :=
  doc.Lists id ∧ "" ∉ Path.segments n.delimiter id

instance (n : Naming) (doc : Document) (id : String) : Decidable (n.Places doc id) :=
  inferInstanceAs (Decidable (_ ∧ _))

structure Naming.Sound (n : Naming) : Prop where
  delimiter : n.delimiter ≠ ""
  unbordered : Text.Unbordered n.delimiter.toList
  root : n.root ≠ ""
  whole : ∀ x y, n.root ≠ x ++ n.delimiter ++ y

structure Placed (n : Naming) (doc : Document) (t : Hierarchy α) : Prop where
  lookup_name : ∀ x < t.size, t.lookup (t.name x) = some x
  present : ∀ id, n.Places doc id → ∃ x < t.size, t.name x = n.qualify id
  payload : ∀ x < t.size,
    (t.payload? x).isSome = true ↔ ∃ id, n.Places doc id ∧ t.name x = n.qualify id
  records : ∀ x, t.records.count x = if (t.payload? x).isSome then 1 else 0
  leaf : ∀ x < t.size, ∀ id, n.Places doc id → t.name x = n.qualify id →
    (t.isLeaf x = true ↔
      ∀ other, n.Places doc other → ∀ rest, other ≠ id ++ n.delimiter ++ rest)
  root : t.name t.root = n.root ∧ t.payload? t.root = none

namespace Naming

theorem qualify_eq (n : Naming) (id : String) : n.qualify id = n.root ++ n.delimiter ++ id := rfl

theorem suits_qualify (hs : n.Sound) (id : String) :
    suits n.delimiter n.root (n.qualify id) = true ↔ "" ∉ Path.segments n.delimiter id := by
  rw [suits_iff, qualify_eq, Path.first_append hs.unbordered hs.whole id,
    Path.empty_not_mem_append hs.delimiter hs.unbordered hs.whole id]
  simp [hs.root]

theorem qualify_atOrBelow_iff (hs : n.Sound) (id other : String) :
    Path.AtOrBelow n.delimiter (n.qualify other) (n.qualify id) ↔
      other = id ∨ ∃ rest, other = id ++ n.delimiter ++ rest := by
  have hext : ∀ rest, n.qualify other = n.qualify id ++ n.delimiter ++ rest ↔
      other = id ++ n.delimiter ++ rest := by
    intro rest
    have hrest : n.qualify id ++ n.delimiter ++ rest = n.qualify (id ++ n.delimiter ++ rest) := by
      simp [qualify, String.append_assoc]
    rw [hrest, n.qualify_injective.eq_iff]
  rw [Path.atOrBelow_iff hs.delimiter hs.unbordered, n.qualify_injective.eq_iff]
  simp only [hext]

theorem root_ne_qualify (hs : n.Sound) (id : String) : n.root ≠ n.qualify id :=
  hs.whole n.root id

end Naming

theorem mem_kept_iff (hs : n.Sound) (hc : Record.Covers n doc rs) (s : String) :
    (∃ r ∈ rs.filter fun r => suits n.delimiter n.root r.name, r.name = s) ↔
      ∃ id, n.Places doc id ∧ n.qualify id = s := by
  constructor
  · rintro ⟨r, hr, rfl⟩
    obtain ⟨hmem, hfit⟩ := List.mem_filter.1 hr
    obtain ⟨id, hid, hq⟩ := (hc.mem r.name).1 (List.mem_map_of_mem hmem)
    rw [← hq, Naming.suits_qualify hs] at hfit
    exact ⟨id, ⟨hid, hfit⟩, hq⟩
  · rintro ⟨id, ⟨hid, hw⟩, rfl⟩
    obtain ⟨r, hr, hq⟩ := List.mem_map.1 ((hc.mem _).2 ⟨id, hid, rfl⟩)
    rw [← Naming.suits_qualify hs, ← hq] at hw
    exact ⟨r, List.mem_filter.2 ⟨hr, hw⟩, hq⟩

theorem kept_of_covers (hs : n.Sound) (hc : Record.Covers n doc rs) :
    Kept n.delimiter n.root (rs.filter fun r => suits n.delimiter n.root r.name)
      (ofUsableRecords rs n.delimiter n.root) :=
  kept_ofUsableRecords hs.unbordered hs.delimiter (Path.parent?_eq_none_iff.2 hs.whole) hc.nodup

section Kept

variable {t : Hierarchy α} {x : Nat} (hk : Kept n.delimiter n.root rs t)
  (hmem : ∀ s, (∃ r ∈ rs, r.name = s) ↔ ∃ id, n.Places doc id ∧ n.qualify id = s)
include hk hmem

theorem Hierarchy.Kept.payload_iff_places (hx : x < t.size) :
    (t.payload? x).isSome = true ↔ ∃ id, n.Places doc id ∧ t.name x = n.qualify id := by
  rw [hk.payload_isSome_iff hx, hmem]
  simp only [eq_comm]

theorem Hierarchy.Kept.isLeaf_iff_places (hs : n.Sound) (hx : x < t.size)
    (hn : t.name x = n.qualify id) :
    t.isLeaf x = true ↔
      ∀ other, n.Places doc other → ∀ rest, other ≠ id ++ n.delimiter ++ rest := by
  have hpar : t.parent? x ≠ none := by
    rw [ne_eq, hk.parent?_none_iff hx, Path.parent?_eq_none_iff, hn]
    exact fun h => h n.root id (n.qualify_eq id)
  rw [hk.isLeaf_iff hx, and_iff_left hpar, hk.own_or_children hx, hn]
  constructor
  · intro hown other ho rest he
    obtain ⟨r, hr, hq⟩ := (hmem _).2 ⟨other, ho, rfl⟩
    have hbelow := (Naming.qualify_atOrBelow_iff hs id other).2 (Or.inr ⟨rest, he⟩)
    have hsame := n.qualify_injective (hq.symm.trans (hown r hr (hq.symm ▸ hbelow)))
    have hlen := congrArg String.length (hsame.symm.trans he)
    have hpos := Path.length_pos hs.delimiter
    simp only [String.length_append] at hlen
    omega
  · intro hno r hr hbelow
    obtain ⟨other, ho, hq⟩ := (hmem r.name).1 ⟨r, hr, rfl⟩
    rw [← hq, Naming.qualify_atOrBelow_iff hs] at hbelow
    rcases hbelow with rfl | ⟨rest, he⟩
    · exact hq.symm
    · exact absurd he (hno other ho rest)

end Kept

/-- Any records of the listed ids are placed, whatever they carry. -/
theorem placed_of_covers (hs : n.Sound) (hc : Record.Covers n doc rs) :
    Placed n doc (ofUsableRecords rs n.delimiter n.root) := by
  have hk := kept_of_covers hs hc
  have hmem := mem_kept_iff hs hc
  constructor
  · intro x hx
    exact (hk.lookup_iff _ x).2 ⟨hx, rfl⟩
  · intro id hid
    obtain ⟨r, hr, hq⟩ := (hmem _).2 ⟨id, hid, rfl⟩
    exact (hk.mem_names _).2 (Or.inr ⟨r, hr, hq ▸ Climbs.refl r.name⟩)
  · intro x hx
    exact hk.payload_iff_places hmem hx
  · exact hk.count_records
  · intro x hx id _ hn
    exact hk.isLeaf_iff_places hmem hs hx hn
  · refine ⟨hk.name_root, ?_⟩
    rw [← Option.not_isSome_iff_eq_none, hk.payload_iff_places hmem hk.root]
    rintro ⟨id, -, hn⟩
    exact Naming.root_ne_qualify hs id (hk.name_root.symm.trans hn)

/-- No full name suits a root that is empty or holds the delimiter. -/
theorem lone_of_covers (hd : n.delimiter ≠ "") (hu : Text.Unbordered n.delimiter.toList)
    (hroot : n.root = "" ∨ ∃ x y, n.root = x ++ n.delimiter ++ y)
    (hc : Record.Covers n doc rs) :
    ofUsableRecords rs n.delimiter n.root = lone n.root n.delimiter := by
  apply ofUsableRecords_of_none hc.nodup
  intro r hr
  obtain ⟨id, -, hq⟩ := (hc.mem r.name).1 (List.mem_map_of_mem hr)
  rw [← Bool.not_eq_true, suits_iff, ← hq]
  rintro ⟨hsegments, hfirst⟩
  rcases hroot with he | ⟨x, y, hxy⟩
  · have hwhole : ∀ x y, n.root ≠ x ++ n.delimiter ++ y := by
      intro x y hxy
      have hlen := congrArg String.length (he.symm.trans hxy)
      have hpos := Path.length_pos hd
      simp only [String.length_append, String.length_empty] at hlen
      omega
    rw [n.qualify_eq, Path.empty_not_mem_append hd hu hwhole] at hsegments
    exact hsegments.1 he
  · rw [hxy] at hfirst
    exact Path.first_delimiterless hd _ x y hfirst

/-- In both hierarchies of a document the records stand at the full names of
the placed ids, each visited once; under a root that is no segment there is
nothing but the root. -/
theorem ofDocument_placed (n : Naming) (doc : Document) (hd : n.delimiter ≠ "")
    (hu : Text.Unbordered n.delimiter.toList) :
    ((n.root ≠ "" ∧ ∀ x y, n.root ≠ x ++ n.delimiter ++ y) →
      Placed n doc (Radial.ofDocument n doc).tree ∧
      Placed n doc (Packing.ofDocument n doc).tree) ∧
    ((n.root = "" ∨ ∃ x y, n.root = x ++ n.delimiter ++ y) →
      (Radial.ofDocument n doc).tree = lone n.root n.delimiter ∧
      (Packing.ofDocument n doc).tree = lone n.root n.delimiter) := by
  constructor
  · rintro ⟨hroot, hwhole⟩
    have hs : n.Sound := ⟨hd, hu, hroot, hwhole⟩
    exact ⟨placed_of_covers hs (Record.uses_cover n doc),
      placed_of_covers hs (Record.weights_cover n doc)⟩
  · intro hroot
    exact ⟨lone_of_covers hd hu hroot (Record.uses_cover n doc),
      lone_of_covers hd hu hroot (Record.weights_cover n doc)⟩

def tangled : Document where
  nodes := [⟨"core", 1⟩, ⟨"core->io", 2⟩, ⟨"core->io", 3⟩, ⟨"core->->io", 4⟩, ⟨"", 5⟩]
  links := [⟨"core", "core->io", 1.0⟩, ⟨"core", "core->io", 2.0⟩, ⟨"tool->run", "core", 1.0⟩,
    ⟨"tool->run", "gone", 1.0⟩, ⟨"core->io", "core->io", 1.0⟩, ⟨"idle", "idle", 1.0⟩,
    ⟨"core->io", "core->->io", 1.0⟩]

theorem arrow_sound : Naming.Sound ⟨"->", "app"⟩ := by
  have happ : Path.parent? "->" "app" = none := by decide +kernel
  exact ⟨by decide, by decide +kernel, by decide, Path.parent?_eq_none_iff.1 happ⟩

theorem tangled_placed :
    (Placed ⟨"->", "app"⟩ tangled (Radial.ofDocument ⟨"->", "app"⟩ tangled).tree ∧
      Placed ⟨"->", "app"⟩ tangled (Packing.ofDocument ⟨"->", "app"⟩ tangled).tree) ∧
    (Radial.ofDocument ⟨"->", "my->app"⟩ tangled).tree = lone "my->app" "->" ∧
    (Packing.ofDocument ⟨"->", "my->app"⟩ tangled).tree = lone "my->app" "->" := by
  constructor
  · exact (ofDocument_placed ⟨"->", "app"⟩ tangled (by decide) (by decide +kernel)).1
      ⟨arrow_sound.root, arrow_sound.whole⟩
  · exact (ofDocument_placed ⟨"->", "my->app"⟩ tangled (by decide) (by decide +kernel)).2
      (Or.inr ⟨"my", "app", by decide⟩)

end UseGraph
