import Mathlib.Data.String.Basic
import UseGraph.Layout.Radial
import UseGraph.Proofs.Ascents
import UseGraph.Proofs.Crosslinks
import UseGraph.Proofs.Octets
import UseGraph.Proofs.Orders

/-!
# The circle in the order of segments

Display names are cut from the left and segments from the right, but siblings
have all before the last delimiter in common, so their display names stand in
the order of their segments, whether the delimiter overlaps itself or not.
Sorting every level then sorts the whole walk by the segments on the way down
to an entry, one after the other.
-/

set_option autoImplicit false

namespace UseGraph

namespace Path

variable {d s p : String}

/-- The name below the root ends with the segment, and what stands before the
segment depends on the parent only. -/
theorem belowFirst_of_parent (h : parent? d s = some p) :
    belowFirst d s = belowFirst d (p ++ d) ++ segment d s := by
  have hs : s.toList = (p ++ d).toList ++ (segment d s).toList := by
    simpa using congrArg String.toList (eq_of_parent h)
  cases hc : Text.firstCut d.toList (p ++ d).toList with
  | none =>
    exact absurd (by simp) (Text.firstCut_eq_none_iff.1 hc p.toList [])
  | some c =>
    obtain ⟨a, b⟩ := c
    apply String.toList_injective
    rw [belowFirst, belowFirst, hs, Text.firstCut_of_longer hc, hc]
    simp

end Path

theorem Text.append_lt_append (x : String) {s t : String} (h : s < t) : x ++ s < x ++ t := by
  rw [String.lt_iff_toList_lt] at h ⊢
  rw [String.toList_append, String.toList_append]
  exact List.append_left_lt h

namespace Hierarchy

variable {α : Type} {d : String} {pay : String → Option α} {t : Hierarchy α}
  {kids : Nat → List Nat} {n id p x y : Nat}

def trail (t : Hierarchy α) (id : Nat) : List (List UInt8) :=
  (t.ascent id).reverse.map fun x => Text.octets (t.segment x)

namespace Shaped

variable (h : Shaped t)
include h

theorem trail_of_parent (hp : t.parent? id = some p) :
    t.trail id = t.trail p ++ [Text.octets (t.segment id)] := by
  rw [trail, h.ascent_of_parent hp, List.reverse_cons, List.map_append]
  rfl

theorem trail_of_climbs (hc : Climbs t.parent? x y) : ∃ rest, t.trail x = t.trail y ++ rest := by
  induction hc using Relation.ReflTransGen.head_induction_on with
  | refl => exact ⟨[], (List.append_nil _).symm⟩
  | @head x p hp _ ih =>
    obtain ⟨rest, hrest⟩ := ih
    exact ⟨rest ++ [Text.octets (t.segment x)], by
      rw [h.trail_of_parent hp, hrest, List.append_assoc]⟩

/-- The way down goes through a child, and first by its segment. -/
theorem trail_below_child (hc : t.parent? y = some id) (hx : Climbs t.parent? x y) :
    ∃ rest, t.trail x = t.trail id ++ Text.octets (t.segment y) :: rest := by
  obtain ⟨rest, hrest⟩ := h.trail_of_climbs hx
  exact ⟨rest, by rw [hrest, h.trail_of_parent hc, List.append_assoc]; rfl⟩

/-- Sorted level by level, a subtree is sorted by the way down to each entry. -/
theorem subtree_trails (hk : ∀ id, (kids id).Perm (t.children id))
    (hs : ∀ id, (kids id).Pairwise fun a b => t.segment a < t.segment b) (hid : id < t.size) :
    (subtree kids t.size id).Pairwise fun a b => t.trail a < t.trail b := by
  induction hn : t.size - id using Nat.strongRecOn generalizing id with
  | ind n ih =>
    have hd := h.descends hk
    have hparent : ∀ c ∈ kids id, t.parent? c = some id := fun c hc =>
      (h.mem_children c id).1 ((hk id).mem_iff.1 hc)
    have hbelow : ∀ c ∈ kids id, ∀ x ∈ subtree kids t.size c,
        ∃ rest, t.trail x = t.trail id ++ Text.octets (t.segment c) :: rest := by
      intro c hc x hx
      have hcx := (h.mem_subtree_iff hk c (hd id c hc).2 x).1 hx
      exact h.trail_below_child (hparent c hc) hcx
    rw [subtree_eq hd hid, List.pairwise_cons, List.pairwise_flatMap]
    constructor
    · intro x hx
      obtain ⟨c, hc, hxc⟩ := List.mem_flatMap.1 hx
      obtain ⟨rest, hrest⟩ := hbelow c hc x hxc
      have hlt : t.trail id ++ [] < t.trail id ++ Text.octets (t.segment c) :: rest :=
        List.append_left_lt (List.nil_lt_cons _ rest)
      rwa [List.append_nil, ← hrest] at hlt
    · constructor
      · intro c hc
        have hcl := hd id c hc
        exact ih (t.size - c) (by omega) hcl.2 rfl
      · apply (hs id).imp_of_mem
        intro a b ha hb hab x hx y hy
        obtain ⟨rest, hrest⟩ := hbelow a ha x hx
        obtain ⟨rest', hrest'⟩ := hbelow b hb y hy
        rw [hrest, hrest']
        apply List.append_left_lt
        exact List.cons_lt_cons_iff.2 (Or.inl (Text.octets_lt_of_lt hab))

end Shaped

namespace Rooted

variable (h : Rooted d pay t)
include h

theorem displayName_of_parent (hp : t.parent? id = some p) :
    t.displayName id = Path.belowFirst d (t.name p ++ d) ++ t.segment id := by
  obtain ⟨hid, -, hn⟩ := (h.parent?_iff id p).1 hp
  rw [displayName, h.delimiter, Path.belowFirst_of_parent hn, h.segment_eq hid]

theorem segment_injective (hx : t.parent? x = some p) (hy : t.parent? y = some p)
    (hs : t.segment x = t.segment y) : x = y := by
  obtain ⟨hxl, -, hxn⟩ := (h.parent?_iff x p).1 hx
  obtain ⟨hyl, -, hyn⟩ := (h.parent?_iff y p).1 hy
  rw [h.segment_eq hxl, h.segment_eq hyl] at hs
  apply h.name_injective hxl hyl
  rw [Path.eq_of_parent hxn, Path.eq_of_parent hyn, hs]

/-- Siblings in the order of their display names stand in that of their segments. -/
theorem segment_lt_of_displayName (hx : t.parent? x = some p) (hy : t.parent? y = some p)
    (hne : x ≠ y) (hle : t.displayName x ≤ t.displayName y) : t.segment x < t.segment y := by
  rw [h.displayName_of_parent hx, h.displayName_of_parent hy] at hle
  cases lt_trichotomy (t.segment x) (t.segment y) with
  | inl hlt => exact hlt
  | inr hge =>
    cases hge with
    | inl heq => exact absurd (h.segment_injective hx hy heq) hne
    | inr hgt => exact absurd hle (not_le_of_gt (Text.append_lt_append _ hgt))

end Rooted

end Hierarchy

namespace Radial

open Hierarchy

variable {d : String} {pay : String → Option Uses} {t : Hierarchy Uses} {id : Nat}

theorem displayLe_iff (t : Hierarchy Uses) (a b : Nat) :
    displayLe t a b = true ↔ t.displayName a ≤ t.displayName b := decide_eq_true_iff

theorem sortedChildren_segments (h : Rooted d pay t) (id : Nat) :
    (t.sortedChildren (displayLe t) id).Pairwise fun a b => t.segment a < t.segment b := by
  have hperm := t.sortedChildren_perm (displayLe t) id
  have hle := displayLe_iff t
  have hsorted := (t.sortedChildren_stable (keyLe_trans hle) (keyLe_total hle) id).sorted
  have hnodup := hperm.nodup_iff.2 (h.children_nodup id)
  have hboth := hsorted.and hnodup
  apply hboth.imp_of_mem
  intro a b ha hb hab
  have hpa := (h.mem_children_iff a id).1 (hperm.mem_iff.1 ha)
  have hpb := (h.mem_children_iff b id).1 (hperm.mem_iff.1 hb)
  exact h.segment_lt_of_displayName hpa hpb hab.2 ((hle a b).1 hab.1)

structure Circled (t : Hierarchy Uses) (v : Radial) : Prop where
  sorted : v.leaves.Pairwise fun a b => t.trail a < t.trail b
  once : v.leaves.Nodup
  mem : ∀ x, x ∈ v.leaves ↔ t.isLeaf x = true ∧ Climbs t.parent? x t.root

theorem circled (h : Rooted d pay t) : Circled t (ofHierarchy t) where
  sorted := by
    have hs := h.shaped
    have hpre := hs.subtree_trails (t.sortedChildren_perm (displayLe t))
      (sortedChildren_segments h) hs.root
    rw [← preorder_eq hs] at hpre
    exact hpre.filter _
  once := (preorder_nodup h.shaped _).filter _
  mem x := by
    have htree : (ofHierarchy t).tree = t := rfl
    rw [leaves, htree, List.mem_filter, mem_preorder_iff h.shaped, and_comm]

end Radial

end UseGraph
