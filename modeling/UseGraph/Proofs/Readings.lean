import Mathlib.Data.List.Forall2
import UseGraph.Layout.Packing
import UseGraph.Layout.Radial
import UseGraph.Proofs.Ascents
import UseGraph.Proofs.Conservation
import UseGraph.Proofs.Outlines
import UseGraph.Proofs.Weighing

/-!
# Drawn trees read from the top

Both drawings are nested values made by going down from the root. Read from
the top, each node before the nodes below it, they list what the walk with the
same order of siblings visits, a node without children just where a leaf is
visited, and element ids are numbered along the walk.
-/

set_option autoImplicit false

namespace UseGraph

namespace Outline

variable {α β : Type} {f : ElementIds → α → β × ElementIds} {g : α → Nat → β}

mutual

/-- One id for each label and none between, along the reading from the top. -/
theorem marked_relabel (hf : ∀ s a, f s a = (g a (s.issued + 1), ⟨s.issued + 1⟩)) :
    ∀ (o : Outline α) (s : ElementIds), (o.relabel f s).1.marked =
        (o.marked.zipIdx (s.issued + 1)).map (fun e => (e.1.1, g e.1.2 e.2)) ∧
      (o.relabel f s).2.issued = s.issued + o.marked.length
  | .leaf a, s => by
    simp [relabel, hf, marked_leaf]
  | .container a cs, s => by
    have hrest := marked_relabelAll hf cs ⟨s.issued + 1⟩
    simp only [relabel, hf, marked_container, List.zipIdx_cons, List.map_cons, List.length_cons]
    constructor
    · rw [hrest.1]
    · rw [hrest.2, Nat.add_assoc, Nat.add_comm 1]

theorem marked_relabelAll (hf : ∀ s a, f s a = (g a (s.issued + 1), ⟨s.issued + 1⟩)) :
    ∀ (cs : List (Outline α)) (s : ElementIds), (relabelAll f s cs).1.flatMap marked =
        ((cs.flatMap marked).zipIdx (s.issued + 1)).map (fun e => (e.1.1, g e.1.2 e.2)) ∧
      (relabelAll f s cs).2.issued = s.issued + (cs.flatMap marked).length
  | [], s => by simp [relabelAll]
  | c :: cs, s => by
    have hc := marked_relabel hf c s
    have hcs := marked_relabelAll hf cs (relabel f s c).2
    simp only [relabelAll, List.flatMap_cons, List.zipIdx_append, List.map_append,
      List.length_append]
    constructor
    · rw [hc.1, hcs.1, hc.2]
      congr 3
      omega
    · rw [hcs.2, hc.2]
      omega

end

section Words

variable {h : UInt64 → α → β × UInt64}

theorem toNat_succ {w : UInt64} (hw : w.toNat + 1 < UInt64.size) :
    (w + 1).toNat = w.toNat + 1 := by
  rw [UInt64.toNat_add, UInt64.toNat_one]
  exact Nat.mod_eq_of_lt hw

mutual

/-- The same labels when the count is kept in a word, as long as a word can hold it. -/
theorem relabel_words (hf : ∀ s a, f s a = (g a (s.issued + 1), ⟨s.issued + 1⟩))
    (hw : ∀ w a, h w a = (g a (w + 1).toNat, w + 1)) :
    ∀ (o : Outline α) (w : UInt64), w.toNat + o.marked.length < UInt64.size →
      (o.relabel h w).1 = (o.relabel f ⟨w.toNat⟩).1 ∧
        (o.relabel h w).2.toNat = w.toNat + o.marked.length
  | .leaf a, w, hlt => by
    rw [marked_leaf, List.length_singleton] at hlt ⊢
    simp [relabel, hf, hw, toNat_succ hlt]
  | .container a cs, w, hlt => by
    rw [marked_container, List.length_cons] at hlt ⊢
    have hnext : (w + 1).toNat = w.toNat + 1 := toNat_succ (by omega)
    have hrest := relabelAll_words hf hw cs (w + 1) (by omega)
    rw [hnext] at hrest
    simp only [relabel, hf, hw, hnext]
    constructor
    · rw [hrest.1]
    · rw [hrest.2]
      omega

theorem relabelAll_words (hf : ∀ s a, f s a = (g a (s.issued + 1), ⟨s.issued + 1⟩))
    (hw : ∀ w a, h w a = (g a (w + 1).toNat, w + 1)) :
    ∀ (cs : List (Outline α)) (w : UInt64), w.toNat + (cs.flatMap marked).length < UInt64.size →
      (relabelAll h w cs).1 = (relabelAll f ⟨w.toNat⟩ cs).1 ∧
        (relabelAll h w cs).2.toNat = w.toNat + (cs.flatMap marked).length
  | [], w, _ => by simp [relabelAll]
  | c :: cs, w, hlt => by
    rw [List.flatMap_cons, List.length_append] at hlt ⊢
    have hc := relabel_words hf hw c w (by omega)
    have hcs := relabelAll_words hf hw cs (relabel h w c).2 (by omega)
    have hsession : (⟨(relabel h w c).2.toNat⟩ : ElementIds) = (relabel f ⟨w.toNat⟩ c).2 := by
      rw [hc.2, ← (marked_relabel hf c ⟨w.toNat⟩).2]
    rw [hsession] at hcs
    simp only [relabelAll]
    constructor
    · rw [hc.1, hcs.1]
    · rw [hcs.2, hc.2]
      omega

end

end Words

end Outline

namespace Hierarchy

variable {α : Type} {t : Hierarchy α}

/-- The walk meets as many entries as the root has at or below it. -/
theorem preorder_perm_within (h : Shaped t) (le : Nat → Nat → Bool) :
    (t.preorder le).Perm (t.within t.root) := by
  rw [List.perm_ext_iff_of_nodup (preorder_nodup h le) (t.within_nodup t.root)]
  intro x
  rw [mem_preorder_iff h, h.mem_within_iff]
  exact ⟨fun hc => ⟨lt_size_of_climbs hc h.root, hc⟩, fun hx => hx.2⟩

end Hierarchy

namespace Radial

open Hierarchy

variable {t : Hierarchy Uses}

structure Labelled (t : Hierarchy Uses) (g : Crosslinked) (x : Nat) (a : Label) : Prop where
  name : a.name = t.segment x
  fullName : a.fullName = t.name x
  displayName : a.displayName = t.displayName x
  size : a.size = (t.payload? x).map Uses.size
  sized : a.size.isSome = (t.payload? x).isSome
  outgoing : a.outgoing = (g.outgoing x).map fun l => l.target.map t.name
  incoming : a.incoming = (g.incoming x).map fun l => t.name l.source

structure Read (t : Hierarchy Uses) (v : Radial) : Prop where
  labels : List.Forall₂ (fun x e => e.1 = t.isLeaf x ∧ Labelled t v.graph x e.2)
    (t.preorder (displayLe t)) v.drawing.tree.marked
  leaves : (v.drawing.tree.marked.filter Prod.fst).map (fun e => e.2.fullName) =
    v.leaves.map t.name

theorem labelled (v : Radial) (x : Nat) : Labelled v.tree v.graph x (v.label x) :=
  ⟨rfl, rfl, rfl, rfl, Option.isSome_map, rfl, rfl⟩

theorem marked_drawing (h : Shaped t) : (ofHierarchy t).drawing.tree.marked =
    (t.preorder (displayLe t)).map fun x => (t.isLeaf x, (ofHierarchy t).label x) := by
  have hmap := Outline.marked_map (ofHierarchy t).label (t.outline (displayLe t))
  rw [marked_outline h, List.map_map] at hmap
  exact hmap

theorem read_drawing (h : Shaped t) : Read t (ofHierarchy t) where
  labels := by
    rw [marked_drawing h, List.forall₂_map_right_iff, List.forall₂_same]
    intro x _
    exact ⟨rfl, labelled (ofHierarchy t) x⟩
  leaves := by
    rw [marked_drawing h, List.filter_map, List.map_map]
    rfl

end Radial

namespace Packing

open Hierarchy

variable {t : Hierarchy UInt32}

def circleNumbered (v : Packing) (x k : Nat) : Circle :=
  ⟨"O-" ++ v.tree.segment x ++ "-" ++ k.repr, v.tree.segment x, v.value x⟩

def drawingInWords (v : Packing) (w : UInt64) : Outline Circle × UInt64 :=
  (v.tree.outline v.heavierFirst).relabel
    (fun w x => (v.circleNumbered x (w + 1).toNat, w + 1)) w

structure Read (t : Hierarchy UInt32) (v : Packing) (ids : ElementIds) : Prop where
  circles : (v.drawing ids).1.marked = ((t.preorder v.heavierFirst).zipIdx 1).map fun (x, k) =>
    (t.isLeaf x,
      ⟨"O-" ++ t.segment x ++ "-" ++ (ids.issued + k).repr, t.segment x, v.value x⟩)
  issued : (v.drawing ids).2.issued = ids.issued + (t.within t.root).length
  words : ∀ w : UInt64, w.toNat = ids.issued →
    w.toNat + (t.within t.root).length < UInt64.size →
    (v.drawingInWords w).1 = (v.drawing ids).1 ∧
      (v.drawingInWords w).2.toNat = (v.drawing ids).2.issued

theorem circle_eq (v : Packing) (ids : ElementIds) (x : Nat) :
    v.circle ids x = (v.circleNumbered x (ids.issued + 1), ⟨ids.issued + 1⟩) := rfl

theorem read_drawing (h : Shaped t) (ids : ElementIds) : Read t (ofHierarchy t) ids := by
  have hrun := Outline.marked_relabel (circle_eq (ofHierarchy t))
    (t.outline (ofHierarchy t).heavierFirst) ids
  have hlength : (t.outline (ofHierarchy t).heavierFirst).marked.length =
      (t.within t.root).length := by
    rw [marked_outline h, List.length_map, (preorder_perm_within h _).length_eq]
  rw [hlength, marked_outline h, List.zipIdx_map, List.map_map,
    ← List.map_snd_add_zipIdx_eq_zipIdx, List.map_map] at hrun
  constructor
  · apply hrun.1.trans
    apply List.map_congr_left
    intro e _
    simp only [Function.comp_apply, Prod.map, id_eq, circleNumbered, Nat.add_comm e.2]
    rfl
  · exact hrun.2
  · intro w hw hlt
    obtain rfl : (⟨w.toNat⟩ : ElementIds) = ids := by rw [hw]
    have hwords := Outline.relabel_words (circle_eq (ofHierarchy t)) (fun _ _ => rfl)
      (t.outline (ofHierarchy t).heavierFirst) w (by rwa [hlength])
    exact ⟨hwords.1, hwords.2.trans ((congrArg _ hlength).trans hrun.2.symm)⟩

end Packing

open Hierarchy in
/-- Whatever a build returns, its nested drawings list what the walks visit, in
that order, and issue one id for each entry that the root reaches. -/
theorem made_read :
    (∀ t : Hierarchy Uses, Made t → Radial.Read t (Radial.ofHierarchy t)) ∧
    ∀ t : Hierarchy UInt32, Made t → ∀ ids, Packing.Read t (Packing.ofHierarchy t) ids :=
  ⟨fun _ h => Radial.read_drawing h.shaped, fun _ h ids => Packing.read_drawing h.shaped ids⟩

open Hierarchy in
theorem laden_read : (∃ t, ofRecords Crosslinked.entwined "::" = .ok t ∧ Made t ∧
      Radial.Read t (Radial.ofHierarchy t)) ∧
    ∃ t, ofRecords Packing.laden "::" = .ok t ∧ Made t ∧
      Packing.Read t (Packing.ofHierarchy t) ⟨7⟩ := by
  constructor
  · obtain ⟨t, ht⟩ := accepted_of_isSome Crosslinked.entwined "::" (by decide +kernel)
    exact ⟨t, ht, .strict ht, made_read.1 t (.strict ht)⟩
  · obtain ⟨t, ht⟩ := accepted_of_isSome Packing.laden "::" (by decide +kernel)
    exact ⟨t, ht, .strict ht, made_read.2 t (.strict ht) ⟨7⟩⟩

end UseGraph
