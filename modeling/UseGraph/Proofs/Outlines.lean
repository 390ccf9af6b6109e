import UseGraph.Hierarchy.Traversal
import UseGraph.Proofs.Walks

/-!
# Outlines read from the top

Each label before the labels below it, the outline of a hierarchy is the walk
that finishes each subtree first, and has no children just where a leaf is
visited. The outline is never cut short either.
-/

set_option autoImplicit false

namespace UseGraph

namespace Outline

variable {α β : Type}

theorem foldAll_eq (f : α → Option (List β) → β) (cs : List (Outline α)) :
    foldAll f cs = cs.map (fold f) := by
  induction cs with
  | nil => rfl
  | cons c cs ih => rw [foldAll, ih, List.map_cons]

theorem map_container (f : α → β) (a : α) (cs : List (Outline α)) :
    (container a cs).map f = container (f a) (cs.map (map f)) := by
  rw [map, fold, foldAll_eq]
  rfl

def labels (o : Outline α) : List α := o.fold fun a cs => a :: (cs.getD []).flatten

theorem labels_leaf (a : α) : (leaf a).labels = [a] := rfl

theorem labels_container (a : α) (cs : List (Outline α)) :
    (container a cs).labels = a :: cs.flatMap labels := by
  rw [labels, fold, foldAll_eq, Option.getD_some, List.flatMap_def]
  rfl

def marked (o : Outline α) : List (Bool × α) :=
  o.fold fun a cs => (cs.isNone, a) :: (cs.getD []).flatten

theorem marked_leaf (a : α) : (leaf a).marked = [(true, a)] := rfl

theorem marked_container (a : α) (cs : List (Outline α)) :
    (container a cs).marked = (false, a) :: cs.flatMap marked := by
  rw [marked, fold, foldAll_eq, Option.getD_some, List.flatMap_def]
  rfl

theorem marked_map (f : α → β) : ∀ o : Outline α,
    (o.map f).marked = o.marked.map fun e => (e.1, f e.2)
  | .leaf a => rfl
  | .container a cs => by
    have hcs : ∀ c ∈ cs, (c.map f).marked = c.marked.map fun e => (e.1, f e.2) := fun c _ =>
      marked_map f c
    rw [map_container, marked_container, marked_container, List.map_cons, List.flatMap_map,
      List.map_flatMap, List.flatMap_congr hcs]

theorem labels_eq : ∀ o : Outline α, o.labels = o.marked.map Prod.snd
  | .leaf a => rfl
  | .container a cs => by
    have hcs : ∀ c ∈ cs, c.labels = c.marked.map Prod.snd := fun c _ => labels_eq c
    rw [labels_container, marked_container, List.map_cons, List.map_flatMap,
      List.flatMap_congr hcs]

end Outline

namespace Hierarchy

variable {α : Type} {t : Hierarchy α} {id k : Nat}

theorem children_of_leaf (h : t.isLeaf id = true) : t.children id = [] := by
  unfold isLeaf children at *
  cases he : t.entry? id with
  | none => rfl
  | some e =>
    rw [he] at h
    cases hc : e.content with
    | leaf a => simp [hc, Content.children]
    | container cs a => simp [hc, Content.isLeaf] at h

theorem marked_outlineFrom (h : Shaped t) (le : Nat → Nat → Bool) (hid : id < t.size)
    (hk : t.size - id ≤ k) : (t.outlineFrom le k id).marked =
      (subtree (t.sortedChildren le) t.size id).map fun x => (t.isLeaf x, x) := by
  have hd : Descends (t.sortedChildren le) t.size := h.descends (t.sortedChildren_perm le)
  induction k generalizing id with
  | zero => omega
  | succ k ih =>
    rw [outlineFrom, subtree_eq hd hid, List.map_cons]
    by_cases hleaf : t.isLeaf id = true
    · rw [if_pos hleaf, Outline.marked_leaf, hleaf]
      simp [sortedChildren, children_of_leaf hleaf]
    · rw [if_neg hleaf, Outline.marked_container, List.flatMap_map, List.map_flatMap,
        Bool.eq_false_iff.2 hleaf]
      congr 1
      apply List.flatMap_congr
      intro c hc
      have hcl := hd id c hc
      exact ih hcl.2 (by omega)

theorem marked_outline (h : Shaped t) (le : Nat → Nat → Bool) :
    (t.outline le).marked = (t.preorder le).map fun x => (t.isLeaf x, x) := by
  rw [outline, marked_outlineFrom h le h.root (Nat.sub_le _ _), preorder_eq h]

theorem labels_outline (h : Shaped t) (le : Nat → Nat → Bool) :
    (t.outline le).labels = t.preorder le := by
  rw [Outline.labels_eq, marked_outline h, List.map_map]
  exact List.map_id _

end Hierarchy

end UseGraph
