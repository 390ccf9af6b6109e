import Mathlib.Data.List.Nodup
import UseGraph.Hierarchy.Traversal
import UseGraph.Proofs.Climb

/-!
# What walks visit

Where every child comes after its parent and children lists are the parents
read backwards, an entry spreads to a finite subtree in which nothing occurs
twice. The walk that puts children in front yields the subtree of the root in
that order, and the walk that puts them at the end yields the same entries.
There are never more of them than there are entries, so no walk is cut short.
-/

set_option autoImplicit false

namespace UseGraph.Hierarchy

variable {α : Type} {t : Hierarchy α} {kids : Nat → List Nat} {n k id x : Nat}
  {wait : Nat → List Nat → List Nat}

structure Shaped (t : Hierarchy α) : Prop where
  parent_lt : ∀ c p, t.parent? c = some p → p < c
  mem_children : ∀ c p, c ∈ t.children p ↔ t.parent? c = some p
  nodup : ∀ p, (t.children p).Nodup
  root : t.root < t.size

def spread (kids : Nat → List Nat) : Nat → Nat → List Nat
  | 0, _ => []
  | k + 1, id => id :: (kids id).flatMap (spread kids k)

def subtree (kids : Nat → List Nat) (n id : Nat) : List Nat := spread kids (n - id) id

def Descends (kids : Nat → List Nat) (n : Nat) : Prop := ∀ id, ∀ c ∈ kids id, id < c ∧ c < n

theorem spread_deep (h : Descends kids n) (m id : Nat) (hk : n - id ≤ k) (hm : n - id ≤ m)
    (hid : id < n) : spread kids k id = spread kids m id := by
  induction k generalizing m id with
  | zero => omega
  | succ k ih =>
    cases m with
    | zero => omega
    | succ m =>
      rw [spread, spread]
      congr 1
      apply List.flatMap_congr
      intro c hc
      have hcl := h id c hc
      exact ih m c (by omega) (by omega) hcl.2

theorem subtree_eq (h : Descends kids n) (hid : id < n) :
    subtree kids n id = id :: (kids id).flatMap (subtree kids n) := by
  have hs : n - id = n - id - 1 + 1 := by omega
  rw [subtree, hs, spread]
  congr 1
  apply List.flatMap_congr
  intro c hc
  have hcl := h id c hc
  exact spread_deep h (n - c) c (by omega) (Nat.le_refl _) hcl.2

theorem flatMap_subtree_cons (h : Descends kids n) (hid : id < n) (rest : List Nat) :
    (id :: rest).flatMap (subtree kids n) =
      id :: (kids id ++ rest).flatMap (subtree kids n) := by
  rw [List.flatMap_cons, subtree_eq h hid, List.flatMap_append, List.cons_append]

inductive Visits (wait : Nat → List Nat → List Nat) : List Nat → List Nat → Prop where
  | done : Visits wait [] []
  | step {id : Nat} {rest out : List Nat} (h : Visits wait (wait id rest) out) :
      Visits wait (id :: rest) (id :: out)

theorem waiting_lt (h : Descends kids n) {next rest : List Nat}
    (hw : next.Perm (kids id ++ rest)) (hrest : ∀ c ∈ rest, c < n) : ∀ c ∈ next, c < n := by
  intro c hc
  rcases List.mem_append.1 (hw.mem_iff.1 hc) with hm | hm
  · exact (h id c hm).2
  · exact hrest c hm

/-- A walk is not cut short where what waits spreads to no more entries than
may be visited. -/
theorem visits_visit (h : Descends kids n)
    (hw : ∀ id rest, (wait id rest).Perm (kids id ++ rest)) (waiting : List Nat)
    (hs : ∀ id ∈ waiting, id < n) (hk : (waiting.flatMap (subtree kids n)).length ≤ k) :
    Visits wait waiting (visit wait k waiting) := by
  induction k generalizing waiting with
  | zero =>
    cases waiting with
    | nil => exact .done
    | cons id rest =>
      rw [flatMap_subtree_cons h (hs id List.mem_cons_self)] at hk
      cases hk
  | succ k ih =>
    cases waiting with
    | nil => exact .done
    | cons id rest =>
      obtain ⟨hid, hrest⟩ := List.forall_mem_cons.1 hs
      rw [flatMap_subtree_cons h hid] at hk
      refine .step (ih (wait id rest) (waiting_lt h (hw id rest) hrest) ?_)
      rw [((hw id rest).flatMap_right (subtree kids n)).length_eq]
      exact Nat.le_of_succ_le_succ hk

namespace Visits

variable {waiting out : List Nat} (hv : Visits wait waiting out) (h : Descends kids n)
include hv h

/-- Children in front: each subtree is finished before the next is begun. -/
theorem eq_flatMap (hw : ∀ id rest, wait id rest = kids id ++ rest)
    (hs : ∀ id ∈ waiting, id < n) : out = waiting.flatMap (subtree kids n) := by
  induction hv with
  | done => rfl
  | @step id rest out _ ih =>
    obtain ⟨hid, hrest⟩ := List.forall_mem_cons.1 hs
    have hp : (wait id rest).Perm (kids id ++ rest) := by rw [hw]
    rw [flatMap_subtree_cons h hid, ← hw, ← ih (waiting_lt h hp hrest)]

/-- Wherever the children are put, the same entries are visited. -/
theorem perm_flatMap (hw : ∀ id rest, (wait id rest).Perm (kids id ++ rest))
    (hs : ∀ id ∈ waiting, id < n) : out.Perm (waiting.flatMap (subtree kids n)) := by
  induction hv with
  | done => exact List.Perm.refl _
  | @step id rest out _ ih =>
    obtain ⟨hid, hrest⟩ := List.forall_mem_cons.1 hs
    have hp := (hw id rest).flatMap_right (subtree kids n)
    rw [flatMap_subtree_cons h hid]
    exact List.Perm.cons id ((ih (waiting_lt h (hw id rest) hrest)).trans hp)

end Visits

theorem parent?_lt_size (t : Hierarchy α) (h : t.parent? id = some x) : id < t.size := by
  obtain ⟨e, he, -⟩ := Option.bind_eq_some_iff.1 h
  exact (Array.getElem?_eq_some_iff.1 he).1

theorem lt_size_of_climbs (h : Climbs t.parent? x id) (hid : id < t.size) : x < t.size := by
  rcases h.eq_or_step with rfl | ⟨p, hp, -⟩
  · exact hid
  · exact parent?_lt_size t hp

namespace Shaped

variable (h : Shaped t) (hk : ∀ id, (kids id).Perm (t.children id))
include h hk

theorem descends : Descends kids t.size := by
  intro id c hc
  have hp := (h.mem_children c id).1 ((hk id).mem_iff.1 hc)
  exact ⟨h.parent_lt c id hp, parent?_lt_size t hp⟩

theorem mem_subtree_iff (id : Nat) (hid : id < t.size) (x : Nat) :
    x ∈ subtree kids t.size id ↔ Climbs t.parent? x id := by
  induction hn : t.size - id using Nat.strongRecOn generalizing id with
  | ind n ih =>
    have hstep : ∀ c ∈ kids id, x ∈ subtree kids t.size c ↔ Climbs t.parent? x c := by
      intro c hc
      have hcl := h.descends hk id c hc
      exact ih (t.size - c) (by omega) c hcl.2 rfl
    rw [subtree_eq (h.descends hk) hid, List.mem_cons, List.mem_flatMap]
    constructor
    · rintro (rfl | ⟨c, hc, hx⟩)
      · exact Climbs.refl x
      · exact ((hstep c hc).1 hx).tail ((h.mem_children c id).1 ((hk id).mem_iff.1 hc))
    · intro hx
      rcases hx.eq_or_last with he | ⟨c, hc, hcp⟩
      · exact Or.inl he
      · have hm := (hk id).mem_iff.2 ((h.mem_children c id).2 hcp)
        exact Or.inr ⟨c, hm, (hstep c hm).2 hc⟩

theorem subtree_nodup (id : Nat) (hid : id < t.size) : (subtree kids t.size id).Nodup := by
  induction hn : t.size - id using Nat.strongRecOn generalizing id with
  | ind n ih =>
    rw [subtree_eq (h.descends hk) hid, List.nodup_cons, List.nodup_flatMap]
    refine ⟨?_, ?_, ?_⟩
    · intro hm
      obtain ⟨c, hc, hx⟩ := List.mem_flatMap.1 hm
      have hcl := h.descends hk id c hc
      have hle := Climbs.size_le h.parent_lt ((h.mem_subtree_iff hk c hcl.2 id).1 hx)
      omega
    · intro c hc
      have hcl := h.descends hk id c hc
      exact ih (t.size - c) (by omega) c hcl.2 rfl
    · refine ((hk id).nodup_iff.2 (h.nodup id)).imp_of_mem ?_
      intro a b ha hb hne x hxa hxb
      have hal := h.descends hk id a ha
      have hbl := h.descends hk id b hb
      apply hne
      exact Climbs.sole h.parent_lt ((h.mem_subtree_iff hk a hal.2 x).1 hxa)
        ((h.mem_subtree_iff hk b hbl.2 x).1 hxb)
        ((h.mem_children a id).1 ((hk id).mem_iff.1 ha))
        ((h.mem_children b id).1 ((hk id).mem_iff.1 hb))

theorem subtree_length (id : Nat) (hid : id < t.size) :
    (subtree kids t.size id).length ≤ t.size := by
  have hsub : subtree kids t.size id ⊆ List.range t.size := by
    intro x hx
    exact List.mem_range.2 (lt_size_of_climbs ((h.mem_subtree_iff hk id hid x).1 hx) hid)
  simpa using (h.subtree_nodup hk id hid).length_le_of_subset hsub

end Shaped

theorem visits_from_root (h : Shaped t) (hk : ∀ id, (kids id).Perm (t.children id))
    (hw : ∀ id rest, (wait id rest).Perm (kids id ++ rest)) :
    Visits wait [t.root] (visit wait t.size [t.root]) :=
  visits_visit (h.descends hk) hw [t.root] (by simpa using h.root)
    (by simpa using h.subtree_length hk t.root h.root)

theorem sortedChildren_perm (t : Hierarchy α) (le : Nat → Nat → Bool) (id : Nat) :
    (t.sortedChildren le id).Perm (t.children id) := List.mergeSort_perm _ _

theorem visits_preorder (h : Shaped t) (le : Nat → Nat → Bool) :
    Visits (fun id rest => t.sortedChildren le id ++ rest) [t.root] (t.preorder le) :=
  visits_from_root h (t.sortedChildren_perm le) fun _ _ => List.Perm.refl _

theorem visits_descendants (h : Shaped t) :
    Visits (fun id rest => rest ++ t.children id) [t.root] t.descendants :=
  visits_from_root h (fun _ => List.Perm.refl _) fun _ _ => List.perm_append_comm

theorem preorder_eq (h : Shaped t) (le : Nat → Nat → Bool) :
    t.preorder le = subtree (t.sortedChildren le) t.size t.root := by
  have hout := (visits_preorder h le).eq_flatMap (h.descends (t.sortedChildren_perm le))
    (fun _ _ => rfl) (by simpa using h.root)
  simpa using hout

theorem descendants_perm (h : Shaped t) :
    t.descendants.Perm (subtree t.children t.size t.root) := by
  have hout := (visits_descendants h).perm_flatMap (h.descends fun _ => List.Perm.refl _)
    (fun _ _ => List.perm_append_comm) (by simpa using h.root)
  simpa using hout

theorem mem_preorder_iff (h : Shaped t) (le : Nat → Nat → Bool) (x : Nat) :
    x ∈ t.preorder le ↔ Climbs t.parent? x t.root := by
  rw [preorder_eq h]
  exact h.mem_subtree_iff (t.sortedChildren_perm le) t.root h.root x

theorem preorder_nodup (h : Shaped t) (le : Nat → Nat → Bool) : (t.preorder le).Nodup := by
  rw [preorder_eq h]
  exact h.subtree_nodup (t.sortedChildren_perm le) t.root h.root

theorem mem_descendants_iff (h : Shaped t) (x : Nat) :
    x ∈ t.descendants ↔ Climbs t.parent? x t.root := by
  rw [(descendants_perm h).mem_iff]
  exact h.mem_subtree_iff (fun _ => List.Perm.refl _) t.root h.root x

theorem descendants_nodup (h : Shaped t) : t.descendants.Nodup :=
  (descendants_perm h).nodup_iff.2 (h.subtree_nodup (fun _ => List.Perm.refl _) t.root h.root)

theorem mem_records_iff (h : Shaped t) (x : Nat) :
    x ∈ t.records ↔ Climbs t.parent? x t.root ∧ (t.payload? x).isSome = true := by
  rw [records, List.mem_filter, mem_preorder_iff h]

theorem records_nodup (h : Shaped t) : t.records.Nodup :=
  (preorder_nodup h attached).filter _

end UseGraph.Hierarchy
