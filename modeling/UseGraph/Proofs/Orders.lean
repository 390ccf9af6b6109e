import Mathlib.Data.List.Basic
import Mathlib.Order.Lattice
import UseGraph.Proofs.Ascents

/-!
# In which order walks visit

Level by level, what is visited is what waited at first followed by the
children of all that is visited, so siblings come together and nothing comes
before an entry less deep. Subtree by subtree, every entry heads its own
subtree, which is one run of the walk. Siblings are sorted without changing
places among those that the order does not tell apart.
-/

set_option autoImplicit false

namespace UseGraph

section Keys

variable {ι K : Type} [LinearOrder K] {key : ι → K} {le : ι → ι → Bool}
  (hle : ∀ a b, le a b = true ↔ key a ≤ key b)
include hle

theorem keyLe_trans (a b c : ι) (hab : le a b = true) (hbc : le b c = true) : le a c = true := by
  rw [hle] at hab hbc ⊢
  exact le_trans hab hbc

theorem keyLe_total (a b : ι) : (le a b || le b a) = true := by
  rw [Bool.or_eq_true, hle, hle]
  exact le_total _ _

end Keys

namespace Hierarchy

variable {α : Type} {t : Hierarchy α} {kids : Nat → List Nat} {n m id x : Nat}
  {waiting out : List Nat} {le : Nat → Nat → Bool}

section Levels

variable (hv : Visits (fun id rest => rest ++ kids id) waiting out)
include hv

theorem Visits.eq_append : out = waiting ++ out.flatMap kids := by
  induction hv with
  | done => rfl
  | @step id rest out _ ih =>
    rw [List.flatMap_cons, List.cons_append, ← List.append_assoc, ← ih]

variable {height : Nat → Nat} (hkids : ∀ id, ∀ c ∈ kids id, height c = height id + 1)
include hkids

theorem Visits.height_ge (hm : ∀ id ∈ waiting, m ≤ height id) : ∀ x ∈ out, m ≤ height x := by
  induction hv with
  | done => simp
  | @step id rest out _ ih =>
    obtain ⟨hid, hrest⟩ := List.forall_mem_cons.1 hm
    refine List.forall_mem_cons.2 ⟨hid, ih ?_⟩
    intro c hc
    rcases List.mem_append.1 hc with hc | hc
    · exact hrest c hc
    · have hck := hkids id c hc
      omega

/-- What waits never spans more than two levels, the less deep one first. -/
theorem Visits.ascending (hw : waiting.Pairwise fun a b => height a ≤ height b)
    (hspan : ∀ a ∈ waiting, ∀ b ∈ waiting, height b ≤ height a + 1) :
    out.Pairwise fun a b => height a ≤ height b := by
  induction hv with
  | done => exact List.Pairwise.nil
  | @step id rest out hv ih =>
    obtain ⟨hid, hrest⟩ := List.pairwise_cons.1 hw
    have hnear : ∀ a ∈ rest, height a ≤ height id + 1 := fun a ha =>
      hspan id List.mem_cons_self a (List.mem_cons_of_mem _ ha)
    have hlevel : ∀ c ∈ rest ++ kids id, height id ≤ height c ∧ height c ≤ height id + 1 := by
      intro c hc
      rcases List.mem_append.1 hc with hc | hc
      · exact ⟨hid c hc, hnear c hc⟩
      · have hck := hkids id c hc
        omega
    refine List.pairwise_cons.2 ⟨hv.height_ge hkids fun c hc => (hlevel c hc).1, ih ?_ ?_⟩
    · refine List.pairwise_append.2 ⟨hrest, ?_, ?_⟩
      · refine List.pairwise_of_forall_mem_list ?_
        intro a ha b hb
        exact Nat.le_of_eq ((hkids id a ha).trans (hkids id b hb).symm)
      · intro a ha c hc
        rw [hkids id c hc]
        exact hnear a ha
    · intro a ha b hb
      have hal := (hlevel a ha).1
      have hbl := (hlevel b hb).2
      omega

end Levels

theorem subtree_infix (h : Descends kids n) (hid : id < n) (hx : x ∈ subtree kids n id) :
    subtree kids n x <:+: subtree kids n id := by
  induction hd : n - id using Nat.strongRecOn generalizing id with
  | ind k ih =>
    rw [subtree_eq h hid] at hx
    rcases List.mem_cons.1 hx with rfl | hx
    · exact List.infix_rfl
    · rw [subtree_eq h hid]
      obtain ⟨c, hc, hxc⟩ := List.mem_flatMap.1 hx
      obtain ⟨hlt, hcn⟩ := h id c hc
      have hcx := ih (n - c) (by omega) hcn hxc rfl
      exact (hcx.trans (List.infix_flatMap_of_mem hc _)).trans
        (List.suffix_cons id _).isInfix

def below (t : Hierarchy α) (le : Nat → Nat → Bool) (id : Nat) : List Nat :=
  subtree (t.sortedChildren le) t.size id

structure StablySorted (le : Nat → Nat → Bool) (xs ys : List Nat) : Prop where
  perm : ys.Perm xs
  sorted : ys.Pairwise fun a b => le a b = true
  stable : ∀ a b, le a b = true → [a, b].Sublist xs → [a, b].Sublist ys

theorem sortedChildren_stable (t : Hierarchy α)
    (htrans : ∀ a b c, le a b = true → le b c = true → le a c = true)
    (htotal : ∀ a b, (le a b || le b a) = true) (id : Nat) :
    StablySorted le (t.children id) (t.sortedChildren le id) where
  perm := t.sortedChildren_perm le id
  sorted := List.pairwise_mergeSort htrans htotal _
  stable _ _ hab hs := List.pair_sublist_mergeSort htrans htotal hab hs

namespace Shaped

variable (h : Shaped t)
include h

theorem depth_of_child (hx : x ∈ t.children id) : t.depth x = t.depth id + 1 :=
  h.depth_of_parent ((h.mem_children x id).1 hx)

theorem descendants_eq : t.descendants = t.root :: t.descendants.flatMap t.children :=
  (visits_descendants h).eq_append

theorem descendants_levels : t.descendants.Pairwise fun a b => t.depth a ≤ t.depth b :=
  (visits_descendants h).ascending (fun _ _ hc => h.depth_of_child hc)
    (List.pairwise_singleton _ _) (by simp)

theorem children_infix (hid : id ∈ t.descendants) : t.children id <:+: t.descendants := by
  rw [h.descendants_eq]
  exact (List.infix_flatMap_of_mem hid _).trans (List.suffix_cons t.root _).isInfix

theorem below_eq (le : Nat → Nat → Bool) (hid : id < t.size) :
    t.below le id = id :: (t.sortedChildren le id).flatMap (t.below le) :=
  subtree_eq (h.descends (t.sortedChildren_perm le)) hid

theorem mem_below_iff (le : Nat → Nat → Bool) (hid : id < t.size) (x : Nat) :
    x ∈ t.below le id ↔ Climbs t.parent? x id :=
  h.mem_subtree_iff (t.sortedChildren_perm le) id hid x

theorem subtree_perm_within (hid : id < t.size) :
    (subtree t.children t.size id).Perm (t.within id) := by
  rw [List.perm_ext_iff_of_nodup (h.subtree_nodup (fun _ => List.Perm.refl _) id hid)
    (t.within_nodup id)]
  intro x
  rw [h.mem_subtree_iff (fun _ => List.Perm.refl _) id hid, h.mem_within_iff,
    and_iff_right_of_imp fun hc => lt_size_of_climbs hc hid]

theorem below_infix (hid : id ∈ t.preorder le) : t.below le id <:+: t.preorder le := by
  rw [preorder_eq h] at hid ⊢
  exact subtree_infix (h.descends (t.sortedChildren_perm le)) h.root hid

end Shaped

end Hierarchy

end UseGraph
