import Mathlib.Algebra.GroupWithZero.Nat
import Mathlib.Algebra.BigOperators.Group.List.Basic
import Mathlib.Data.List.Dedup
import UseGraph.Proofs.Coverage
import UseGraph.Proofs.Placement
import UseGraph.Proofs.Settling

/-!
# What a drawing weighs in total

An id is kept with one for its node, however often that is listed, and one for
each of its links. Its record comes to stand at one entry, or is dropped with
all that it weighs, and every other entry but the root weighs one. So the
circle of the root counts the ids, the links and the segments in between.
-/

set_option autoImplicit false

namespace UseGraph

open Hierarchy

theorem sum_indicator {α : Type} (p : α → Prop) [DecidablePred p] (xs : List α) :
    (xs.map fun x => if p x then 1 else 0).sum = xs.countP p := by
  rw [List.sum_map_ite, List.countP_eq_length_filter]
  simp

/-- Counts by key add up to what has a key at all. -/
theorem sum_countP {α κ : Type} [DecidableEq κ] {key : α → κ} {keys : List κ} {xs : List α}
    {p : κ → Bool} (hn : keys.Nodup) (h : ∀ x ∈ xs, key x ∈ keys ↔ p (key x) = true) :
    (keys.map fun k => xs.countP fun x => key x = k).sum = xs.countP fun x => p (key x) := by
  have hgroup : (keys.flatMap fun k => xs.filter fun x => key x = k) =
      keys.flatMap fun k => (xs.filter fun x => p (key x)).filter fun x => key x = k := by
    apply List.flatMap_congr
    intro k hk
    rw [List.filter_filter]
    apply List.filter_congr
    intro x hx
    by_cases he : key x = k
    · simp [he, he ▸ (h x hx).1 (he ▸ hk)]
    · simp [he]
  have hperm := flatMap_filter_perm key keys hn (xs.filter fun x => p (key x)) (by
    intro x hx
    obtain ⟨hmem, hp⟩ := List.mem_filter.1 hx
    exact (h x hmem).2 hp)
  simp only [List.countP_eq_length_filter]
  rw [← hperm.length_eq, ← hgroup, List.length_flatMap]

namespace Record

open Register

variable {doc : Document}

def keptWeight (o : Option UInt32) : Nat := (o.map UInt32.toNat).getD 0

theorem foldl_linkWeight (ls : List Document.Link) (o : Option UInt32)
    (h : keptWeight o + ls.length < UInt32.size) :
    keptWeight (ls.foldl (fun o _ => some (linkWeight o)) o) = keptWeight o + ls.length := by
  induction ls generalizing o with
  | nil => rfl
  | cons l ls ih =>
    have hlen : (l :: ls).length = ls.length + 1 := rfl
    have hone : keptWeight (some (linkWeight o)) = keptWeight o + 1 := by
      cases o with
      | none => rfl
      | some w =>
        have hw : w.toNat + (1 : UInt32).toNat < UInt32.size :=
          Nat.lt_of_le_of_lt (Nat.add_le_add_left (Nat.le_add_left 1 ls.length) _) h
        exact (UInt32.toNat_add w 1).trans (Nat.mod_eq_of_lt hw)
    rw [List.foldl_cons, ih _ (by omega), hone]
    omega

theorem foldl_nodeWeight (vs : List Document.Node) (id : String) (o : Option UInt32) :
    (vs.filter fun v => v.id == id).foldl (fun _ _ => some 1) o =
      if id ∈ vs.map Document.Node.id then some 1 else o := by
  induction vs generalizing o with
  | nil => rfl
  | cons v vs ih =>
    by_cases hv : v.id = id
    · simp [hv, ih]
    · simp [hv, Ne.symm hv, ih]

theorem lookup_weightsOf (hlinks : doc.links.length < UInt32.size - 1) (id : String) :
    keptWeight ((weightsOf doc).lookup id) =
      (if id ∈ doc.nodes.map Document.Node.id then 1 else 0) +
        (usedLinks doc).countP fun l => l.source = id := by
  have hused : ((usedLinks doc).filter fun l => l.source == id).length ≤ doc.links.length :=
    (List.length_filter_le _ _).trans (List.length_filter_le _ _)
  have hnode : keptWeight (if id ∈ doc.nodes.map Document.Node.id then some 1 else none) =
      if id ∈ doc.nodes.map Document.Node.id then 1 else 0 := by
    split <;> rfl
  have hone : keptWeight (if id ∈ doc.nodes.map Document.Node.id then some 1 else none) ≤ 1 := by
    split <;> decide
  rw [weightsOf_eq, lookup_collect (sorted_nodes _ doc), lookup_collect sorted_nil,
    List.lookup_nil, foldl_nodeWeight, foldl_linkWeight _ _ (by omega), hnode,
    List.countP_eq_length_filter]
  rfl

/-- What the ids of one kind weigh together. -/
theorem sum_weightsOf (hlinks : doc.links.length < UInt32.size - 1) (p : String → Bool) :
    (((weightsOf doc).filter fun e => p e.1).map fun e => e.2.toNat).sum =
      (doc.nodes.map Document.Node.id).dedup.countP p +
        (usedLinks doc).countP fun l => p l.source := by
  have hn : ((keys (weightsOf doc)).filter p).Nodup :=
    (keys_nodup (sorted_weightsOf doc)).filter p
  have hids : ((keys (weightsOf doc)).filter p).countP (· ∈ doc.nodes.map Document.Node.id) =
      (doc.nodes.map Document.Node.id).dedup.countP p := by
    rw [List.countP_eq_length_filter, List.countP_eq_length_filter]
    apply List.Perm.length_eq
    rw [List.perm_ext_iff_of_nodup (hn.filter _) ((List.nodup_dedup _).filter p)]
    intro id
    simp only [List.mem_filter, List.mem_dedup, decide_eq_true_eq, mem_keys_weightsOf]
    constructor
    · exact fun h => ⟨h.2, h.1.2⟩
    · exact fun h => ⟨⟨Or.inl (List.mem_map.1 h.1), h.2⟩, h.1⟩
  have hsources : ∀ l ∈ usedLinks doc,
      l.source ∈ (keys (weightsOf doc)).filter p ↔ p l.source = true := by
    intro l hl
    obtain ⟨hmem, hne⟩ := (mem_usedLinks_iff doc l).1 hl
    have hlists : doc.Lists l.source := Or.inr ⟨l, hmem, rfl, hne.symm⟩
    rw [List.mem_filter, mem_keys_weightsOf, and_iff_right hlists]
  calc (((weightsOf doc).filter fun e => p e.1).map fun e => e.2.toNat).sum
      = (((weightsOf doc).filter fun e => p e.1).map fun e =>
          keptWeight ((weightsOf doc).lookup e.1)).sum := by
        congr 1
        apply List.map_congr_left
        intro e he
        have hlook := (lookup_eq_some_iff (sorted_weightsOf doc) e.1 e.2).2 (List.mem_filter.1 he).1
        rw [hlook]
        rfl
    _ = (((keys (weightsOf doc)).filter p).map fun id =>
          keptWeight ((weightsOf doc).lookup id)).sum := by
        rw [keys, List.filter_map, List.map_map]
        rfl
    _ = (doc.nodes.map Document.Node.id).dedup.countP p +
          (usedLinks doc).countP fun l => p l.source := by
        simp only [lookup_weightsOf hlinks]
        rw [List.sum_map_add, sum_indicator, hids, sum_countP hn hsources]

theorem sum_weights {n : Naming} (hs : n.Sound) (hlinks : doc.links.length < UInt32.size - 1) :
    (((weights n doc).filter fun r => suits n.delimiter n.root r.name).map fun r =>
        r.payload.toNat).sum =
      (doc.nodes.map Document.Node.id).dedup.countP (fun id => "" ∉ Path.segments n.delimiter id) +
        doc.links.countP fun l => l.source ≠ l.target ∧ "" ∉ Path.segments n.delimiter l.source := by
  have hused : ((usedLinks doc).countP fun l => "" ∉ Path.segments n.delimiter l.source) =
      doc.links.countP fun l => l.source ≠ l.target ∧ "" ∉ Path.segments n.delimiter l.source := by
    rw [usedLinks, List.countP_filter]
    apply List.countP_congr
    simp [Document.Link.isLoop, and_comm]
  have hsuits : ∀ id, suits n.delimiter n.root (n.qualify id) =
      decide ("" ∉ Path.segments n.delimiter id) := by
    intro id
    rw [Bool.eq_iff_iff, Naming.suits_qualify hs, decide_eq_true_iff]
  rw [← hused, ← sum_weightsOf hlinks fun id => "" ∉ Path.segments n.delimiter id, weights,
    ofRegister, List.filter_map, List.map_map]
  simp only [Function.comp_def, hsuits]

end Record

namespace Packing

variable {d stem : String} {rs : List (Record UInt32)} {t : Hierarchy UInt32} {x : Nat}

/-- Only the root can do without a record and weigh nothing. -/
theorem ownWeight_eq (h : Kept d stem rs t) (hx : x < t.size) :
    ownWeight t x = if (t.payload? x).isSome then Record.keptWeight (t.payload? x)
      else if x ≠ t.root then 1 else 0 := by
  have hpar : (t.parent? x).isSome = true ↔ x ≠ t.root := by
    constructor
    · rintro hp rfl
      rw [h.root_top] at hp
      cases hp
    · intro hne
      obtain ⟨p, hp, -⟩ := (h.reached hx).eq_or_step.resolve_left hne
      rw [hp, Option.isSome_some]
  unfold ownWeight
  cases t.payload? x with
  | some w => rfl
  | none => simp only [hpar, Option.isSome_none, Bool.false_eq_true, if_false]

theorem sum_payloads (h : Kept d stem rs t) :
    (((List.range t.size).filter fun x => (t.payload? x).isSome).map fun x =>
        Record.keptWeight (t.payload? x)).sum =
      (rs.map fun r => r.payload.toNat).sum := by
  have hperm : ((List.range t.size).filter fun x => (t.payload? x).isSome).Perm t.records := by
    rw [List.perm_ext_iff_of_nodup (List.nodup_range.filter _) (records_nodup h.shaped)]
    intro x
    rw [List.mem_filter, List.mem_range, h.mem_records_iff, and_iff_right_of_imp lt_of_payload]
  have hrec := h.records_perm.map fun e => Record.keptWeight e.2
  rw [List.map_map, List.map_map] at hrec
  exact (hperm.map _).sum_eq.trans hrec.sum_eq

theorem value_root (h : Kept d stem rs t) :
    (ofHierarchy t).value t.root = (rs.map fun r => r.payload.toNat).sum +
      (List.range t.size).countP fun x => x ≠ t.root ∧ t.payload? x = none := by
  have hall : (t.within t.root).Perm (List.range t.size) :=
    perm_range_of_mem (t.within_nodup t.root) fun x =>
      (h.shaped.mem_within_iff t.root x).trans (and_iff_left_of_imp h.reached)
  have hown : (List.range t.size).map (ownWeight t) = (List.range t.size).map fun x =>
      if (t.payload? x).isSome then Record.keptWeight (t.payload? x)
      else if x ≠ t.root then 1 else 0 := by
    apply List.map_congr_left
    intro x hx
    exact ownWeight_eq h (List.mem_range.1 hx)
  have hbare : (((List.range t.size).filter fun x => ¬(t.payload? x).isSome).countP fun x =>
      x ≠ t.root) = (List.range t.size).countP fun x => x ≠ t.root ∧ t.payload? x = none := by
    rw [List.countP_filter]
    apply List.countP_congr
    simp
  rw [value_eq_within h.shaped (Climbs.refl t.root), (hall.map _).sum_eq, hown, List.sum_map_ite,
    sum_indicator, hbare]
  simp only [Bool.decide_eq_true, sum_payloads h]

/-- The circle of the root weighs one for each id, link and bare segment that
has its place below it. -/
theorem ofDocument_total (n : Naming) (doc : Document) (hs : n.Sound)
    (hlinks : doc.links.length < UInt32.size - 1) :
    (ofDocument n doc).value (ofDocument n doc).tree.root =
      (doc.nodes.map Document.Node.id).dedup.countP (fun id => "" ∉ Path.segments n.delimiter id) +
      doc.links.countP (fun l => l.source ≠ l.target ∧ "" ∉ Path.segments n.delimiter l.source) +
      (List.range (ofDocument n doc).tree.size).countP fun x =>
        x ≠ (ofDocument n doc).tree.root ∧ (ofDocument n doc).tree.payload? x = none := by
  have htotal := value_root (kept_of_covers hs (Record.weights_cover n doc))
  rw [Record.sum_weights hs hlinks] at htotal
  exact htotal

example : (ofDocument ⟨"->", "app"⟩ tangled).value (ofDocument ⟨"->", "app"⟩ tangled).tree.root =
    2 + 5 + 1 := by decide +kernel

theorem tangled_total : Naming.Sound ⟨"->", "app"⟩ ∧ tangled.links.length < UInt32.size - 1 ∧
    (ofDocument ⟨"->", "app"⟩ tangled).value (ofDocument ⟨"->", "app"⟩ tangled).tree.root =
      (tangled.nodes.map Document.Node.id).dedup.countP (fun id => "" ∉ Path.segments "->" id) +
      tangled.links.countP (fun l => l.source ≠ l.target ∧ "" ∉ Path.segments "->" l.source) +
      (List.range (ofDocument ⟨"->", "app"⟩ tangled).tree.size).countP fun x =>
        x ≠ (ofDocument ⟨"->", "app"⟩ tangled).tree.root ∧
          (ofDocument ⟨"->", "app"⟩ tangled).tree.payload? x = none :=
  ⟨arrow_sound, by decide, ofDocument_total ⟨"->", "app"⟩ tangled arrow_sound (by decide)⟩

end Packing

end UseGraph
