import Mathlib.Algebra.GroupWithZero.Nat
import Mathlib.Algebra.Order.BigOperators.Group.List
import Mathlib.Algebra.Order.Ring.Nat
import UseGraph.Proofs.Settling

/-!
# Values in words

Values only grow while entries are settled, so no sum on the way exceeds the
last ones, and these are words as long as the entries can be counted in half a
word. Adding in words therefore never overflows and gives the same values.
-/

set_option autoImplicit false

namespace UseGraph.Packing

open Hierarchy

variable {t : Hierarchy UInt32} {values : Array Nat} {words : Array UInt64} {ids : List Nat}
  {id x : Nat}

theorem ownWeight_lt (t : Hierarchy UInt32) (id : Nat) : ownWeight t id < UInt32.size := by
  unfold ownWeight
  split
  · exact UInt32.toNat_lt_size _
  · split <;> decide

theorem value_lt (h : Shaped t) (htop : t.parent? t.root = none) (hsize : t.size ≤ UInt32.size)
    (x : Nat) : (ofHierarchy t).value x < UInt64.size := by
  by_cases hx : Climbs t.parent? x t.root
  · have hsum : ((t.within x).map (ownWeight t)).sum ≤ (t.within x).length * (UInt32.size - 1) := by
      have hle := List.sum_le_card_nsmul ((t.within x).map (ownWeight t)) (UInt32.size - 1) (by
        intro w hw
        obtain ⟨id, -, rfl⟩ := List.mem_map.1 hw
        exact Nat.le_pred_of_lt (ownWeight_lt t id))
      simpa using hle
    have hlen : (t.within x).length ≤ t.size := by
      simpa [within] using List.length_filter_le (fun y => decide (x ∈ t.ascent y))
        (List.range t.size)
    have hprod := Nat.mul_le_mul_right (UInt32.size - 1) (hlen.trans hsize)
    rw [value_eq_within h hx]
    exact Nat.lt_of_le_of_lt (hsum.trans hprod) (by decide)
  · rw [value_unreached h htop hx]
    decide

def addWord? (words : Array UInt64) (id : Nat) (w : UInt64) : Option (Array UInt64) :=
  match words[id]? with
  | some v => if v.toNat + w.toNat < UInt64.size then some (words.modify id (· + w)) else none
  | none => none

def ownWord (t : Hierarchy UInt32) (id : Nat) : UInt64 :=
  match t.payload? id with
  | some w => w.toUInt64
  | none => if (t.parent? id).isSome then 1 else 0

def settleWords? (t : Hierarchy UInt32) (words : Array UInt64) (id : Nat) :
    Option (Array UInt64) :=
  (addWord? words id (ownWord t id)).bind fun words =>
    match t.parent? id with
    | some p => addWord? words p (words[id]?.getD 0)
    | none => some words

theorem ownWord_toNat (t : Hierarchy UInt32) (id : Nat) :
    (ownWord t id).toNat = ownWeight t id := by
  unfold ownWord ownWeight
  cases t.payload? id with
  | some w => exact UInt32.toNat_toUInt64 w
  | none => cases (t.parent? id).isSome <;> rfl

theorem word_toNat (hw : words.map UInt64.toNat = values) (x : Nat) :
    (words[x]?.getD 0).toNat = valueAt values x := by
  rw [← hw, valueAt, Array.getElem?_map]
  cases words[x]? <;> rfl

theorem addWord?_eq (hw : words.map UInt64.toNat = values) (hid : id < values.size) (w : UInt64)
    (hlt : valueAt values id + w.toNat < UInt64.size) :
    ∃ sums, addWord? words id w = some sums ∧
      sums.map UInt64.toNat = values.modify id (· + w.toNat) := by
  subst hw
  have hidw : id < words.size := by simpa using hid
  have hv : words[id]? = some words[id] := Array.getElem?_eq_getElem hidw
  have hsum : words[id].toNat + w.toNat < UInt64.size := by
    simpa [valueAt, hidw] using hlt
  refine ⟨words.modify id (· + w), by simp only [addWord?, hv, if_pos hsum], ?_⟩
  apply Array.ext_getElem?
  intro i
  rw [Array.getElem?_map, Array.getElem?_modify, Array.getElem?_modify, Array.getElem?_map]
  by_cases hi : id = i
  · subst hi
    rw [if_pos rfl, if_pos rfl, hv]
    simp [UInt64.toNat_add, Nat.mod_eq_of_lt hsum]
  · rw [if_neg hi, if_neg hi]

theorem settleWords?_eq (h : Shaped t) (hw : words.map UInt64.toNat = values)
    (hsize : values.size = t.size) (hid : id < t.size)
    (hlt : ∀ x, valueAt (settle t values id) x < UInt64.size) :
    ∃ sums, settleWords? t words id = some sums ∧
      sums.map UInt64.toNat = settle t values id := by
  have hself : t.parent? id ≠ some id := by
    intro hp
    exact Nat.lt_irrefl id (h.parent_lt id id hp)
  have hown := hlt id
  rw [valueAt_settle h hsize hid, if_pos rfl, if_neg hself, ← ownWord_toNat] at hown
  obtain ⟨sums, hsums, hmap⟩ := addWord?_eq hw (hsize ▸ hid) (ownWord t id) hown
  rw [ownWord_toNat] at hmap
  cases hp : t.parent? id with
  | none => exact ⟨sums, by simp [settleWords?, hsums, hp], by simp [settle, hp, hmap]⟩
  | some p =>
    have hne : p ≠ id := fun he => hself (he ▸ hp)
    have hpl : p < (values.modify id (· + ownWeight t id)).size := by
      rw [Array.size_modify, hsize]
      exact (h.parent_lt id p hp).trans hid
    have hself' : valueAt (values.modify id (· + ownWeight t id)) id =
        valueAt values id + ownWeight t id := by
      rw [valueAt_modify values id id _ (hsize ▸ hid), if_pos rfl]
    have hpass := hlt p
    rw [valueAt_settle h hsize hid, if_neg hne, if_pos hp, Nat.add_zero] at hpass
    obtain ⟨sums', hsums', hmap'⟩ := addWord?_eq hmap hpl (sums[id]?.getD 0) (by
      rw [word_toNat hmap, hself', valueAt_modify values id p _ (hsize ▸ hid), if_neg hne.symm]
      exact hpass)
    refine ⟨sums', by simp [settleWords?, hsums, hp, hsums'], ?_⟩
    rw [hmap', word_toNat hmap]
    simp [settle, hp]

/-- No sum on the way is too large for a word if none of the last ones is. -/
theorem foldrM_settleWords? (h : Shaped t) (hids : ∀ id ∈ ids, id < t.size)
    (hlt : ∀ x, valueAt (settled t ids) x < UInt64.size) :
    ∃ words, ids.foldrM (fun id words => settleWords? t words id) (Array.replicate t.size 0) =
        some words ∧
      words.map UInt64.toNat = settled t ids := by
  induction ids with
  | nil => exact ⟨_, rfl, by simp [settled]⟩
  | cons id ids ih =>
    obtain ⟨hid, hrest⟩ := List.forall_mem_cons.1 hids
    obtain ⟨words, hwords, hmap⟩ := ih hrest fun x =>
      Nat.lt_of_le_of_lt (settled_grows h hid ids x) (hlt x)
    obtain ⟨sums, hsums, hmap'⟩ := settleWords?_eq h hmap (settled_size t ids) hid hlt
    refine ⟨sums, ?_, hmap'⟩
    rw [List.foldrM_cons, hwords]
    exact hsums

structure Settled (t : Hierarchy UInt32) (v : Packing) : Prop where
  tree : v.tree = t
  children_sum : ∀ x, Climbs t.parent? x t.root →
    v.value x = ownWeight t x + ((t.children x).map v.value).sum
  within_sum : ∀ x, Climbs t.parent? x t.root →
    v.value x = ((t.within x).map (ownWeight t)).sum
  unreached : ∀ x, ¬ Climbs t.parent? x t.root → v.value x = 0
  words : ∃ words, t.descendants.reverse.foldlM (settleWords? t) (Array.replicate t.size 0) =
      some words ∧
    words.map UInt64.toNat = v.values
  children : ∀ x, StablySorted (fun a b => v.value b ≤ v.value a) (t.children x) (v.children x)

theorem words_run (h : Made t) (hsize : t.size ≤ UInt32.size) :
    ∃ words, t.descendants.reverse.foldlM (settleWords? t) (Array.replicate t.size 0) =
        some words ∧
      words.map UInt64.toNat = (ofHierarchy t).values := by
  have hs := h.shaped
  rw [List.foldlM_reverse, values_eq]
  refine foldrM_settleWords? hs (descending_descendants hs).lt ?_
  intro x
  rw [← value_eq]
  exact value_lt hs h.root_top hsize x

/-- In every hierarchy that a build returns, the value of an entry is the
weight of all that has it on the way up, and words hold it. -/
theorem ofHierarchy_settled (t : Hierarchy UInt32) (h : Made t) (hsize : t.size ≤ UInt32.size) :
    Settled t (ofHierarchy t) where
  tree := rfl
  children_sum _ hx := value_eq_children h.shaped hx
  within_sum _ hx := value_eq_within h.shaped hx
  unreached _ hx := value_unreached h.shaped h.root_top hx
  words := words_run h hsize
  children x := t.sortedChildren_stable
    (by simp only [decide_eq_true_eq]; omega)
    (by simp only [Bool.or_eq_true, decide_eq_true_eq]; omega) x

def laden : List (Record UInt32) :=
  [⟨"r::a::b", 4294967295⟩, ⟨"r:::x", 3⟩, ⟨"r::a", 4294967295⟩, ⟨"r", 5⟩, ⟨"r::c::d", 2⟩,
    ⟨"r::e", 3⟩]

theorem laden_settled : ∃ t, ofRecords laden "::" = .ok t ∧ Made t ∧ t.size ≤ UInt32.size ∧
    Settled t (ofHierarchy t) := by
  obtain ⟨t, ht⟩ := accepted_of_isSome laden "::" (by decide +kernel)
  have hsize : (ofRecords laden "::").toOption.all (fun u => u.size ≤ UInt32.size) = true := by
    decide +kernel
  rw [ht] at hsize
  have hle : t.size ≤ UInt32.size := of_decide_eq_true hsize
  exact ⟨t, ht, .strict ht, hle, ofHierarchy_settled t (.strict ht) hle⟩

end UseGraph.Packing
