import Mathlib.Data.Prod.Lex
import Mathlib.Data.String.Basic
import UseGraph.Proofs.Incidence
import UseGraph.Proofs.Octets
import UseGraph.Proofs.Orders

/-!
# Rows in order

Every sort order compares rows by one key that is linearly ordered, so it ties
only rows with the same key, and those stay as they came. A frequency enters
its key as a word of sixty-four bits. All orders are stated for any words the
rows may have, so no one pattern for invalid results is relied on. The key of a
row is read off its node and the links that name it, and when no two nodes
share an id the order of the nodes does not matter.
-/

set_option autoImplicit false

namespace UseGraph

namespace Decimal.Binary64

def signed (b : UInt64) : Bool := 0x8000000000000000 ≤ b

/-- The total order of IEEE 754 on bits: signs first, then magnitudes, those of
negative numbers the other way round. -/
def TotalLt (a b : UInt64) : Prop :=
  match signed a, signed b with
  | true, false => True
  | false, true => False
  | false, false => a < b
  | true, true => b < a

def place (b : UInt64) : Nat :=
  if Nat.pow 2 63 ≤ b.toNat then Nat.pow 2 64 - 1 - b.toNat else Nat.pow 2 63 + b.toNat

theorem rank_eq (x : Float) : rank x = place (bits x) := rfl

theorem bits_eq_toBits {x : Float} (h : x.isNaN = false) : bits x = x.toBits := by
  rw [bits, h]
  rfl

variable {a b : UInt64}

theorem place_of_signed (h : signed b = true) :
    9223372036854775808 ≤ b.toNat ∧ place b = 18446744073709551615 - b.toNat := by
  have hb : 9223372036854775808 ≤ b.toNat := of_decide_eq_true h
  exact ⟨hb, if_pos hb⟩

theorem place_of_unsigned (h : signed b = false) :
    b.toNat < 9223372036854775808 ∧ place b = 9223372036854775808 + b.toNat := by
  have hb : ¬ 9223372036854775808 ≤ b.toNat := of_decide_eq_false h
  exact ⟨Nat.lt_of_not_le hb, if_neg hb⟩

theorem place_cases (b : UInt64) :
    9223372036854775808 ≤ b.toNat ∧ place b = 18446744073709551615 - b.toNat ∨
      b.toNat < 9223372036854775808 ∧ place b = 9223372036854775808 + b.toNat := by
  cases h : signed b with
  | true => exact Or.inl (place_of_signed h)
  | false => exact Or.inr (place_of_unsigned h)

theorem place_le (b : UInt64) : place b ≤ 18446744073709551615 := by
  have hb := place_cases b
  omega

theorem place_inj (a b : UInt64) : place a = place b ↔ a = b := by
  have ha := place_cases a
  have hb := place_cases b
  have hla := a.toNat_lt
  have hlb := b.toNat_lt
  rw [← UInt64.toNat_inj]
  omega

theorem totalLt_iff (a b : UInt64) : TotalLt a b ↔ place a < place b := by
  have ha := a.toNat_lt
  have hb := b.toNat_lt
  unfold TotalLt
  split
  · rename_i hsa hsb
    have hpa := place_of_signed hsa
    have hpb := place_of_unsigned hsb
    simp only [true_iff]
    omega
  · rename_i hsa hsb
    have hpa := place_of_unsigned hsa
    have hpb := place_of_signed hsb
    simp only [false_iff]
    omega
  · rename_i hsa hsb
    rw [(place_of_unsigned hsa).2, (place_of_unsigned hsb).2, UInt64.lt_iff_toNat_lt]
    omega
  · rename_i hsa hsb
    rw [(place_of_signed hsa).2, (place_of_signed hsb).2, UInt64.lt_iff_toNat_lt]
    omega

instance : DecidableRel TotalLt := fun a b =>
  decidable_of_iff (place a < place b) (totalLt_iff a b).symm

/-- An invalid result with the sign, the negative infinity, minus one, the
zeros, one, infinity and an invalid result without the sign. -/
example : [0xfff8000000000000, 0xfff0000000000000, 0xbff0000000000000, 0x8000000000000000, 0,
    0x3ff0000000000000, 0x7ff0000000000000, 0x7ff8000000000000].Pairwise TotalLt := by decide

def falling (b : UInt64) : Nat := 18446744073709551615 - place b

theorem falling_lt_iff (a b : UInt64) : falling a < falling b ↔ TotalLt b a := by
  have ha := place_le a
  have hb := place_le b
  rw [totalLt_iff, falling, falling]
  omega

theorem falling_inj (a b : UInt64) : falling a = falling b ↔ a = b := by
  have ha := place_le a
  have hb := place_le b
  rw [← place_inj, falling, falling]
  omega

end Decimal.Binary64

section Keys

variable {K : Type} [LinearOrder K] {key : Nat → K} {xs ys : List Nat} {i j n : Nat}

theorem pair_sublist_asymm (hn : xs.Nodup) (h : [i, j].Sublist xs) : ¬ [j, i].Sublist xs := by
  induction xs with
  | nil => cases h
  | cons x xs ih =>
    have hx := List.nodup_cons.1 hn
    intro hback
    cases h with
    | cons _ h =>
      cases hback with
      | cons _ hback => exact ih hx.2 h hback
      | cons_cons _ hback => exact hx.1 (h.subset (by simp))
    | cons_cons _ h =>
      cases hback with
      | cons _ hback => exact hx.1 (hback.subset (by simp))
      | cons_cons _ hback => exact hx.1 (h.subset (by simp))

theorem pair_sublist_range (hij : i < j) (hj : j < n) : [i, j].Sublist (List.range n) := by
  have hi : [i].Sublist (List.range j) := List.singleton_sublist.2 (List.mem_range.2 hij)
  have hpair : [i, j].Sublist (List.range (j + 1)) := by
    rw [List.range_succ]
    exact hi.append_right [j]
  exact hpair.trans (List.range_sublist.2 hj)

def Ranks (key : Nat → K) (i j : Nat) : Prop := key i < key j ∨ key i = key j ∧ i < j

theorem Ranks.asymm (h : Ranks key i j) : ¬ Ranks key j i := by
  intro hback
  cases h with
  | inl hlt =>
    cases hback with
    | inl hgt => exact lt_asymm hlt hgt
    | inr heq => exact hlt.ne heq.1.symm
  | inr heq =>
    cases hback with
    | inl hgt => exact hgt.ne heq.1.symm
    | inr hge => exact Nat.lt_asymm heq.2 hge.2

theorem eq_of_ranks (hp : xs.Perm ys) (hx : xs.Pairwise (Ranks key))
    (hy : ys.Pairwise (Ranks key)) : xs = ys :=
  hp.eq_of_pairwise (fun _ _ _ _ h hback => absurd hback h.asymm) hx hy

/-- Of two with the same key, the one that was behind is not put in front. -/
theorem lt_of_tied (heq : key i = key j)
    (h : [i, j].Sublist ((List.range n).mergeSort fun i j => decide (key i ≤ key j))) :
    i < j := by
  have hp := List.mergeSort_perm (List.range n) fun i j => decide (key i ≤ key j)
  have hnodup := hp.nodup_iff.2 List.nodup_range
  have hi : i < n := List.mem_range.1 (hp.subset (h.subset (by simp)))
  rcases Nat.lt_trichotomy i j with hlt | hself | hgt
  · exact hlt
  · rw [hself] at h
    exact absurd h (pair_sublist_asymm hnodup h)
  · have hle : ∀ i j, decide (key i ≤ key j) = true ↔ key i ≤ key j := by simp
    have hback := List.pair_sublist_mergeSort (keyLe_trans hle) (keyLe_total hle)
      (decide_eq_true heq.ge) (pair_sublist_range hgt hi)
    exact absurd hback (pair_sublist_asymm hnodup h)

theorem ranks_mergeSort (key : Nat → K) (n : Nat) :
    ((List.range n).mergeSort fun i j => decide (key i ≤ key j)).Pairwise (Ranks key) := by
  have hle : ∀ i j, decide (key i ≤ key j) = true ↔ key i ≤ key j := by simp
  have hsorted := List.pairwise_mergeSort (keyLe_trans hle) (keyLe_total hle) (List.range n)
  rw [List.pairwise_iff_forall_sublist] at hsorted ⊢
  intro i j hij
  cases (of_decide_eq_true (hsorted hij)).lt_or_eq with
  | inl hlt => exact Or.inl hlt
  | inr heq => exact Or.inr ⟨heq, lt_of_tied heq hij⟩

end Keys

namespace Listing

open Decimal.Binary64 Text

variable {v : Listing} {d : Document} {word : Nat → UInt64} {o : SortOrder}
  {id s : String} {i j : Nat}

def words (v : Listing) (i : Nat) : UInt64 := bits (v.frequency i)

def beforeBy (v : Listing) (word : Nat → UInt64) : SortOrder → Nat → Nat → Bool
  | .frequency, i, j =>
    let a := place (word i)
    let b := place (word j)
    b < a || a == b && v.idLe i j
  | o, i, j => v.before o i j

def orderBy (v : Listing) (word : Nat → UInt64) (o : SortOrder) : List Nat :=
  (List.range v.rows.size).mergeSort (v.beforeBy word o)

theorem beforeBy_words (v : Listing) (o : SortOrder) : v.beforeBy v.words o = v.before o := by
  cases o with
  | name => rfl
  | group => rfl
  | frequency =>
    funext i j
    rw [before, rank_eq, rank_eq]
    rfl

theorem orderBy_words (v : Listing) (o : SortOrder) : v.orderBy v.words o = v.order o := by
  rw [orderBy, beforeBy_words, order]

def Ahead (v : Listing) (word : Nat → UInt64) : SortOrder → Nat → Nat → Prop
  | .name, i, j => octets (v.idAt i) < octets (v.idAt j)
  | .group, i, j => v.groupAt i < v.groupAt j ∨
    v.groupAt i = v.groupAt j ∧ octets (v.idAt i) < octets (v.idAt j)
  | .frequency, i, j => TotalLt (word j) (word i) ∨
    word i = word j ∧ octets (v.idAt i) < octets (v.idAt j)

def Level (v : Listing) (word : Nat → UInt64) : SortOrder → Nat → Nat → Prop
  | .name, i, j => v.idAt i = v.idAt j
  | .group, i, j => v.groupAt i = v.groupAt j ∧ v.idAt i = v.idAt j
  | .frequency, i, j => word i = word j ∧ v.idAt i = v.idAt j

def weight : SortOrder → UInt32 → UInt64 → Nat
  | .name, _, _ => 0
  | .group, g, _ => g.toNat
  | .frequency, _, b => falling b

def keyAt (v : Listing) (word : Nat → UInt64) (o : SortOrder) (i : Nat) : Nat ×ₗ String :=
  toLex (weight o (v.groupAt i) (word i), v.idAt i)

theorem beforeBy_eq (v : Listing) (word : Nat → UInt64) (o : SortOrder) (i j : Nat) :
    v.beforeBy word o i j = decide (v.keyAt word o i ≤ v.keyAt word o j) := by
  rw [Bool.eq_iff_iff, decide_eq_true_eq, keyAt, keyAt, Prod.Lex.toLex_le_toLex]
  cases o with
  | name => simp [beforeBy, before, idLe, weight]
  | group =>
    simp [beforeBy, before, idLe, weight, UInt32.lt_iff_toNat_lt, UInt32.toNat_inj]
  | frequency =>
    simp [beforeBy, idLe, weight, falling_lt_iff, falling_inj, ← totalLt_iff, place_inj]

theorem ahead_iff (v : Listing) (word : Nat → UInt64) (o : SortOrder) (i j : Nat) :
    Ahead v word o i j ↔ v.keyAt word o i < v.keyAt word o j := by
  rw [keyAt, keyAt, Prod.Lex.toLex_lt_toLex]
  cases o with
  | name => simp [Ahead, weight, octets_lt_iff]
  | group =>
    simp [Ahead, weight, octets_lt_iff, UInt32.lt_iff_toNat_lt, UInt32.toNat_inj]
  | frequency => simp [Ahead, weight, octets_lt_iff, falling_lt_iff, falling_inj]

theorem level_iff (v : Listing) (word : Nat → UInt64) (o : SortOrder) (i j : Nat) :
    Level v word o i j ↔ v.keyAt word o i = v.keyAt word o j := by
  rw [keyAt, keyAt, toLex_inj, Prod.mk.injEq]
  cases o with
  | name => simp [Level, weight]
  | group => simp [Level, weight, UInt32.toNat_inj]
  | frequency => simp [Level, weight, falling_inj]

structure Ranked (v : Listing) (word : Nat → UInt64) (o : SortOrder)
    (le : Nat → Nat → Bool) (rows : List Nat) : Prop where
  total : ∀ i j, le i j = true ∨ le j i = true
  trans : ∀ i j k, le i j = true → le j k = true → le i k = true
  ahead : ∀ i j, Ahead v word o i j ↔ le j i = false
  level : ∀ i j, Level v word o i j ↔ le i j = true ∧ le j i = true
  perm : rows.Perm (List.range v.rows.size)
  sorted : rows.Pairwise fun i j => Ahead v word o i j ∨ Level v word o i j ∧ i < j
  only : ∀ others : List Nat, others.Perm (List.range v.rows.size) →
    (others.Pairwise fun i j => Ahead v word o i j ∨ Level v word o i j ∧ i < j) →
    others = rows

theorem orderBy_eq (v : Listing) (word : Nat → UInt64) (o : SortOrder) :
    v.orderBy word o = (List.range v.rows.size).mergeSort fun i j =>
      decide (v.keyAt word o i ≤ v.keyAt word o j) := by
  unfold orderBy
  congr 1
  funext i j
  exact beforeBy_eq v word o i j

theorem orderBy_ranks (v : Listing) (word : Nat → UInt64) (o : SortOrder) :
    (v.orderBy word o).Pairwise (Ranks (v.keyAt word o)) := by
  rw [orderBy_eq]
  exact ranks_mergeSort _ _

theorem orderBy_ranked (v : Listing) (word : Nat → UInt64) (o : SortOrder) :
    Ranked v word o (v.beforeBy word o) (v.orderBy word o) := by
  have hranks : (fun i j => Ahead v word o i j ∨ Level v word o i j ∧ i < j) =
      Ranks (v.keyAt word o) := by
    funext i j
    rw [ahead_iff, level_iff, Ranks]
  have hperm := List.mergeSort_perm (List.range v.rows.size) (v.beforeBy word o)
  constructor
  · intro i j
    simp only [beforeBy_eq, decide_eq_true_eq]
    exact le_total _ _
  · intro i j k
    simp only [beforeBy_eq, decide_eq_true_eq]
    exact le_trans
  · intro i j
    rw [ahead_iff, beforeBy_eq, decide_eq_false_iff_not, not_le]
  · intro i j
    rw [level_iff, beforeBy_eq, beforeBy_eq, decide_eq_true_eq, decide_eq_true_eq, le_antisymm_iff]
  · exact hperm
  · rw [hranks]
    exact orderBy_ranks v word o
  · intro others hothers hsorted
    rw [hranks] at hsorted
    exact eq_of_ranks (hothers.trans hperm.symm) hsorted (orderBy_ranks v word o)

def nodes (v : Listing) : List Document.Node := v.rows.toList.map fun r => ⟨r.id, r.group⟩

theorem nodes_addLinks (dir : List (String × Nat)) (v : Listing) (ls : List Document.Link) :
    (ls.foldl (addLink dir) v).nodes = v.nodes := by
  induction ls generalizing v with
  | nil => rfl
  | cons l ls ih =>
    rw [List.foldl_cons, ih]
    unfold addLink
    split
    · rw [nodes, addArc, map_modify, map_modify, nodes]
      · intro r
        rfl
      · intro r
        rfl
    · rfl

theorem nodes_ofDocument (d : Document) : (ofDocument d).nodes = d.nodes := by
  rw [ofDocument, nodes_addLinks]
  simp [nodes, Function.comp_def]

def valuesAt (d : Document) (id : String) : List Float :=
  let ids := d.nodes.map Document.Node.id
  (d.links.filter fun l => l.source = id ∧ l.target ∈ ids).map Document.Link.value ++
    (d.links.filter fun l => l.target = id ∧ l.source ∈ ids).map Document.Link.value

def frequencyOf (d : Document) (id : String) : Float := (valuesAt d id).foldl (· + ·) (-0.0)

structure Tabulated (d : Document) (v : Listing) : Prop where
  nodes : v.nodes = d.nodes
  frequency : ∀ i n, d.nodes[i]? = some n → v.frequency i =
    if n.id ∈ (d.nodes.drop (i + 1)).map Document.Node.id then -0.0
    else frequencyOf d n.id

theorem map_places {β : Type} (p : Arc → Bool) (f : Arc → β) (z : β) (arcs : Array Arc) :
    (places p arcs).map (fun k => (arcs[k]?.map f).getD z) = (arcs.toList.filter p).map f := by
  have hread : (List.range arcs.size).map (fun k => arcs[k]?) = arcs.toList.map some := by
    apply List.ext_getElem
    · simp
    · intro k hk hk'
      simp
  have hkept := congrArg (List.filter fun a => (a.map p).getD false) hread
  have hvalues := congrArg (List.map fun a => (a.map f).getD z) hkept
  simpa [List.filter_map, Function.comp_def, places] using hvalues

theorem arc?_eq_some {ids : List String} {l : Document.Link} {a : Arc} (h : arc? ids l = some a) :
    lastIndexOf l.source ids = some a.source ∧ lastIndexOf l.target ids = some a.target ∧
      a.value = l.value := by
  unfold arc? at h
  split at h
  · rename_i hs ht
    cases h
    exact ⟨hs, ht, rfl⟩
  · cases h

theorem mem_of_lastIndexOf {x : String} {xs : List String} (h : lastIndexOf x xs = some i) :
    x ∈ xs := List.mem_of_getElem? (getElem?_of_lastIndexOf h)

/-- The arcs with one end in a row come from the links that name its id there. -/
theorem values_of_end {ids : List String} (hrow : ∀ x, lastIndexOf x ids = some i ↔ x = s)
    (f : Arc → Nat) (near far : Document.Link → String)
    (hsome : ∀ l a, arc? ids l = some a → lastIndexOf (near l) ids = some (f a) ∧ far l ∈ ids)
    (hnone : ∀ l, arc? ids l = none → near l ∉ ids ∨ far l ∉ ids) (ls : List Document.Link) :
    ((ls.filterMap (arc? ids)).filter fun a => f a = i).map Arc.value =
      (ls.filter fun l => near l = s ∧ far l ∈ ids).map Document.Link.value := by
  induction ls with
  | nil => rfl
  | cons l ls ih =>
    rw [List.filterMap_cons, List.filter_cons]
    cases ha : arc? ids l with
    | none =>
      have hout : ¬ (near l = s ∧ far l ∈ ids) := by
        intro hl
        have hmem := mem_of_lastIndexOf ((hrow (near l)).2 hl.1)
        cases hnone l ha with
        | inl hno => exact hno hmem
        | inr hno => exact hno hl.2
      simp only [hout, decide_false, Bool.false_eq_true, if_false]
      exact ih
    | some a =>
      obtain ⟨hnear, hfar⟩ := hsome l a ha
      have hvalue := (arc?_eq_some ha).2.2
      have hiff : f a = i ↔ near l = s := by
        rw [← hrow, hnear, Option.some_inj]
      by_cases hs : near l = s
      · simp [hiff, hs, hfar, hvalue, ih]
      · simp [hiff, hs, ih]

theorem lastIndexOf_of_last {ids : List String} (hs : ids[i]? = some s)
    (hlast : s ∉ ids.drop (i + 1)) (x : String) : lastIndexOf x ids = some i ↔ x = s := by
  rw [lastIndexOf_eq_some_iff, hs]
  constructor
  · intro h
    exact (Option.some.inj h.1).symm
  · rintro rfl
    refine ⟨rfl, fun j hj hjs => hlast ?_⟩
    apply List.mem_of_getElem? (i := j - (i + 1))
    rw [List.getElem?_drop]
    convert hjs using 2
    omega

theorem frequency_eq (v : Listing) (i : Nat) : v.frequency i =
    ((v.outgoingAt i).map (fun k => (v.arcs[k]?.map Arc.value).getD (-0.0)) ++
      (v.incomingAt i).map fun k => (v.arcs[k]?.map Arc.value).getD (-0.0)).foldl
        (· + ·) (-0.0) := by
  rw [frequency, ← List.map_append, List.foldl_map]

theorem frequency_last (d : Document) (hs : (d.nodes.map Document.Node.id)[i]? = some s)
    (hlast : s ∉ (d.nodes.map Document.Node.id).drop (i + 1)) :
    (ofDocument d).frequency i = frequencyOf d s := by
  have h := numbered_ofDocument d
  have hrow := lastIndexOf_of_last hs hlast
  rw [frequency_eq, h.outgoing, h.incoming, map_places, map_places, arcs_ofDocument,
    values_of_end hrow Arc.source Document.Link.source Document.Link.target,
    values_of_end hrow Arc.target Document.Link.target Document.Link.source]
  · rfl
  · intro l a ha
    have harc := arc?_eq_some ha
    exact ⟨harc.2.1, mem_of_lastIndexOf harc.1⟩
  · intro l ha
    exact (arc?_eq_none _ l ha).symm
  · intro l a ha
    have harc := arc?_eq_some ha
    exact ⟨harc.1, mem_of_lastIndexOf harc.2.1⟩
  · intro l ha
    exact arc?_eq_none _ l ha

theorem frequency_shadowed (d : Document) (hs : (d.nodes.map Document.Node.id)[i]? = some s)
    (hlater : s ∈ (d.nodes.map Document.Node.id).drop (i + 1)) :
    (ofDocument d).frequency i = -0.0 := by
  obtain ⟨k, hk⟩ := List.mem_iff_getElem?.1 hlater
  rw [List.getElem?_drop, ← ids_ofDocument] at hk
  rw [← ids_ofDocument] at hs
  obtain ⟨hout, hin⟩ := shadowed_of_numbered (numbered_ofDocument d)
    (fun a ha => positions_of_arc d ha) (show i < i + 1 + k by omega) hs hk
  rw [frequency, hout, hin]
  rfl

theorem tabulated (d : Document) : Tabulated d (ofDocument d) where
  nodes := nodes_ofDocument d
  frequency i n hn := by
    have hs : (d.nodes.map Document.Node.id)[i]? = some n.id := by simp [hn]
    rw [List.map_drop]
    by_cases hlater : n.id ∈ (d.nodes.map Document.Node.id).drop (i + 1)
    · rw [if_pos hlater, frequency_shadowed d hs hlater]
    · rw [if_neg hlater, frequency_last d hs hlater]

theorem getElem?_nodes (v : Listing) (i : Nat) :
    v.nodes[i]? = v.rows[i]?.map fun r => ⟨r.id, r.group⟩ := by
  simp [nodes]

def nodeKey (o : SortOrder) (b : UInt64) (n : Document.Node) : Nat ×ₗ String :=
  toLex (weight o n.group b, n.id)

def Agree (d u : Document) (word other : Nat → UInt64) : Prop :=
  ∀ i j n, d.nodes[i]? = some n → u.nodes[j]? = some n → word i = other j

theorem keyAt_of_node {n : Document.Node} (hn : d.nodes[i]? = some n) :
    (ofDocument d).keyAt word o i = nodeKey o (word i) n := by
  have hrow : (ofDocument d).rows[i]?.map (fun r => Document.Node.mk r.id r.group) = some n := by
    rw [← getElem?_nodes, nodes_ofDocument, hn]
  obtain ⟨r, hr, rfl⟩ := Option.map_eq_some_iff.1 hrow
  rw [keyAt, nodeKey, idAt, groupAt, hr]
  rfl

theorem keys_of_nodes {wordOf : Document.Node → UInt64}
    (hword : ∀ i n, d.nodes[i]? = some n → word i = wordOf n) (o : SortOrder) :
    (List.range (ofDocument d).rows.size).map ((ofDocument d).keyAt word o) =
      d.nodes.map fun n => nodeKey o (wordOf n) n := by
  have hsize : (ofDocument d).rows.size = d.nodes.length := by
    rw [← nodes_ofDocument]
    simp [nodes]
  apply List.ext_getElem
  · simp [hsize]
  · intro i hi hi'
    have hlt : i < d.nodes.length := by simpa using hi'
    have hn : d.nodes[i]? = some d.nodes[i] := List.getElem?_eq_getElem hlt
    rw [List.getElem_map, List.getElem_map, List.getElem_range, keyAt_of_node hn, hword i _ hn]

/-- Distinct ids give every node a word of its own. -/
theorem exists_wordOf (hd : (d.nodes.map Document.Node.id).Nodup) (word : Nat → UInt64) :
    ∃ wordOf : Document.Node → UInt64, ∀ i n, d.nodes[i]? = some n → word i = wordOf n := by
  refine ⟨fun n => word ((d.nodes.map Document.Node.id).idxOf n.id), fun i n hn => ?_⟩
  obtain ⟨hlt, hid⟩ := List.getElem?_eq_some_iff.1
    (show (d.nodes.map Document.Node.id)[i]? = some n.id by simp [hn])
  show word i = word ((d.nodes.map Document.Node.id).idxOf n.id)
  rw [← hid, hd.idxOf_getElem]

theorem frequency_of_distinct (hd : (d.nodes.map Document.Node.id).Nodup) {n : Document.Node}
    (hn : d.nodes[i]? = some n) : (ofDocument d).frequency i = frequencyOf d n.id := by
  have hlast : n.id ∉ (d.nodes.drop (i + 1)).map Document.Node.id := by
    obtain ⟨hlt, he⟩ := List.getElem?_eq_some_iff.1 hn
    have hdrop := hd.sublist ((List.drop_sublist i d.nodes).map Document.Node.id)
    rw [List.drop_eq_getElem_cons hlt, he, List.map_cons] at hdrop
    exact (List.nodup_cons.1 hdrop).1
  rw [(tabulated d).frequency i n hn, if_neg hlast]

/-- A listed id is listed in any order of the nodes, so no frequency changes. -/
theorem agree_words {u : Document} (hp : d.nodes.Perm u.nodes) (hl : u.links = d.links)
    (hd : (d.nodes.map Document.Node.id).Nodup) :
    Agree d u (ofDocument d).words (ofDocument u).words := by
  have hu : (u.nodes.map Document.Node.id).Nodup := (hp.map Document.Node.id).nodup_iff.1 hd
  have hsame : frequencyOf d = frequencyOf u := by
    funext id
    simp only [frequencyOf, valuesAt, hl, (hp.map Document.Node.id).mem_iff]
  intro i j n hi hj
  rw [words, words, frequency_of_distinct hd hi, frequency_of_distinct hu hj, hsame]

theorem keys_perm (v : Listing) (word : Nat → UInt64) (o : SortOrder) :
    ((v.orderBy word o).map (v.keyAt word o)).Perm
      ((List.range v.rows.size).map (v.keyAt word o)) :=
  (List.mergeSort_perm _ _).map _

theorem keys_sorted (v : Listing) (word : Nat → UInt64) (o : SortOrder) :
    ((v.orderBy word o).map (v.keyAt word o)).Pairwise (· ≤ ·) := by
  rw [List.pairwise_map]
  apply (orderBy_ranks v word o).imp
  intro i j h
  cases h with
  | inl hlt => exact hlt.le
  | inr heq => exact heq.1.le

def orderedIdsBy (v : Listing) (word : Nat → UInt64) (o : SortOrder) : List String :=
  (v.orderBy word o).map v.idAt

theorem orderedIdsBy_words (v : Listing) (o : SortOrder) :
    v.orderedIdsBy v.words o = v.orderedIds o := by
  rw [orderedIdsBy, orderBy_words, orderedIds]

theorem orderedIdsBy_eq (v : Listing) (word : Nat → UInt64) (o : SortOrder) :
    v.orderedIdsBy word o =
      ((v.orderBy word o).map (v.keyAt word o)).map fun k => (ofLex k).2 := by
  rw [orderedIdsBy, List.map_map]
  rfl

/-- Ids are read off the keys, and sorted keys are one list whatever rows they came from. -/
theorem orderedIdsBy_perm {u : Document} {other : Nat → UInt64} (hp : d.nodes.Perm u.nodes)
    (hd : (d.nodes.map Document.Node.id).Nodup) (hagree : Agree d u word other) (o : SortOrder) :
    (ofDocument d).orderedIdsBy word o = (ofDocument u).orderedIdsBy other o := by
  obtain ⟨wordOf, hword⟩ := exists_wordOf hd word
  have hother : ∀ j n, u.nodes[j]? = some n → other j = wordOf n := by
    intro j n hj
    obtain ⟨i, hi⟩ := List.mem_iff_getElem?.1 (hp.mem_iff.2 (List.mem_of_getElem? hj))
    rw [← hagree i j n hi hj, hword i n hi]
  have hkeys := hp.map fun n => nodeKey o (wordOf n) n
  rw [← keys_of_nodes hword o, ← keys_of_nodes hother o] at hkeys
  have hboth := (keys_perm _ word o).trans (hkeys.trans (keys_perm _ other o).symm)
  have hsame := hboth.eq_of_pairwise (fun _ _ _ _ => le_antisymm) (keys_sorted _ word o)
    (keys_sorted _ other o)
  rw [orderedIdsBy_eq, orderedIdsBy_eq, hsame]

/-- Each order lists all rows by its key, and rows with one key as they came, whatever words
stand for frequencies that are no numbers. The nodes of a document may change places when their
ids are distinct. -/
theorem ofDocument_ranked :
    (∀ x : Float, x.isNaN = false → bits x = x.toBits) ∧
    (∀ d o, Tabulated d (ofDocument d) ∧
      Ranked (ofDocument d) (ofDocument d).words o ((ofDocument d).before o)
        ((ofDocument d).order o) ∧
      ∀ word, Ranked (ofDocument d) word o ((ofDocument d).beforeBy word o)
        ((ofDocument d).orderBy word o)) ∧
    ∀ d u : Document, d.nodes.Perm u.nodes → u.links = d.links →
      (d.nodes.map Document.Node.id).Nodup → ∀ o,
        (ofDocument d).orderedIds o = (ofDocument u).orderedIds o ∧
        ∀ word other, Agree d u word other →
          (ofDocument d).orderedIdsBy word o = (ofDocument u).orderedIdsBy other o := by
  refine ⟨fun x => bits_eq_toBits, ?_, ?_⟩
  · intro d o
    have hranked := fun word => orderBy_ranked (ofDocument d) word o
    have hrun := hranked (ofDocument d).words
    rw [beforeBy_words, orderBy_words] at hrun
    exact ⟨tabulated d, hrun, hranked⟩
  · intro d u hp hl hd o
    have hsame : ∀ word other, Agree d u word other →
        (ofDocument d).orderedIdsBy word o = (ofDocument u).orderedIdsBy other o :=
      fun _ _ hagree => orderedIdsBy_perm hp hd hagree o
    have hrun := hsame _ _ (agree_words hp hl hd)
    rw [orderedIdsBy_words, orderedIdsBy_words] at hrun
    exact ⟨hrun, hsame⟩

def entangled : Document :=
  ⟨[⟨"b", 2⟩, ⟨"a", 1⟩, ⟨"c", 1⟩],
    [⟨"a", "b", 1.0⟩, ⟨"c", "c", 3.0⟩, ⟨"a", "gone", 9.0⟩, ⟨"a", "b", 2.0⟩]⟩

theorem entangled_ranked : entangled.nodes.Perm entangled.nodes.reverse ∧
    (entangled.nodes.map Document.Node.id).Nodup ∧ ∀ o, (ofDocument entangled).orderedIds o =
      (ofDocument ⟨entangled.nodes.reverse, entangled.links⟩).orderedIds o := by
  have hp : entangled.nodes.Perm entangled.nodes.reverse := (List.reverse_perm _).symm
  have hd : (entangled.nodes.map Document.Node.id).Nodup := by decide
  exact ⟨hp, hd, fun o => (ofDocument_ranked.2.2 entangled ⟨_, _⟩ hp rfl hd o).1⟩

end Listing

end UseGraph
