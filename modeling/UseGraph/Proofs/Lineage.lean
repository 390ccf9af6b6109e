import UseGraph.Path
import UseGraph.Proofs.Climb
import UseGraph.Proofs.Occurrence

/-!
# The line of parents of a name

Cutting a name at the last delimiter again and again gives its parents, each
shorter than the one before. The first segment holds no delimiter and has no
parent. When the delimiter has no border, the names above a name are exactly
the parts that stand before a delimiter in it, so every line ends at the first
segment; for other delimiters it may end elsewhere.
-/

set_option autoImplicit false

namespace UseGraph.Path

variable {d s t p g x y : String}

def lastSplit? (d s : String) : Option (String × String) :=
  (Text.lastCut d.toList s.toList).map fun (a, b) => (String.ofList a, String.ofList b)

abbrev AtOrBelow (d : String) : String → String → Prop := Climbs (parent? d)

theorem toList_ne_nil (hd : d ≠ "") : d.toList ≠ [] := by
  simpa [String.toList_eq_nil_iff] using hd

theorem length_pos (hd : d ≠ "") : 0 < d.length := by
  rw [← String.length_toList]
  exact List.length_pos_iff.2 (toList_ne_nil hd)

theorem lastSplit?_eq_some_iff :
    lastSplit? d s = some (p, g) ↔ parent? d s = some p ∧ segment d s = g := by
  unfold lastSplit? parent? segment
  cases h : Text.lastCut d.toList s.toList with
  | none => simp
  | some c => simp

theorem lastSplit?_eq_none_iff : lastSplit? d s = none ↔ parent? d s = none := by
  simp [lastSplit?, parent?]

theorem eq_of_parent (h : parent? d s = some p) : s = p ++ d ++ segment d s := by
  obtain ⟨⟨a, b⟩, hc, rfl⟩ := Option.map_eq_some_iff.1 h
  have hg : segment d s = String.ofList b := by simp [segment, hc]
  apply String.toList_injective
  rw [hg]
  simpa using Text.eq_append_of_lastCut hc

theorem segment_of_top (h : parent? d s = none) : segment d s = s := by
  have hc : Text.lastCut d.toList s.toList = none := by simpa [parent?] using h
  simp [segment, hc]

theorem parent?_eq_none_iff : parent? d s = none ↔ ∀ x y, s ≠ x ++ d ++ y := by
  rw [parent?, Option.map_eq_none_iff, Text.lastCut_eq_none_iff]
  constructor
  · intro h x y hs
    exact h x.toList y.toList (by simp [hs])
  · intro h a b hs
    apply h (String.ofList a) (String.ofList b)
    apply String.toList_injective
    simp [hs]

theorem parent?_length (hd : d ≠ "") (s p : String) (h : parent? d s = some p) :
    p.length < s.length := by
  have hs := congrArg String.length (eq_of_parent h)
  have hl := length_pos hd
  simp only [String.length_append] at hs
  omega

/-- From a name without a parent, and from every parent to the name below it. -/
theorem parent_induction (hd : d ≠ "") {motive : String → Prop}
    (top : ∀ s, parent? d s = none → motive s)
    (below : ∀ s p, parent? d s = some p → motive p → motive s) (s : String) : motive s := by
  induction hn : s.length using Nat.strongRecOn generalizing s with
  | ind n ih =>
    cases h : parent? d s with
    | none => exact top s h
    | some p => exact below s p h (ih _ (hn ▸ parent?_length hd s p h) p rfl)

/-- No other cut leaves more before it. -/
theorem le_of_parent (h : parent? d s = some p) (hs : s = x ++ d ++ y) :
    x.length ≤ p.length := by
  obtain ⟨⟨a, b⟩, hc, rfl⟩ := Option.map_eq_some_iff.1 h
  have hl := Text.lastCut_le hc (p := x.toList) (q := y.toList) (by simp [hs])
  simpa [String.length_toList] using hl

theorem lineage_eq_cons (d s : List Char) :
    Text.lineage d s = s :: (Text.lineage d s).drop 1 := by
  rw [Text.lineage]
  split
  · rfl
  · split <;> rfl

theorem ancestors_of_top (h : parent? d s = none) : ancestors d s = [] := by
  have hc : Text.lastCut d.toList s.toList = none := by simpa [parent?] using h
  simp [ancestors, Text.lineage_of_lastCut_eq_none hc]

theorem ancestors_of_parent (hd : d ≠ "") (h : parent? d s = some p) :
    ancestors d s = p :: ancestors d p := by
  obtain ⟨⟨a, b⟩, hc, rfl⟩ := Option.map_eq_some_iff.1 h
  rw [ancestors, Text.lineage_of_lastCut_eq_some (toList_ne_nil hd) hc]
  rw [List.drop_one, List.tail_cons, lineage_eq_cons]
  simp [ancestors]

theorem lastCut_nil (s : List Char) : Text.lastCut [] s = some (s, []) := by
  induction s with
  | nil => rfl
  | cons c r ih => simp [Text.lastCut, ih]

/-- Without a delimiter a name is its own parent and nothing else is above it. -/
theorem atOrBelow_empty : AtOrBelow "" s t ↔ t = s := by
  have hp : ∀ r, parent? "" r = some r := by simp [parent?, lastCut_nil]
  constructor
  · intro h
    induction h with
    | refl => rfl
    | tail _ hr ih => exact (Option.some.inj ((hp _).symm.trans hr)).symm.trans ih
  · rintro rfl
    exact Climbs.refl t

theorem mem_ancestors_iff (d s t : String) : t ∈ s :: ancestors d s ↔ AtOrBelow d s t := by
  by_cases hd : d = ""
  · have hl : Text.lineage [] s.toList = [s.toList] := by
      rw [Text.lineage]
      simp [lastCut_nil]
    simp [hd, atOrBelow_empty, ancestors, hl]
  induction s using parent_induction hd with
  | top s h =>
    rw [ancestors_of_top h, List.mem_singleton, eq_comm]
    exact (Climbs.top_iff h).symm
  | below s p h ih =>
    rw [ancestors_of_parent hd h, List.mem_cons, ih, eq_comm]
    exact (Climbs.step_iff h).symm

instance (d s t : String) : Decidable (AtOrBelow d s t) :=
  decidable_of_iff _ (mem_ancestors_iff d s t)

/-- Two names with one parent that are both above a third are the same. -/
theorem sole_child (hd : d ≠ "") (hx : AtOrBelow d s x) (hy : AtOrBelow d s y)
    (hxp : parent? d x = some p) (hyp : parent? d y = some p) : x = y :=
  Climbs.sole (parent?_length hd) hx hy hxp hyp

theorem firstCut_eq_none (h : ∀ x y, s ≠ x ++ d ++ y) :
    Text.firstCut d.toList s.toList = none := by
  rw [Text.firstCut_eq_none_iff]
  intro a b hs
  apply h (String.ofList a) (String.ofList b)
  apply String.toList_injective
  simp [hs]

theorem first_eq_self (h : ∀ x y, s ≠ x ++ d ++ y) : first d s = s := by
  simp [first, firstCut_eq_none h]

theorem belowFirst_eq_self (h : ∀ x y, s ≠ x ++ d ++ y) : belowFirst d s = s := by
  simp [belowFirst, firstCut_eq_none h]

theorem first_delimiterless (hd : d ≠ "") (s x y : String) : first d s ≠ x ++ d ++ y := by
  intro he
  unfold first at he
  cases hc : Text.firstCut d.toList s.toList with
  | none =>
    rw [hc] at he
    exact Text.firstCut_eq_none_iff.1 hc x.toList y.toList (by simp [he])
  | some c =>
    obtain ⟨a, b⟩ := c
    rw [hc] at he
    exact Text.firstCut_delimiterless (toList_ne_nil hd) hc x.toList y.toList
      (by simpa using congrArg String.toList he)

theorem first_top (hd : d ≠ "") (s : String) : parent? d (first d s) = none :=
  parent?_eq_none_iff.2 (first_delimiterless hd s)

theorem atOrBelow_cases (h : AtOrBelow d s t) : s = t ∨ ∃ x, s = t ++ d ++ x := by
  induction h using Relation.ReflTransGen.head_induction_on with
  | refl => exact Or.inl rfl
  | @head r q hp _ ih =>
    have hs := eq_of_parent hp
    rcases ih with rfl | ⟨x, rfl⟩
    · exact Or.inr ⟨segment d r, hs⟩
    · exact Or.inr ⟨x ++ d ++ segment d r, by simpa [String.append_assoc] using hs⟩

theorem wellFormed_iff (d s : String) : wellFormed d s = true ↔ "" ∉ segments d s := by
  simp only [wellFormed, segments, List.all_eq_true, List.mem_map, not_exists, not_and]
  refine forall₂_congr fun a _ => ?_
  simp

section Unbordered

variable (hd : d ≠ "") (hu : Text.Unbordered d.toList)
include hu

theorem apart (h : x ++ d ++ y = p ++ d ++ g) (hl : x.length < p.length) :
    ∃ m, p = x ++ d ++ m := by
  obtain ⟨m, hm, -⟩ := hu.apart (a := x.toList) (b := y.toList) (q := g.toList)
    (by simpa using congrArg String.toList h)
    (by simpa [String.length_toList] using hl)
  exact ⟨String.ofList m, String.toList_injective (by simpa using hm)⟩

include hd

/-- Without overlaps the last cut passes over no other place to cut. -/
theorem atOrBelow_append (x y : String) : AtOrBelow d (x ++ d ++ y) x := by
  generalize hs : x ++ d ++ y = s
  induction s using parent_induction hd generalizing y with
  | top s h => exact absurd hs.symm (parent?_eq_none_iff.1 h x y)
  | below s p h ih =>
    have hp := hs.trans (eq_of_parent h)
    rcases Nat.lt_or_eq_of_le (le_of_parent h hs.symm) with hl | hl
    · obtain ⟨m, rfl⟩ := apart hu hp hl
      exact Climbs.head h (ih m rfl)
    · have hx : x = p := by
        apply String.toList_injective
        refine (List.append_inj (by simpa using congrArg String.toList hp) ?_).1
        simpa [String.length_toList] using hl
      exact Climbs.head h (hx ▸ Climbs.refl x)

theorem atOrBelow_iff : AtOrBelow d s t ↔ s = t ∨ ∃ x, s = t ++ d ++ x := by
  constructor
  · exact atOrBelow_cases
  · rintro (rfl | ⟨x, rfl⟩)
    · exact Climbs.refl s
    · exact atOrBelow_append hd hu t x

theorem atOrBelow_first (s : String) : AtOrBelow d s (first d s) := by
  rw [atOrBelow_iff hd hu]
  cases hc : Text.firstCut d.toList s.toList with
  | none => exact Or.inl (by simp [first, hc])
  | some c =>
    obtain ⟨a, b⟩ := c
    refine Or.inr ⟨String.ofList b, String.toList_injective ?_⟩
    simpa [first, hc] using Text.eq_append_of_firstCut hc

omit hd in
theorem first_append (hp : ∀ x y, p ≠ x ++ d ++ y) (s : String) : first d (p ++ d ++ s) = p := by
  have hc := hu.firstCut_append (a := p.toList) (b := s.toList)
    (fun a b ha => hp (String.ofList a) (String.ofList b)
      (String.toList_injective (by simpa using ha)))
  simp only [first, String.toList_append, hc, String.ofList_toList]

theorem empty_not_mem_append (hp : ∀ x y, p ≠ x ++ d ++ y) (s : String) :
    "" ∉ segments d (p ++ d ++ s) ↔ p ≠ "" ∧ "" ∉ segments d s := by
  have hc := hu.segments_append (toList_ne_nil hd) (a := p.toList) (b := s.toList)
    (fun a b ha => hp (String.ofList a) (String.ofList b)
      (String.toList_injective (by simpa using ha)))
  rw [segments, String.toList_append, String.toList_append, hc, List.map_cons,
    String.ofList_toList, List.mem_cons, not_or, segments, ne_comm]

end Unbordered

end UseGraph.Path
