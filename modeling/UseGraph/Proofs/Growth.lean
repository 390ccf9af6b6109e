import UseGraph.Proofs.Lineage

/-!
# The order in which names come up

A record brings its own name and those of its parents that are not there yet,
the outermost first. What a list of records brings is closed under taking
parents, every parent stands before its children, and how many records have
been read when a name appears is the position of the first record at or below
it.
-/

set_option autoImplicit false

namespace UseGraph.Growth

open UseGraph.Path

variable {d s t p : String} {ns chain names : List String}

def reach (ns : List String) : List String → List String
  | [] => ns
  | s :: up => if s ∈ ns then ns else reach ns up ++ [s]

def grow (d : String) (ns : List String) (s : String) : List String :=
  reach ns (s :: ancestors d s)

def growth (d : String) (names : List String) : List String := names.foldl (grow d) []

def Rises (d : String) : List String → Prop
  | [] => True
  | s :: up => parent? d s = up.head? ∧ Rises d up

structure Laid (d : String) (ns : List String) : Prop where
  nodup : ns.Nodup
  parent : ∀ (i : Nat) (s p : String), ns[i]? = some s → parent? d s = some p →
    ∃ k < i, ns[k]? = some p

theorem rises_ancestors (hd : d ≠ "") (s : String) : Rises d (s :: ancestors d s) := by
  induction s using parent_induction hd with
  | top s h => simp [Rises, ancestors_of_top h, h]
  | below s p h ih =>
    rw [ancestors_of_parent hd h]
    exact ⟨h, ih⟩

theorem laid_nil (d : String) : Laid d [] := ⟨List.nodup_nil, by simp⟩

theorem laid_append (h : Laid d ns) (hs : s ∉ ns) (hp : ∀ p, parent? d s = some p → p ∈ ns) :
    Laid d (ns ++ [s]) := by
  constructor
  · rw [List.nodup_append]
    refine ⟨h.nodup, by simp, ?_⟩
    intro a ha b hb
    rw [List.mem_singleton] at hb
    rintro rfl
    exact hs (hb ▸ ha)
  · intro i t p hi ht
    rcases Nat.lt_or_ge i ns.length with hl | hl
    · rw [List.getElem?_append_left hl] at hi
      obtain ⟨k, hk, hkp⟩ := h.parent i t p hi ht
      exact ⟨k, hk, by rw [List.getElem?_append_left (by omega), hkp]⟩
    · have hst : s = t := by
        have := List.mem_of_getElem? (List.getElem?_append_right hl ▸ hi)
        simpa [eq_comm] using this
      obtain ⟨k, hk⟩ := List.mem_iff_getElem?.1 (hp p (hst ▸ ht))
      have hkl : k < ns.length := (List.getElem?_eq_some_iff.1 hk).1
      exact ⟨k, by omega, by rw [List.getElem?_append_left hkl, hk]⟩

theorem Laid.place_unique (h : Laid d ns) {i j : Nat} (hi : ns[i]? = some s)
    (hj : ns[j]? = some s) : i = j :=
  (List.getElem?_inj (List.getElem?_eq_some_iff.1 hi).1 h.nodup).1 (hi.trans hj.symm)

theorem Laid.closed (h : Laid d ns) (hs : s ∈ ns) (hp : parent? d s = some p) : p ∈ ns := by
  obtain ⟨i, hi⟩ := List.mem_iff_getElem?.1 hs
  obtain ⟨k, -, hk⟩ := h.parent i s p hi hp
  exact List.mem_of_getElem? hk

theorem Laid.closed_above (h : Laid d ns) (hs : s ∈ ns) (ht : AtOrBelow d s t) : t ∈ ns := by
  induction ht with
  | refl => exact hs
  | tail _ hp ih => exact h.closed ih hp

theorem reach_extends (ns chain : List String) : ∃ more, reach ns chain = ns ++ more := by
  induction chain with
  | nil => exact ⟨[], by simp [reach]⟩
  | cons s up ih =>
    obtain ⟨more, hm⟩ := ih
    by_cases hs : s ∈ ns
    · exact ⟨[], by simp [reach, hs]⟩
    · exact ⟨more ++ [s], by simp [reach, hs, hm]⟩

theorem mem_reach_head (ns : List String) (s : String) (up : List String) :
    s ∈ reach ns (s :: up) := by
  by_cases hs : s ∈ ns <;> simp [reach, hs]

theorem reach_new (hs : s ∈ reach ns chain) : s ∈ ns ∨ s ∈ chain := by
  induction chain with
  | nil => exact Or.inl hs
  | cons t up ih =>
    simp only [reach] at hs
    split at hs
    · exact Or.inl hs
    · rcases List.mem_append.1 hs with hm | hm
      · rcases ih hm with h | h
        · exact Or.inl h
        · exact Or.inr (List.mem_cons_of_mem _ h)
      · exact Or.inr (by simpa using Or.inl (List.mem_singleton.1 hm))

section Delimited

variable (hd : d ≠ "")
include hd

theorem rises_shorter (h : Rises d (s :: chain)) : ∀ t ∈ chain, t.length < s.length := by
  induction chain generalizing s with
  | nil => simp
  | cons p up ih =>
    have hp := parent?_length hd s p h.1
    intro t ht
    rcases List.mem_cons.1 ht with rfl | ht
    · exact hp
    · exact Nat.lt_trans (ih h.2 t ht) hp

/-- A name is not among those that its own parents bring. -/
theorem fresh_reach (hc : Rises d (s :: chain)) (hs : s ∉ ns) : s ∉ reach ns chain := by
  intro hm
  rcases reach_new hm with hn | hn
  · exact hs hn
  · exact Nat.lt_irrefl _ (rises_shorter hd hc s hn)

theorem laid_reach (h : Laid d ns) (hc : Rises d chain) : Laid d (reach ns chain) := by
  induction chain with
  | nil => exact h
  | cons s up ih =>
    by_cases hm : s ∈ ns
    · simpa [reach, hm] using h
    · rw [reach, if_neg hm]
      apply laid_append (ih hc.2) (fresh_reach hd hc hm)
      intro p hp
      cases up with
      | nil => simp [hc.1] at hp
      | cons q up =>
        have hq : p = q := Option.some.inj (hp.symm.trans hc.1)
        rw [hq]
        exact mem_reach_head ns q up

theorem laid_grow (h : Laid d ns) (s : String) : Laid d (grow d ns s) :=
  laid_reach hd h (rises_ancestors hd s)

theorem mem_grow (h : Laid d ns) (s t : String) :
    t ∈ grow d ns s ↔ t ∈ ns ∨ AtOrBelow d s t := by
  constructor
  · intro ht
    rcases reach_new ht with hn | hc
    · exact Or.inl hn
    · exact Or.inr ((mem_ancestors_iff d s t).1 hc)
  · rintro (hn | hc)
    · obtain ⟨more, hm⟩ := reach_extends ns (s :: ancestors d s)
      rw [grow, hm]
      exact List.mem_append_left _ hn
    · exact (laid_grow hd h s).closed_above (mem_reach_head ns s _) hc

theorem laid_foldl (h : Laid d ns) (names : List String) : Laid d (names.foldl (grow d) ns) := by
  induction names generalizing ns with
  | nil => exact h
  | cons s names ih => exact ih (laid_grow hd h s)

theorem mem_foldl (h : Laid d ns) (names : List String) (t : String) :
    t ∈ names.foldl (grow d) ns ↔ t ∈ ns ∨ ∃ s ∈ names, AtOrBelow d s t := by
  induction names generalizing ns with
  | nil => simp
  | cons s names ih =>
    rw [List.foldl_cons, ih (laid_grow hd h s), mem_grow hd h]
    simp [or_assoc]

theorem laid_growth (names : List String) : Laid d (growth d names) :=
  laid_foldl hd (laid_nil d) names

theorem mem_growth (names : List String) (t : String) :
    t ∈ growth d names ↔ ∃ s ∈ names, AtOrBelow d s t := by
  simp [growth, mem_foldl hd (laid_nil d)]

end Delimited

theorem foldl_extends (ns names : List String) :
    ∃ more, names.foldl (grow d) ns = ns ++ more := by
  induction names generalizing ns with
  | nil => exact ⟨[], by simp⟩
  | cons s names ih =>
    obtain ⟨m, hm⟩ := reach_extends ns (s :: ancestors d s)
    obtain ⟨n, hn⟩ := ih (grow d ns s)
    exact ⟨m ++ n, by rw [List.foldl_cons, hn, grow, hm, List.append_assoc]⟩

theorem growth_take (d : String) (names : List String) (k : Nat) :
    ∃ more, growth d names = growth d (names.take k) ++ more := by
  have hf : growth d names = (names.drop k).foldl (grow d) (growth d (names.take k)) := by
    rw [growth, growth, ← List.foldl_append, List.take_append_drop]
  rw [hf]
  exact foldl_extends _ _

def arrival (d : String) (names : List String) (t : String) : Nat :=
  names.findIdx fun s => AtOrBelow d s t

section Arrival

variable (hd : d ≠ "")
include hd

theorem arrival_lt_iff (names : List String) (t : String) (k : Nat) (hk : k ≤ names.length) :
    arrival d names t < k ↔ t ∈ growth d (names.take k) := by
  rw [mem_growth hd]
  constructor
  · intro hlt
    have hl : arrival d names t < names.length := Nat.lt_of_lt_of_le hlt hk
    refine ⟨names[arrival d names t], List.mem_take_iff_getElem.2 ⟨_, by omega, rfl⟩, ?_⟩
    exact of_decide_eq_true (List.findIdx_getElem (w := hl))
  · rintro ⟨s, hs, hst⟩
    obtain ⟨i, hi, rfl⟩ := List.mem_take_iff_getElem.1 hs
    have hle : arrival d names t ≤ i := by
      apply Nat.le_of_not_lt
      intro hlt
      exact of_decide_eq_false (List.not_of_lt_findIdx hlt) hst
    omega

theorem arrival_lt (names : List String) (ht : t ∈ growth d names) :
    arrival d names t < names.length := by
  rw [arrival_lt_iff hd names t _ (Nat.le_refl _), List.take_length]
  exact ht

theorem atOrBelow_arrival (names : List String) (ht : t ∈ growth d names) :
    ∃ s, names[arrival d names t]? = some s ∧ AtOrBelow d s t := by
  have hl := arrival_lt hd names ht
  refine ⟨names[arrival d names t], List.getElem?_eq_getElem hl, ?_⟩
  exact of_decide_eq_true (List.findIdx_getElem (w := hl))

/-- Names come up in the order of their first records. -/
theorem arrival_le (names : List String) (i j : Nat) (hij : i ≤ j)
    (hs : (growth d names)[i]? = some s) (ht : (growth d names)[j]? = some t) :
    arrival d names s ≤ arrival d names t := by
  have hl := arrival_lt hd names (List.mem_of_getElem? ht)
  have hmem := (arrival_lt_iff hd names t _ hl).1 (Nat.lt_succ_self _)
  obtain ⟨more, hm⟩ := growth_take d names (arrival d names t + 1)
  obtain ⟨k, hk⟩ := List.mem_iff_getElem?.1 hmem
  have hkl := (List.getElem?_eq_some_iff.1 hk).1
  have hkj : k = j := by
    refine (laid_growth hd names).place_unique (s := t) ?_ ht
    rw [hm, List.getElem?_append_left hkl, hk]
  rw [hm, List.getElem?_append_left (Nat.lt_of_le_of_lt hij (hkj ▸ hkl))] at hs
  exact Nat.le_of_lt_succ ((arrival_lt_iff hd names s _ hl).2 (List.mem_of_getElem? hs))

/-- Siblings have different first records. -/
theorem arrival_lt_of_siblings (names : List String) (i j : Nat) (hij : i < j)
    (hs : (growth d names)[i]? = some s) (ht : (growth d names)[j]? = some t)
    (hsp : parent? d s = some p) (htp : parent? d t = some p) :
    arrival d names s < arrival d names t := by
  refine Nat.lt_of_le_of_ne (arrival_le hd names i j (Nat.le_of_lt hij) hs ht) ?_
  intro he
  obtain ⟨a, ha, has⟩ := atOrBelow_arrival hd names (List.mem_of_getElem? hs)
  obtain ⟨b, hb, hbt⟩ := atOrBelow_arrival hd names (List.mem_of_getElem? ht)
  rw [he, hb] at ha
  cases ha
  have hst := sole_child hd has hbt hsp htp
  have hji := (laid_growth hd names).place_unique hs (hst ▸ ht)
  omega

end Arrival

end UseGraph.Growth
