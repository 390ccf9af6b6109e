import UseGraph.Proofs.Growth

/-!
# Cutting from either end

Names are checked, and sorted under a root, by cuts from the left; they are put
into the forest by cuts from the right. For a delimiter without a border both
find the same places: a text put before the delimiter keeps its own cuts, so the
last cut adds one segment to those found from the left. For any other delimiter
there is a name where two occurrences overlap at the ends, and the two disagree
there.
-/

set_option autoImplicit false

namespace UseGraph

namespace Text

variable {d s a b x y : List Char}

def heads (d s : List Char) : List (List Char) :=
  match firstCut d s with
  | none => []
  | some (a, b) => if b.length < s.length then a :: (heads d b).map (a ++ d ++ ·) else [a]
termination_by s.length

theorem heads_of_firstCut_eq_none (h : firstCut d s = none) : heads d s = [] := by
  rw [heads]
  simp [h]

theorem heads_of_firstCut_eq_some (hd : d ≠ []) (h : firstCut d s = some (a, b)) :
    heads d s = a :: (heads d b).map (a ++ d ++ ·) := by
  rw [heads]
  simp [h, length_lt_of_firstCut hd h]

/-- From a text without the delimiter, and from what a first cut leaves to the
text that was cut. -/
theorem firstCut_induction (hd : d ≠ []) {motive : List Char → Prop}
    (whole : ∀ s, firstCut d s = none → motive s)
    (cut : ∀ s a b, firstCut d s = some (a, b) → motive b → motive s) (s : List Char) :
    motive s := by
  induction hn : s.length using Nat.strongRecOn generalizing s with
  | ind n ih =>
    cases h : firstCut d s with
    | none => exact whole s h
    | some c =>
      obtain ⟨a, b⟩ := c
      exact cut s a b h (ih _ (hn ▸ length_lt_of_firstCut hd h) b rfl)

theorem firstCut_of_before (h : firstCut d a = some (x, y)) (b : List Char) :
    firstCut d (a ++ d ++ b) = some (x, y ++ d ++ b) := by
  simpa using firstCut_of_longer h (d ++ b)

theorem delimiterless_of_shorter (h : s.length < d.length) (x y : List Char) :
    s ≠ x ++ d ++ y := by
  rintro rfl
  simp only [List.length_append] at h
  omega

namespace Unbordered

/-- What stands before a delimiter is cut as if it stood alone, and so is what
stands behind it. -/
theorem segments_append_segments (hu : Unbordered d) (hd : d ≠ []) (a b : List Char) :
    segments d (a ++ d ++ b) = segments d a ++ segments d b := by
  induction a using firstCut_induction hd with
  | whole a h =>
    rw [hu.segments_append hd (firstCut_eq_none_iff.1 h), segments_of_firstCut_eq_none h,
      List.singleton_append]
  | cut a x y h ih =>
    rw [segments_of_firstCut_eq_some hd (firstCut_of_before h b),
      segments_of_firstCut_eq_some hd h, ih, List.cons_append]

theorem heads_append_heads (hu : Unbordered d) (hd : d ≠ []) (a b : List Char) :
    heads d (a ++ d ++ b) = heads d a ++ a :: (heads d b).map (a ++ d ++ ·) := by
  induction a using firstCut_induction hd with
  | whole a h =>
    rw [heads_of_firstCut_eq_some hd (hu.firstCut_append (firstCut_eq_none_iff.1 h)),
      heads_of_firstCut_eq_none h, List.nil_append]
  | cut a x y h ih =>
    rw [heads_of_firstCut_eq_some hd (firstCut_of_before h b),
      heads_of_firstCut_eq_some hd h, ih]
    simp [eq_append_of_firstCut h]

theorem segments_of_lastCut (hu : Unbordered d) (hd : d ≠ []) (h : lastCut d s = some (a, b)) :
    segments d s = segments d a ++ [b] := by
  rw [eq_append_of_lastCut h, hu.segments_append_segments hd,
    segments_of_firstCut_eq_none (firstCut_behind_lastCut hd h)]

theorem heads_of_lastCut (hu : Unbordered d) (hd : d ≠ []) (h : lastCut d s = some (a, b)) :
    heads d s = heads d a ++ [a] := by
  rw [eq_append_of_lastCut h, hu.heads_append_heads hd,
    heads_of_firstCut_eq_none (firstCut_behind_lastCut hd h), List.map_nil]

end Unbordered

/-- Two occurrences that overlap at the ends of a text: the first cut takes the
one, the last cut the other. -/
theorem cuts_of_border (hx : b ++ x = d) (hy : y ++ b = d) (hb : b ≠ []) :
    segments d (y ++ d) = [[], x] ∧ lastCut d (y ++ d) = some (y, []) ∧ lastCut d y = none := by
  have hpos := List.length_pos_iff.2 hb
  have hxl := congrArg List.length hx
  have hyl := congrArg List.length hy
  simp only [List.length_append] at hxl hyl
  have hd : d ≠ [] := by
    rintro rfl
    exact hb (List.append_eq_nil_iff.1 hx).1
  have hs : y ++ d = d ++ x := by
    rw [← hx, ← List.append_assoc, hy, hx]
  refine ⟨?_, ?_, ?_⟩
  · have hrest : firstCut d x = none :=
      firstCut_eq_none_iff.2 (delimiterless_of_shorter (by omega))
    rw [hs, segments_of_firstCut_eq_some hd (firstCut_delimiter_append d x),
      segments_of_firstCut_eq_none hrest]
  · refine lastCut_eq_some_iff.2 ⟨by simp, ?_⟩
    intro p q hpq
    have hl := congrArg List.length hpq
    simp only [List.length_append] at hl
    omega
  · exact lastCut_eq_none_iff.2 (delimiterless_of_shorter (by omega))

end Text

namespace Path

open Growth

variable {d s p : String}

def heads (d name : String) : List String :=
  (Text.heads d.toList name.toList).map String.ofList

def fallen (d s : String) : List String := (s :: ancestors d s).map (segment d)

theorem fallen_of_top (h : parent? d s = none) : fallen d s = [s] := by
  rw [fallen, ancestors_of_top h, List.map_singleton, segment_of_top h]

theorem fallen_of_parent (hd : d ≠ "") (h : parent? d s = some p) :
    fallen d s = segment d s :: fallen d p := by
  rw [fallen, ancestors_of_parent hd h, List.map_cons, fallen]

theorem segments_of_top (h : parent? d s = none) : segments d s = [s] := by
  simp [segments, Text.segments_of_firstCut_eq_none (firstCut_eq_none (parent?_eq_none_iff.1 h))]

theorem heads_of_top (h : parent? d s = none) : heads d s = [] := by
  simp [heads, Text.heads_of_firstCut_eq_none (firstCut_eq_none (parent?_eq_none_iff.1 h))]

theorem head?_segments (d s : String) : (segments d s).head? = some (first d s) := by
  rw [segments, Text.segments, first]
  cases Text.firstCut d.toList s.toList with
  | none => simp
  | some c =>
    dsimp only
    split <;> simp

section Unbordered

variable (hd : d ≠ "") (hu : Text.Unbordered d.toList)
include hd hu

theorem segments_of_parent (h : parent? d s = some p) :
    segments d s = segments d p ++ [segment d s] := by
  obtain ⟨⟨a, b⟩, hc, rfl⟩ := Option.map_eq_some_iff.1 h
  simp [segments, segment, hc, hu.segments_of_lastCut (toList_ne_nil hd) hc]

theorem heads_of_parent (h : parent? d s = some p) : heads d s = heads d p ++ [p] := by
  obtain ⟨⟨a, b⟩, hc, rfl⟩ := Option.map_eq_some_iff.1 h
  simp [heads, hu.heads_of_lastCut (toList_ne_nil hd) hc]

theorem first_of_parent (h : parent? d s = some p) : first d s = first d p := by
  have hs := head?_segments d s
  rw [segments_of_parent hd hu h, List.head?_append, head?_segments] at hs
  exact (Option.some.inj hs).symm

theorem reverse_fallen (s : String) : (fallen d s).reverse = segments d s := by
  induction s using parent_induction hd with
  | top s h => rw [fallen_of_top h, segments_of_top h, List.reverse_singleton]
  | below s p h ih =>
    rw [fallen_of_parent hd h, List.reverse_cons, ih, segments_of_parent hd hu h]

theorem reverse_ancestors (s : String) : (ancestors d s).reverse = heads d s := by
  induction s using parent_induction hd with
  | top s h => rw [ancestors_of_top h, heads_of_top h, List.reverse_nil]
  | below s p h ih =>
    rw [ancestors_of_parent hd h, List.reverse_cons, ih, heads_of_parent hd hu h]

/-- From the left a delimiter is found wherever it stands. -/
theorem mem_heads_iff (p s : String) : p ∈ heads d s ↔ ∃ y, s = p ++ d ++ y := by
  have hup := mem_ancestors_iff d s p
  rw [atOrBelow_iff hd hu, List.mem_cons] at hup
  rw [← reverse_ancestors hd hu, List.mem_reverse]
  by_cases hp : p = s
  · subst hp
    have hself : p ∉ ancestors d p := fun hm =>
      Nat.lt_irrefl _ (rises_shorter hd (rises_ancestors hd p) p hm)
    refine iff_of_false hself ?_
    rintro ⟨y, hy⟩
    have hl := congrArg String.length hy
    have hpos := length_pos hd
    simp only [String.length_append] at hl
    omega
  · rwa [or_iff_right hp, or_iff_right (Ne.symm hp)] at hup

theorem getLast?_ancestors (s : String) : (s :: ancestors d s).getLast? = some (first d s) := by
  induction s using parent_induction hd with
  | top s h =>
    rw [ancestors_of_top h, List.getLast?_singleton, first_eq_self (parent?_eq_none_iff.1 h)]
  | below s p h ih =>
    rw [ancestors_of_parent hd h, List.getLast?_cons_cons, ih, first_of_parent hd hu h]

end Unbordered

structure Agrees (d s : String) : Prop where
  rises : Rises d (s :: ancestors d s)
  segments_eq : (fallen d s).reverse = segments d s
  top_eq : (s :: ancestors d s).getLast? = some (first d s)
  heads_eq : (ancestors d s).reverse = heads d s
  heads_iff : ∀ p, p ∈ heads d s ↔ ∃ y, s = p ++ d ++ y
  cuts_eq : (ancestors d s).length = (heads d s).length
  wellFormed_iff : wellFormed d s = true ↔ ∀ g ∈ fallen d s, g ≠ ""

theorem agrees (hd : d ≠ "") (hu : Text.Unbordered d.toList) (s : String) : Agrees d s where
  rises := rises_ancestors hd s
  segments_eq := reverse_fallen hd hu s
  top_eq := getLast?_ancestors hd hu s
  heads_eq := reverse_ancestors hd hu s
  heads_iff p := mem_heads_iff hd hu p s
  cuts_eq := by rw [← reverse_ancestors hd hu s, List.length_reverse]
  wellFormed_iff := by
    rw [wellFormed_iff, ← reverse_fallen hd hu s, List.mem_reverse]
    constructor
    · intro h g hg he
      exact h (he ▸ hg)
    · intro h hm
      exact h "" hm rfl

/-- Equal segments at every name leave no room for a border. -/
theorem unbordered_of_segments (h : ∀ s, (fallen d s).reverse = segments d s) :
    Text.Unbordered d.toList := by
  rintro b ⟨x, hx⟩ ⟨y, hy⟩
  by_cases hb : b = []
  · exact Or.inl hb
  obtain ⟨hleft, hlast, htop⟩ := Text.cuts_of_border hx hy hb
  have hd : d ≠ "" := by
    rintro rfl
    exact hb (List.append_eq_nil_iff.1 hx).1
  have hparent : parent? d (String.ofList y ++ d) = some (String.ofList y) := by
    simp [parent?, hlast]
  have hsegment : segment d (String.ofList y ++ d) = "" := by simp [segment, hlast]
  have hwhole : parent? d (String.ofList y) = none := by simp [parent?, htop]
  have hsegments : segments d (String.ofList y ++ d) = ["", String.ofList x] := by
    simp [segments, hleft]
  have hends := h (String.ofList y ++ d)
  rw [fallen_of_parent hd hparent, fallen_of_top hwhole, hsegment, hsegments] at hends
  have hye : y = [] := by simpa using (List.cons.inj hends).1
  exact Or.inr (by simpa [hye] using hy)

/-- Both ends agree on every name exactly where the delimiter has no border. -/
theorem agrees_iff_unbordered (hd : d ≠ "") :
    (∀ s, Agrees d s) ↔ Text.Unbordered d.toList :=
  ⟨fun h => unbordered_of_segments fun s => (h s).segments_eq, agrees hd⟩

theorem arrow_agrees_colons_differ :
    ("-->" ≠ "" ∧ Text.Unbordered "-->".toList ∧ ∀ s, Agrees "-->" s) ∧
    "::" ≠ "" ∧ ¬ Text.Unbordered "::".toList ∧ ¬ ∀ s, Agrees "::" s := by
  have harrow : Text.Unbordered "-->".toList := by decide
  have hcolons : ¬ Text.Unbordered "::".toList := by decide
  exact ⟨⟨by decide, harrow, (agrees_iff_unbordered (by decide)).2 harrow⟩,
    by decide, hcolons, fun h => hcolons ((agrees_iff_unbordered (by decide)).1 h)⟩

example : segments "-->" "a--->b-->" = ["a-", "b", ""] ∧
    segments "::" "a:::b" = ["a", ":b"] ∧ fallen "::" "a:::b" = ["b", "a:"] := by
  decide +kernel

end Path

end UseGraph
