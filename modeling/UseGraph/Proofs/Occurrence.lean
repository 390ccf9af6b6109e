import Mathlib.Data.List.Infix
import UseGraph.Path

/-!
# Occurrences of a delimiter

The two cuts stand at the first and at the last occurrence. Occurrences of a
delimiter can overlap only where a proper part of it both begins and ends it;
for all other delimiters they stand apart, and nothing straddles the seam
when a text without the delimiter is put before it.
-/

set_option autoImplicit false

namespace UseGraph.Text

variable {d s a b p q : List Char}

/-- No proper part of the text both begins and ends it. -/
def Unbordered (d : List Char) : Prop := ∀ b, b <+: d → b <:+ d → b = [] ∨ b = d

instance (d : List Char) : Decidable (Unbordered d) :=
  decidable_of_iff (∀ b ∈ d.inits, b <:+ d → b = [] ∨ b = d) (by simp [Unbordered])

theorem firstCut_eq_none_iff : firstCut d s = none ↔ ∀ a b, s ≠ a ++ d ++ b := by
  induction s with
  | nil => cases d <;> simp [firstCut]
  | cons c r ih =>
    simp only [firstCut]
    split
    · rename_i t ht
      simp only [reduceCtorEq, false_iff]
      exact fun h => h [] t (isPrefixOf?_eq_some_iff.1 ht)
    · rename_i ht
      rw [Option.map_eq_none_iff, ih]
      constructor
      · intro h a b he
        cases a with
        | nil =>
          rw [isPrefixOf?_eq_some_iff.2 (show c :: r = d ++ b by simpa using he)] at ht
          cases ht
        | cons e a => exact h a b (by simpa using (List.cons.inj he).2)
      · intro h a b he
        exact h (c :: a) b (by simp [he])

theorem firstCut_le (h : firstCut d s = some (a, b)) (hs : s = p ++ d ++ q) :
    a.length ≤ p.length := by
  induction s generalizing a p with
  | nil =>
    simp only [firstCut] at h
    split at h <;> simp_all
  | cons c r ih =>
    simp only [firstCut] at h
    split at h
    · cases h
      simp
    · rename_i ht
      obtain ⟨⟨e, f⟩, hr, he⟩ := Option.map_eq_some_iff.1 h
      cases he
      cases p with
      | nil =>
        rw [isPrefixOf?_eq_some_iff.2 (show c :: r = d ++ q by simpa using hs)] at ht
        cases ht
      | cons g p =>
        have hle := ih hr (by simpa using (List.cons.inj hs).2)
        simpa using hle

/-- What follows a text does not change where it is cut first. -/
theorem firstCut_of_longer (h : firstCut d s = some (a, b)) (r : List Char) :
    firstCut d (s ++ r) = some (a, b ++ r) := by
  have hs := eq_append_of_firstCut h
  have hsr : s ++ r = a ++ d ++ (b ++ r) := by rw [hs, List.append_assoc _ b r]
  cases hc : firstCut d (s ++ r) with
  | none => exact absurd hsr (firstCut_eq_none_iff.1 hc a (b ++ r))
  | some c =>
    obtain ⟨e, f⟩ := c
    have he := eq_append_of_firstCut hc
    have hea := firstCut_le hc hsr
    have hpre : e ++ d <+: s := by
      apply List.prefix_of_prefix_length_le ⟨f, he.symm⟩ (List.prefix_append s r)
      simp only [hs, List.length_append]
      omega
    obtain ⟨g, hg⟩ := hpre
    have hae := firstCut_le h hg.symm
    have hj := List.append_inj (by simpa using he.symm.trans hsr) (Nat.le_antisymm hea hae)
    rw [hj.1, List.append_cancel_left hj.2]

theorem firstCut_delimiter_append (d s : List Char) : firstCut d (d ++ s) = some ([], s) := by
  cases h : firstCut d (d ++ s) with
  | none => exact absurd rfl (firstCut_eq_none_iff.1 h [] s)
  | some c =>
    obtain ⟨a, b⟩ := c
    have hle := firstCut_le h (p := []) rfl
    have ha : a = [] := List.length_eq_zero_iff.1 (Nat.le_zero.1 hle)
    have hb := eq_append_of_firstCut h
    rw [ha, List.nil_append] at hb
    rw [ha, List.append_cancel_left hb]

/-- Nothing is cut again before the first cut. -/
theorem firstCut_delimiterless (hd : d ≠ []) (h : firstCut d s = some (a, b)) (x y : List Char) :
    a ≠ x ++ d ++ y := by
  intro ha
  have hs := eq_append_of_firstCut h
  have hle := firstCut_le h (p := x) (q := y ++ d ++ b) (by simp [hs, ha])
  have hl := List.length_pos_iff.2 hd
  simp only [ha, List.length_append] at hle
  omega

theorem lastCut_eq_none_iff : lastCut d s = none ↔ ∀ a b, s ≠ a ++ d ++ b := by
  induction s with
  | nil => cases d <;> simp [lastCut]
  | cons c r ih =>
    simp only [lastCut]
    split
    · rename_i e f hr
      simp only [reduceCtorEq, false_iff]
      exact fun h => h (c :: e) f (by simp [eq_append_of_lastCut hr])
    · rename_i hr
      rw [Option.map_eq_none_iff]
      constructor
      · intro ht a b he
        cases a with
        | nil =>
          rw [isPrefixOf?_eq_some_iff.2 (show c :: r = d ++ b by simpa using he)] at ht
          cases ht
        | cons e a => exact ih.1 hr a b (by simpa using (List.cons.inj he).2)
      · intro h
        cases ht : d.isPrefixOf? (c :: r) with
        | none => rfl
        | some t => exact absurd (isPrefixOf?_eq_some_iff.1 ht) (h [] t)

theorem lastCut_le (h : lastCut d s = some (a, b)) (hs : s = p ++ d ++ q) :
    p.length ≤ a.length := by
  induction s generalizing a p with
  | nil => simp_all
  | cons c r ih =>
    cases p with
    | nil => simp
    | cons g p =>
      have hr : r = p ++ d ++ q := by simpa using (List.cons.inj hs).2
      simp only [lastCut] at h
      split at h
      · rename_i e f he
        cases h
        simpa using ih he hr
      · rename_i hn
        exact absurd hr (lastCut_eq_none_iff.1 hn p q)

/-- The last cut is the one with the longest part before it. -/
theorem lastCut_eq_some_iff : lastCut d s = some (a, b) ↔
    s = a ++ d ++ b ∧ ∀ p q, s = p ++ d ++ q → p.length ≤ a.length := by
  constructor
  · intro h
    exact ⟨eq_append_of_lastCut h, fun p q hs => lastCut_le h hs⟩
  · rintro ⟨hs, hmax⟩
    cases h : lastCut d s with
    | none => exact absurd hs (lastCut_eq_none_iff.1 h a b)
    | some c =>
      obtain ⟨e, f⟩ := c
      have he := eq_append_of_lastCut h
      have hl : e.length = a.length :=
        Nat.le_antisymm (hmax e f he) (lastCut_le h hs)
      have hj := List.append_inj (by simpa using he.symm.trans hs) hl
      rw [hj.1, List.append_cancel_left hj.2]

/-- Nothing is cut again behind the last cut. -/
theorem firstCut_behind_lastCut (hd : d ≠ []) (h : lastCut d s = some (a, b)) :
    firstCut d b = none := by
  rw [firstCut_eq_none_iff]
  intro x y hb
  have hs := eq_append_of_lastCut h
  have hle := lastCut_le h (p := a ++ d ++ x) (q := y) (by simp [hs, hb])
  have hl := List.length_pos_iff.2 hd
  simp only [List.length_append] at hle
  omega

namespace Unbordered

/-- Two occurrences do not overlap. -/
theorem apart (hu : Unbordered d) (h : a ++ d ++ b = p ++ d ++ q)
    (hl : a.length < p.length) : ∃ m, p = a ++ d ++ m ∧ b = m ++ d ++ q := by
  simp only [List.append_assoc] at h
  rcases List.append_eq_append_iff.1 h with ⟨c, ha, hc⟩ | ⟨c, ha, -⟩
  · rcases List.append_eq_append_iff.1 hc with ⟨m, hm, hb⟩ | ⟨e, he, hb⟩
    · exact ⟨m, by simp [ha, hm], by simp [hb]⟩
    · have hpos : c ≠ [] := by
        rintro rfl
        simp [ha] at hl
      have hd : d.length = c.length + e.length := by simp [he]
      have hcl := List.length_pos_iff.2 hpos
      have hp : e <+: d := by
        refine List.prefix_of_prefix_length_le ⟨b, hb.symm⟩ (List.prefix_append d q) ?_
        omega
      rcases hu e hp ⟨c, he.symm⟩ with rfl | rfl
      · exact ⟨[], by simpa using ha.trans (by simp [he]), by simpa using hb.symm⟩
      · omega
  · have := congrArg List.length ha
    simp only [List.length_append] at this
    omega

/-- A text without the delimiter is what stands before the first cut. -/
theorem firstCut_append (hu : Unbordered d) (ha : ∀ x y, a ≠ x ++ d ++ y) :
    firstCut d (a ++ d ++ b) = some (a, b) := by
  cases h : firstCut d (a ++ d ++ b) with
  | none => exact absurd rfl (firstCut_eq_none_iff.1 h a b)
  | some c =>
    obtain ⟨e, f⟩ := c
    have he := eq_append_of_firstCut h
    rcases Nat.lt_or_eq_of_le (firstCut_le h rfl) with hl | hl
    · obtain ⟨m, hm, -⟩ := hu.apart he.symm hl
      exact absurd hm (ha e m)
    · have hj := List.append_inj (by simpa using he.symm) hl
      rw [hj.1, List.append_cancel_left hj.2]

theorem segments_append (hu : Unbordered d) (hd : d ≠ []) (ha : ∀ x y, a ≠ x ++ d ++ y) :
    segments d (a ++ d ++ b) = a :: segments d b :=
  segments_of_firstCut_eq_some hd (hu.firstCut_append ha)

end Unbordered

end UseGraph.Text
