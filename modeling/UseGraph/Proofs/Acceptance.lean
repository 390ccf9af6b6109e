import UseGraph.Hierarchy.Basic
import UseGraph.Proofs.Insertion

/-!
# Which records make a hierarchy

The checks pass exactly for names that fit under one root, and the build then
fails only where no entry has the root's name. With a delimiter that has no
border this does not occur, since the root is above every name.
-/

set_option autoImplicit false

namespace UseGraph.Hierarchy

open UseGraph.Growth

variable {α : Type} {d root : String} {names seen : List String} {rs : List (Record α)}

structure Fitting (d root : String) (names : List String) : Prop where
  delimiter : d ≠ ""
  inhabited : names ≠ []
  nodup : names.Nodup
  wellFormed : ∀ s ∈ names, "" ∉ Path.segments d s
  first : ∀ s ∈ names, Path.first d s = root

theorem inspect_ok_iff (d root : String) (seen : List String) (s : String) :
    inspect d root seen s = .ok () ↔
      "" ∉ Path.segments d s ∧ s ∉ seen ∧ Path.first d s = root := by
  rw [← Path.wellFormed_iff]
  unfold inspect
  by_cases hw : Path.wellFormed d s = true
  · by_cases hs : s ∈ seen
    · simp [hw, hs]
    · by_cases hf : Path.first d s = root <;> simp [hw, hs, hf]
  · simp [hw]

theorem inspectAll_ok_iff (d root : String) (seen names : List String) :
    inspectAll d root seen names = .ok () ↔ names.Nodup ∧
      ∀ s ∈ names, "" ∉ Path.segments d s ∧ s ∉ seen ∧ Path.first d s = root := by
  induction names generalizing seen with
  | nil => simp [inspectAll]
  | cons s names ih =>
    cases h : inspect d root seen s with
    | error e =>
      have hno : ¬ inspect d root seen s = .ok () := by simp [h]
      rw [inspect_ok_iff] at hno
      simp only [inspectAll, h, List.forall_mem_cons, reduceCtorEq, false_iff]
      exact fun hall => hno hall.2.1
    | ok u =>
      have hs := (inspect_ok_iff d root seen s).1 h
      rw [inspectAll, h]
      simp only [ih, List.nodup_cons, List.forall_mem_cons]
      constructor
      · rintro ⟨hn, hall⟩
        refine ⟨⟨fun hm => (hall s hm).2.1 (by simp), hn⟩, hs, ?_⟩
        intro t ht
        obtain ⟨hw, hseen, hf⟩ := hall t ht
        exact ⟨hw, fun hm => hseen (List.mem_cons_of_mem s hm), hf⟩
      · rintro ⟨⟨hsn, hn⟩, -, hall⟩
        refine ⟨hn, ?_⟩
        intro t ht
        obtain ⟨hw, hseen, hf⟩ := hall t ht
        refine ⟨hw, ?_, hf⟩
        intro hm
        rcases List.mem_cons.1 hm with rfl | hm
        · exact hsn ht
        · exact hseen hm

theorem rootSegment_ok_iff (d root : String) (names : List String) :
    rootSegment d names = .ok root ↔ Fitting d root names := by
  by_cases hd : d = ""
  · have he : d.isEmpty = true := by simpa [String.isEmpty_iff] using hd
    simp only [rootSegment, he, if_true, reduceCtorEq, false_iff]
    exact fun h => h.delimiter hd
  · have he : d.isEmpty = false := by simpa [String.isEmpty_iff] using hd
    cases names with
    | nil =>
      simp only [rootSegment, he, Bool.false_eq_true, if_false, reduceCtorEq, false_iff]
      exact fun h => h.inhabited rfl
    | cons s names =>
      have hiff := inspectAll_ok_iff d (Path.first d s) [] (s :: names)
      simp only [rootSegment, he, Bool.false_eq_true, if_false]
      cases h : inspectAll d (Path.first d s) [] (s :: names) with
      | error e =>
        simp only [reduceCtorEq, false_iff]
        intro hf
        have hroot : Path.first d s = root := hf.first s (by simp)
        have hok := hiff.2 ⟨hf.nodup, fun t ht =>
          ⟨hf.wellFormed t ht, by simp, (hf.first t ht).trans hroot.symm⟩⟩
        rw [h] at hok
        cases hok
      | ok u =>
        obtain ⟨hn, hall⟩ := hiff.1 h
        rw [Except.ok.injEq]
        constructor
        · rintro rfl
          exact ⟨hd, by simp, hn, fun t ht => (hall t ht).1, fun t ht => (hall t ht).2.2⟩
        · exact fun hf => hf.first s (by simp)

theorem ofRecords_ok_iff (rs : List (Record α)) (d : String) (t : Hierarchy α) :
    ofRecords rs d = .ok t ↔ ∃ root id, Fitting d root (rs.map Record.name) ∧
      (Forest.ofRecords d rs).find? root = some id ∧ t = ⟨Forest.ofRecords d rs, id, d⟩ := by
  unfold ofRecords
  cases hroot : rootSegment d (rs.map Record.name) with
  | error e =>
    simp only [reduceCtorEq, false_iff]
    rintro ⟨root, id, hf, -, -⟩
    rw [(rootSegment_ok_iff d root _).2 hf] at hroot
    cases hroot
  | ok root =>
    have hfit := (rootSegment_ok_iff d root _).1 hroot
    have hsole : ∀ root', Fitting d root' (rs.map Record.name) → root' = root := by
      intro root' hf
      have hr := (rootSegment_ok_iff d root' _).2 hf
      rw [hroot] at hr
      exact (Except.ok.inj hr).symm
    cases hfind : (Forest.ofRecords d rs).find? root with
    | none =>
      simp only [hfind, reduceCtorEq, false_iff]
      rintro ⟨root', id, hf, hid, -⟩
      rw [hsole root' hf, hfind] at hid
      cases hid
    | some id =>
      simp only [hfind, Except.ok.injEq]
      constructor
      · rintro rfl
        exact ⟨root, id, hfit, hfind, rfl⟩
      · rintro ⟨root', id', hf, hid, rfl⟩
        rw [hsole root' hf, hfind] at hid
        cases hid
        rfl

/-- Beyond the checks, some name has to lead up to the root. -/
theorem ofRecords_accepts_iff (rs : List (Record α)) (d : String) :
    (∃ t, ofRecords rs d = .ok t) ↔ ∃ root, Fitting d root (rs.map Record.name) ∧
      ∃ s ∈ rs.map Record.name, Path.AtOrBelow d s root := by
  have hfound : ∀ root, Fitting d root (rs.map Record.name) →
      ((∃ id, (Forest.ofRecords d rs).find? root = some id) ↔
        ∃ s ∈ rs.map Record.name, Path.AtOrBelow d s root) := by
    intro root hf
    have hg := Forest.grown_ofRecords hf.delimiter rs hf.nodup
    rw [← mem_growth hf.delimiter, ← hg.names, ← Option.isSome_iff_exists,
      Option.isSome_iff_ne_none, ne_eq, Forest.find?_eq_none_iff, not_not]
  constructor
  · rintro ⟨t, ht⟩
    obtain ⟨root, id, hf, hid, -⟩ := (ofRecords_ok_iff rs d t).1 ht
    exact ⟨root, hf, (hfound root hf).1 ⟨id, hid⟩⟩
  · rintro ⟨root, hf, hs⟩
    obtain ⟨id, hid⟩ := (hfound root hf).2 hs
    exact ⟨_, (ofRecords_ok_iff rs d _).2 ⟨root, id, hf, hid, rfl⟩⟩

/-- With a delimiter without a border the checks are all there is. -/
theorem ofRecords_ok_of_fitting (hu : Text.Unbordered d.toList)
    (h : Fitting d root (rs.map Record.name)) : ∃ t, ofRecords rs d = .ok t := by
  obtain ⟨s, hs⟩ := List.exists_mem_of_ne_nil _ h.inhabited
  exact (ofRecords_accepts_iff rs d).2
    ⟨root, h, s, hs, h.first s hs ▸ Path.atOrBelow_first h.delimiter hu s⟩

/-- To be decided by running the build. -/
theorem accepted_of_isSome (rs : List (Record α)) (d : String)
    (h : (ofRecords rs d).toOption.isSome = true) : ∃ t, ofRecords rs d = .ok t := by
  cases hr : ofRecords rs d with
  | error e => simp [hr, Except.toOption] at h
  | ok t => exact ⟨t, rfl⟩

end UseGraph.Hierarchy
