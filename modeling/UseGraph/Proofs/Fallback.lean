import UseGraph.Proofs.Forgiving

/-!
# The forgiving build against the strict one

Two checks are written apart: one refuses the first record that does not fit,
the other drops such records as it goes. The records that the second leaves
are those that can be told one by one: a name that suits the stem and that no
record before has. On them the strict build passes all checks, so the root
alone is left only where nothing is kept or no kept name leads up to the stem,
and records that the strict build accepts are all kept.
-/

set_option autoImplicit false

namespace UseGraph.Hierarchy

variable {α : Type} {d stem root s : String} {names : List String} {rs : List (Record α)}
  {t : Hierarchy α}

def foremost (d stem : String) (rs : List (Record α)) : List (Record α) :=
  (rs.zipIdx.filter fun x : Record α × Nat =>
    suits d stem x.1.name ∧ ∀ q ∈ rs.take x.2, q.name ≠ x.1.name).map Prod.fst

structure Forgiven (d stem : String) (rs : List (Record α)) (t : Hierarchy α) : Prop where
  undelimited : d = "" → t = lone stem d
  deserted : d ≠ "" → foremost d stem rs = [] → t = lone stem d
  strict_or_lone : d ≠ "" → foremost d stem rs ≠ [] →
    ofRecords (foremost d stem rs) d = .ok t ∨
      ofRecords (foremost d stem rs) d = .error .missingRoot ∧ t = lone stem d
  missing_iff : d ≠ "" → foremost d stem rs ≠ [] →
    (ofRecords (foremost d stem rs) d = .error .missingRoot ↔
      ∀ r ∈ foremost d stem rs, ¬ Path.AtOrBelow d r.name stem)
  unbordered : d ≠ "" → foremost d stem rs ≠ [] → Text.Unbordered d.toList →
    ofRecords (foremost d stem rs) d = .ok t
  root : t.root < t.size ∧ t.name t.root = stem ∧ t.parent? t.root = none ∧
    t.isLeaf t.root = false

/-- The names seen are those kept, and so far they tell the same suitable
names apart as all names before do. -/
theorem usable_eq_zipIdx (d stem : String) (seen : List String) (before rs : List (Record α))
    (hs : ∀ s, suits d stem s = true → (s ∈ seen ↔ s ∈ before.map Record.name)) :
    usable d stem seen rs = ((rs.zipIdx before.length).filter fun x : Record α × Nat =>
      suits d stem x.1.name ∧ ∀ q ∈ (before ++ rs).take x.2, q.name ≠ x.1.name).map Prod.fst := by
  induction rs generalizing before seen with
  | nil => rfl
  | cons r rs ih =>
    have hsplit : before ++ r :: rs = (before ++ [r]) ++ rs := by simp
    have htake : (before ++ r :: rs).take before.length = before := by simp
    have hrest : ∀ seen', (∀ s, suits d stem s = true →
        (s ∈ seen' ↔ s ∈ (before ++ [r]).map Record.name)) →
        usable d stem seen' rs = ((rs.zipIdx (before.length + 1)).filter fun x : Record α × Nat =>
          suits d stem x.1.name ∧
            ∀ q ∈ (before ++ r :: rs).take x.2, q.name ≠ x.1.name).map Prod.fst := by
      intro seen' hs'
      rw [ih seen' (before ++ [r]) hs', hsplit, List.length_append, List.length_singleton]
    have hnew : (∀ q ∈ before, q.name ≠ r.name) ↔ r.name ∉ before.map Record.name := by
      simp
    rw [usable, suits_eq, List.zipIdx_cons, List.filter_cons]
    simp only [htake, hnew]
    by_cases hfit : suits d stem r.name = true
    · by_cases hmem : r.name ∈ seen
      · have hbefore := (hs r.name hfit).1 hmem
        rw [if_neg (by simp [hmem]), if_neg (by simp [hbefore])]
        apply hrest
        intro s hsuit
        rw [hs s hsuit, List.map_append, List.mem_append]
        constructor
        · exact Or.inl
        · rintro (hm | hm)
          · exact hm
          · have hsr : s = r.name := by simpa using hm
            exact hsr ▸ hbefore
      · have hbefore : r.name ∉ before.map Record.name := fun hm => hmem ((hs r.name hfit).2 hm)
        rw [if_pos (by simp [hfit, hmem]), if_pos (by simp [hfit, hbefore]), List.map_cons]
        congr 1
        apply hrest
        intro s hsuit
        rw [List.mem_cons, hs s hsuit, List.map_append, List.mem_append]
        simp [or_comm]
    · rw [if_neg (by simp [hfit]), if_neg (by simp [hfit])]
      apply hrest
      intro s hsuit
      have hne : s ≠ r.name := fun he => hfit (he ▸ hsuit)
      rw [hs s hsuit, List.map_append, List.mem_append]
      simp [hne]

/-- The names seen matter to suitable records only, so they may as well be
all that were met. -/
theorem usable_eq_foremost (d stem : String) (rs : List (Record α)) :
    usable d stem [] rs = foremost d stem rs :=
  usable_eq_zipIdx d stem [] [] rs (by simp)

theorem usable_names (d stem : String) (seen : List String) (rs : List (Record α)) :
    ((usable d stem seen rs).map Record.name).Nodup ∧
      ∀ s ∈ (usable d stem seen rs).map Record.name, suits d stem s = true ∧ s ∉ seen := by
  induction rs generalizing seen with
  | nil => simp [usable]
  | cons r rs ih =>
    rw [usable, suits_eq]
    split
    · rename_i hr
      obtain ⟨hfit, hseen⟩ : suits d stem r.name = true ∧ r.name ∉ seen := by simpa using hr
      obtain ⟨hn, hall⟩ := ih (r.name :: seen)
      rw [List.map_cons, List.nodup_cons, List.forall_mem_cons]
      refine ⟨⟨fun hm => (hall _ hm).2 List.mem_cons_self, hn⟩, ⟨hfit, hseen⟩, ?_⟩
      intro s hs
      exact ⟨(hall s hs).1, fun hm => (hall s hs).2 (List.mem_cons_of_mem _ hm)⟩
    · exact ih seen

theorem fitting_foremost (hd : d ≠ "") (hk : foremost d stem rs ≠ []) :
    Fitting d stem ((foremost d stem rs).map Record.name) := by
  obtain ⟨hn, hall⟩ := usable_names d stem [] rs
  rw [usable_eq_foremost] at hn hall
  have hfit : ∀ s ∈ (foremost d stem rs).map Record.name,
      "" ∉ Path.segments d s ∧ Path.first d s = stem := fun s hs => suits_iff.1 (hall s hs).1
  exact ⟨hd, by simpa using hk, hn, fun s hs => (hfit s hs).1, fun s hs => (hfit s hs).2⟩

theorem Fitting.root_unique (h : Fitting d root names) (h' : Fitting d stem names) :
    root = stem := by
  obtain ⟨s, hs⟩ := List.exists_mem_of_ne_nil _ h.inhabited
  exact (h.first s hs).symm.trans (h'.first s hs)

/-- Past the checks, what is left to fail is finding the root. -/
theorem ofRecords_of_fitting (h : Fitting d root (rs.map Record.name)) :
    (∃ t, ofRecords rs d = .ok t) ∨ ofRecords rs d = .error .missingRoot := by
  have hroot := (rootSegment_ok_iff d root _).2 h
  cases hfind : (Forest.ofRecords d rs).find? root with
  | none => exact Or.inr (by simp [ofRecords, hroot, hfind])
  | some id => exact Or.inl ⟨⟨Forest.ofRecords d rs, id, d⟩, by simp [ofRecords, hroot, hfind]⟩

theorem missing_iff_of_fitting (h : Fitting d root (rs.map Record.name)) :
    ofRecords rs d = .error .missingRoot ↔ ∀ r ∈ rs, ¬ Path.AtOrBelow d r.name root := by
  have haccepts : (∃ t, ofRecords rs d = .ok t) ↔ ∃ r ∈ rs, Path.AtOrBelow d r.name root := by
    rw [ofRecords_accepts_iff]
    constructor
    · rintro ⟨root', h', s, hs, hc⟩
      obtain ⟨r, hr, rfl⟩ := List.mem_map.1 hs
      exact ⟨r, hr, h'.root_unique h ▸ hc⟩
    · rintro ⟨r, hr, hc⟩
      exact ⟨root, h, r.name, List.mem_map_of_mem hr, hc⟩
  constructor
  · intro he r hr hc
    obtain ⟨t, ht⟩ := haccepts.2 ⟨r, hr, hc⟩
    rw [he] at ht
    cases ht
  · intro hno
    refine (ofRecords_of_fitting h).resolve_left ?_
    intro hok
    obtain ⟨r, hr, hc⟩ := haccepts.1 hok
    exact hno r hr hc

theorem ofRecords_nil (d : String) : ∃ e, ofRecords ([] : List (Record α)) d = .error e := by
  by_cases he : d.isEmpty = true
  · exact ⟨.emptyDelimiter, by simp [ofRecords, rootSegment, he]⟩
  · exact ⟨.missingRoot, by simp [ofRecords, rootSegment, he]⟩

/-- All that the forgiving build does besides is to fall back. -/
theorem ofUsableRecords_eq (rs : List (Record α)) (d stem : String) :
    ofUsableRecords rs d stem =
      match ofRecords (foremost d stem rs) d with
      | .ok t => t
      | .error _ => lone stem d := by
  rw [ofUsableRecords, usable_eq_foremost]
  by_cases he : d.isEmpty = true
  · simp [he, ofRecords, rootSegment]
  · rw [if_neg he]
    cases foremost d stem rs with
    | nil =>
      obtain ⟨e, hnil⟩ := ofRecords_nil (α := α) d
      rw [hnil]
    | cons r kept => rfl

theorem ofUsableRecords_of_ok (h : ofRecords (foremost d stem rs) d = .ok t) :
    ofUsableRecords rs d stem = t := by
  rw [ofUsableRecords_eq, h]

theorem ofUsableRecords_of_error {e : Fault} (h : ofRecords (foremost d stem rs) d = .error e) :
    ofUsableRecords rs d stem = lone stem d := by
  rw [ofUsableRecords_eq, h]

/-- Whichever way the forgiving build goes, its root is a container with the
name of the stem and without a parent. -/
theorem root_ofUsableRecords (rs : List (Record α)) (d stem : String) :
    (ofUsableRecords rs d stem).root < (ofUsableRecords rs d stem).size ∧
      (ofUsableRecords rs d stem).name (ofUsableRecords rs d stem).root = stem ∧
      (ofUsableRecords rs d stem).parent? (ofUsableRecords rs d stem).root = none ∧
      (ofUsableRecords rs d stem).isLeaf (ofUsableRecords rs d stem).root = false := by
  rcases ofUsableRecords_cases rs d stem with hl | hok
  · rw [hl]
    exact ⟨Nat.one_pos, rfl, rfl, rfl⟩
  · rw [usable_eq_foremost] at hok
    have hb := built_of_ok hok
    have hk : foremost d stem rs ≠ [] := by
      intro hnil
      exact hb.fitting.inhabited (by rw [hnil, List.map_nil])
    have hname := hb.fitting.root_unique (fitting_foremost hb.delimited hk)
    exact ⟨hb.root, hname, hb.root_top, hb.coherent.root.2.2⟩

theorem forgiven (rs : List (Record α)) (d stem : String) :
    Forgiven d stem rs (ofUsableRecords rs d stem) where
  undelimited hd := by simp [ofUsableRecords, hd]
  deserted _ hk := by
    obtain ⟨e, hnil⟩ := ofRecords_nil (α := α) d
    exact ofUsableRecords_of_error (hk.symm ▸ hnil)
  strict_or_lone hd hk := by
    rcases ofRecords_of_fitting (fitting_foremost hd hk) with ⟨t, ht⟩ | he
    · exact Or.inl (by rw [ofUsableRecords_of_ok ht, ht])
    · exact Or.inr ⟨he, ofUsableRecords_of_error he⟩
  missing_iff hd hk := missing_iff_of_fitting (fitting_foremost hd hk)
  unbordered hd hk hu := by
    obtain ⟨t, ht⟩ := ofRecords_ok_of_fitting hu (fitting_foremost hd hk)
    rw [ofUsableRecords_of_ok ht, ht]
  root := root_ofUsableRecords rs d stem

/-- Nothing that the strict build accepts is dropped. -/
theorem foremost_of_fitting (h : Fitting d stem (rs.map Record.name)) :
    foremost d stem rs = rs := by
  rw [← usable_eq_foremost, usable_eq d stem [] rs h.nodup (by simp), List.filter_eq_self]
  intro r hr
  have hm := List.mem_map_of_mem hr (f := Record.name)
  exact suits_iff.2 ⟨h.wellFormed _ hm, h.first _ hm⟩

/-- The forgiving build is the strict build of the records it keeps, the root
alone where that fails, and the strict build itself where that succeeds. -/
theorem ofUsableRecords_forgiven (rs : List (Record α)) (d stem : String) :
    Forgiven d stem rs (ofUsableRecords rs d stem) ∧
      ∀ t, ofRecords rs d = .ok t → ofUsableRecords rs d (t.name t.root) = t := by
  refine ⟨forgiven rs d stem, ?_⟩
  intro t ht
  have hsame := foremost_of_fitting (built_of_ok ht).fitting
  exact ofUsableRecords_of_ok (hsame.symm ▸ ht)

def cluttered : List (Record Nat) :=
  [⟨"r::::x", 1⟩, ⟨"r::a", 2⟩, ⟨"s::a", 3⟩, ⟨"r:::x", 4⟩, ⟨"r::a", 5⟩, ⟨"r", 6⟩]

def astray : List (Record Nat) := [⟨"r:::x", 4⟩]

example : (foremost "::" "r" cluttered).map Record.payload = [2, 4, 6] := by decide +kernel

theorem cluttered_forgiven :
    (foremost "::" "r" cluttered ≠ [] ∧
      Forgiven "::" "r" cluttered (ofUsableRecords cluttered "::" "r")) ∧
    (∃ t, ofRecords overlapping "::" = .ok t ∧
      ofUsableRecords overlapping "::" (t.name t.root) = t) ∧
    (foremost "::" "r" astray ≠ [] ∧
      ofUsableRecords astray "::" "r" = lone "r" "::") := by
  refine ⟨⟨?_, (ofUsableRecords_forgiven cluttered "::" "r").1⟩, ?_, ?_⟩
  · have hlen : 0 < (foremost "::" "r" cluttered).length := by decide +kernel
    exact List.length_pos_iff.1 hlen
  · obtain ⟨t, ht⟩ := overlapping_accepted
    exact ⟨t, ht, (ofUsableRecords_forgiven overlapping "::" "").2 t ht⟩
  · have hf := (ofUsableRecords_forgiven astray "::" "r").1
    have hk : foremost "::" "r" astray ≠ [] := by
      have hlen : 0 < (foremost "::" "r" astray).length := by decide +kernel
      exact List.length_pos_iff.1 hlen
    have hno : ∀ r ∈ foremost "::" "r" astray,
        ¬ Path.AtOrBelow "::" r.name "r" := by decide +kernel
    have he := (hf.missing_iff (by decide) hk).2 hno
    refine ⟨hk, (hf.strict_or_lone (by decide) hk).elim ?_ And.right⟩
    intro hok
    rw [he] at hok
    cases hok

end UseGraph.Hierarchy
