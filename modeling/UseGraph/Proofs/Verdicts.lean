import UseGraph.Proofs.Fallback

/-!
# Why records are refused

Every name is held against the names before it, and the first that does not
fit is reported: for its form, else as a repetition, else for its root. When
all fit, only the root itself can be missing. Cutting from the right then
passes it by at every name, which takes a delimiter that overlaps itself.
-/

set_option autoImplicit false

namespace UseGraph.Hierarchy

variable {α : Type} {d root s : String} {before names seen : List String} {e : Fault}
  {rs : List (Record α)}

/-- What is wrong with a name that comes after the others. Of several faults
the one listed first here counts. -/
inductive Flawed (d : String) (before : List String) (s : String) : Fault → Prop where
  | malformed (hs : "" ∈ Path.segments d s) : Flawed d before s (.malformedName s)
  | repeated (hs : "" ∉ Path.segments d s) (hb : s ∈ before) :
    Flawed d before s (.duplicateRecord s)
  | estranged {t : String} (hs : "" ∉ Path.segments d s) (hb : s ∉ before)
    (ht : before.head? = some t) (hf : Path.first d s ≠ Path.first d t) :
    Flawed d before s (.multipleRoots (Path.first d t) (Path.first d s))

def Flawless (d : String) (names : List String) : Prop :=
  ∀ before s after, names = before ++ s :: after → ∀ e, ¬ Flawed d before s e

def FirstFlaw (d : String) (names : List String) (e : Fault) : Prop :=
  ∃ before s after, names = before ++ s :: after ∧ Flawless d before ∧ Flawed d before s e

structure Judged (d : String) (rs : List (Record α)) (answer : Except Fault (Hierarchy α)) :
    Prop where
  undelimited : answer = .error .emptyDelimiter ↔ d = ""
  refused : d ≠ "" → ¬ Flawless d (rs.map Record.name) →
    ∃ e, answer = .error e ∧ ∀ e', FirstFlaw d (rs.map Record.name) e' ↔ e' = e
  missing : d ≠ "" → Flawless d (rs.map Record.name) →
    (answer = .error .missingRoot ↔
      rs = [] ∨ ∀ r ∈ rs.head?, ∀ q ∈ rs, ¬ Path.AtOrBelow d q.name (Path.first d r.name))
  accepted : d ≠ "" → Flawless d (rs.map Record.name) → answer ≠ .error .missingRoot →
    ∃ t, answer = .ok t
  unbordered : rs ≠ [] → Text.Unbordered d.toList → answer ≠ .error .missingRoot

theorem flawless_nil (d : String) : Flawless d [] := by
  intro before s after h
  simp at h

theorem flawless_append_singleton (d : String) (before : List String) (s : String) :
    Flawless d (before ++ [s]) ↔ Flawless d before ∧ ∀ e, ¬ Flawed d before s e := by
  constructor
  · intro h
    refine ⟨?_, h before s [] rfl⟩
    intro front t back hb
    exact h front t (back ++ [s]) (by simp [hb])
  · rintro ⟨hb, hs⟩ front t back h
    rcases List.eq_nil_or_concat back with rfl | ⟨mid, u, rfl⟩
    · obtain ⟨rfl, ht⟩ := List.append_inj' h rfl
      cases ht
      exact hs
    · have hlast : before ++ [s] = (front ++ t :: mid) ++ [u] := by simpa using h
      exact hb front t mid (List.append_inj' hlast rfl).1

theorem unflawed_iff (d : String) (before : List String) (s : String) :
    (∀ e, ¬ Flawed d before s e) ↔ "" ∉ Path.segments d s ∧ s ∉ before ∧
      ∀ t ∈ before.head?, Path.first d s = Path.first d t := by
  constructor
  · intro h
    have hs : "" ∉ Path.segments d s := fun hs => h _ (.malformed hs)
    have hb : s ∉ before := fun hb => h _ (.repeated hs hb)
    refine ⟨hs, hb, ?_⟩
    intro t ht
    by_contra hf
    exact h _ (.estranged hs hb ht hf)
  · rintro ⟨hs, hb, hf⟩ e (hm | ⟨-, hm⟩ | ⟨-, -, ht, hne⟩)
    · exact hs hm
    · exact hb hm
    · exact hne (hf _ ht)

/-- Nothing is wrong exactly where all names are valid, different and under
the root of the first. -/
theorem flawless_iff (d : String) (names : List String) :
    Flawless d names ↔ names.Nodup ∧ ∀ s ∈ names, "" ∉ Path.segments d s ∧
      ∀ t ∈ names.head?, Path.first d s = Path.first d t := by
  induction names using List.reverseRecOn with
  | nil => simp [flawless_nil]
  | append_singleton before s ih =>
    have hn : (before ++ [s]).Nodup ↔ before.Nodup ∧ s ∉ before := by
      rw [List.nodup_append_comm, List.singleton_append, List.nodup_cons, and_comm]
    rw [flawless_append_singleton, unflawed_iff, ih, hn, List.forall_mem_append,
      List.forall_mem_singleton]
    cases before with
    | nil => simp
    | cons t before =>
      simp only [List.head?_cons, List.cons_append]
      tauto

/-- Where anything is wrong, something is wrong first. -/
theorem exists_firstFlaw (h : ¬ Flawless d names) : ∃ e, FirstFlaw d names e := by
  induction names using List.reverseRecOn with
  | nil => exact absurd (flawless_nil d) h
  | append_singleton before s ih =>
    by_cases hb : Flawless d before
    · have hs : ∃ e, Flawed d before s e := by
        by_contra hno
        exact h ((flawless_append_singleton d before s).2 ⟨hb, not_exists.1 hno⟩)
      obtain ⟨e, he⟩ := hs
      exact ⟨e, before, s, [], rfl, hb, he⟩
    · obtain ⟨e, front, t, back, rfl, hf, he⟩ := ih hb
      exact ⟨e, front, t, back ++ [s], by simp, hf, he⟩

theorem inspect_of_flawed (hb : ∀ t, t ∈ seen ↔ t ∈ before)
    (hr : ∀ t ∈ before.head?, Path.first d t = root) (h : Flawed d before s e) :
    inspect d root seen s = .error e := by
  have hw := Path.wellFormed_iff d s
  cases h with
  | malformed hs =>
    have hw : Path.wellFormed d s = false := by simpa [hs] using hw
    simp [inspect, hw]
  | repeated hs hm => simp [inspect, hw.2 hs, (hb s).2 hm]
  | estranged hs hm ht hf =>
    have hm' : s ∉ seen := fun h => hm ((hb s).1 h)
    rw [hr _ ht] at hf ⊢
    simp [inspect, hw.2 hs, hm', hf]

/-- Names that pass are only remembered. -/
theorem inspectAll_append (h : inspectAll d root seen before = .ok ()) (rest : List String) :
    inspectAll d root seen (before ++ rest) = inspectAll d root (before.reverse ++ seen) rest := by
  induction before generalizing seen with
  | nil => rfl
  | cons s before ih =>
    rw [inspectAll] at h
    rw [List.cons_append, inspectAll]
    cases hs : inspect d root seen s with
    | error e => simp [hs] at h
    | ok u =>
      simp only [hs] at h ⊢
      rw [ih h]
      simp

theorem fitting_iff (hd : d ≠ "") (s : String) (names : List String) :
    Fitting d root (s :: names) ↔ Flawless d (s :: names) ∧ Path.first d s = root := by
  rw [flawless_iff]
  constructor
  · intro h
    refine ⟨⟨h.nodup, ?_⟩, h.first s List.mem_cons_self⟩
    intro t ht
    refine ⟨h.wellFormed t ht, ?_⟩
    rintro _ ⟨⟩
    rw [h.first t ht, h.first s List.mem_cons_self]
  · rintro ⟨⟨hn, hall⟩, rfl⟩
    exact ⟨hd, by simp, hn, fun t ht => (hall t ht).1,
      fun t ht => (hall t ht).2 s rfl⟩

theorem inspectAll_of_flawless (hb : Flawless d before)
    (hr : ∀ t ∈ before.head?, Path.first d t = root) :
    inspectAll d root [] before = .ok () := by
  obtain ⟨hn, hall⟩ := (flawless_iff d before).1 hb
  refine (inspectAll_ok_iff d root [] before).2 ⟨hn, ?_⟩
  intro s hs
  cases before with
  | nil => cases hs
  | cons t before =>
    exact ⟨(hall s hs).1, by simp,
      ((hall s hs).2 t rfl).trans (hr t rfl)⟩

theorem rootSegment_of_firstFlaw (hd : d ≠ "") (h : FirstFlaw d names e) :
    rootSegment d names = .error e := by
  have he : d.isEmpty = false := by simpa [String.isEmpty_iff] using hd
  obtain ⟨before, s, after, rfl, hb, hs⟩ := h
  have hrun : ∀ root, (∀ t ∈ before.head?, Path.first d t = root) →
      inspectAll d root [] (before ++ s :: after) = .error e := by
    intro root hr
    rw [inspectAll_append (inspectAll_of_flawless hb hr), inspectAll,
      inspect_of_flawed (by simp) hr hs]
  cases before with
  | nil =>
    have hfirst := hrun (Path.first d s) (by simp)
    simp only [List.nil_append] at hfirst
    simp [rootSegment, he, hfirst]
  | cons t before =>
    have hfirst := hrun (Path.first d t) (by simp)
    simp only [List.cons_append] at hfirst
    simp [rootSegment, he, hfirst]

theorem ofRecords_of_fault (h : rootSegment d (rs.map Record.name) = .error e) :
    ofRecords rs d = .error e := by
  rw [ofRecords, h]

theorem refused_of_flawed (hd : d ≠ "") (h : ¬ Flawless d (rs.map Record.name)) :
    ∃ e, ofRecords rs d = .error e ∧ ∀ e', FirstFlaw d (rs.map Record.name) e' ↔ e' = e := by
  obtain ⟨e, he⟩ := exists_firstFlaw h
  have hroot := rootSegment_of_firstFlaw hd he
  refine ⟨e, ofRecords_of_fault hroot, ?_⟩
  intro e'
  constructor
  · intro he'
    exact Except.error.inj ((rootSegment_of_firstFlaw hd he').symm.trans hroot)
  · rintro rfl
    exact he

theorem ofRecords_empty (rs : List (Record α)) : ofRecords rs "" = .error .emptyDelimiter :=
  ofRecords_of_fault rfl

theorem Flawed.of_name (h : Flawed d before s e) : e ≠ .emptyDelimiter ∧ e ≠ .missingRoot := by
  cases h <;> simp

/-- A refusal for the names is none for the delimiter or for the root. -/
theorem refused_for_names (hd : d ≠ "") (h : ¬ Flawless d (rs.map Record.name)) :
    ofRecords rs d ≠ .error .emptyDelimiter ∧ ofRecords rs d ≠ .error .missingRoot := by
  obtain ⟨e, he, hfirst⟩ := refused_of_flawed hd h
  obtain ⟨before, s, after, -, -, hs⟩ := (hfirst e).2 rfl
  rw [he]
  simpa using hs.of_name

/-- Past the checks of the names, what may be missing is the root. -/
theorem answer_of_flawless (hd : d ≠ "") (h : Flawless d (rs.map Record.name)) :
    (∃ t, ofRecords rs d = .ok t) ∨ ofRecords rs d = .error .missingRoot := by
  cases rs with
  | nil => exact Or.inr (by simp [ofRecords, rootSegment, String.isEmpty_iff, hd])
  | cons r rs => exact ofRecords_of_fitting ((fitting_iff hd _ _).2 ⟨h, rfl⟩)

theorem missing_of_flawless (hd : d ≠ "") (h : Flawless d (rs.map Record.name)) :
    ofRecords rs d = .error .missingRoot ↔
      rs = [] ∨ ∀ r ∈ rs.head?, ∀ q ∈ rs, ¬ Path.AtOrBelow d q.name (Path.first d r.name) := by
  cases rs with
  | nil => simp [ofRecords, rootSegment, String.isEmpty_iff, hd]
  | cons r rs =>
    rw [missing_iff_of_fitting ((fitting_iff hd _ _).2 ⟨h, rfl⟩)]
    simp

theorem undelimited_iff (rs : List (Record α)) (d : String) :
    ofRecords rs d = .error .emptyDelimiter ↔ d = "" := by
  constructor
  · intro he
    by_contra hd
    by_cases h : Flawless d (rs.map Record.name)
    · rcases answer_of_flawless hd h with ⟨t, ht⟩ | hroot
      · rw [he] at ht
        cases ht
      · rw [he] at hroot
        cases hroot
    · exact (refused_for_names hd h).1 he
  · rintro rfl
    exact ofRecords_empty rs

/-- Without overlaps every name that starts with the root leads up to it. -/
theorem root_present (hne : rs ≠ []) (hu : Text.Unbordered d.toList) :
    ofRecords rs d ≠ .error .missingRoot := by
  by_cases hd : d = ""
  · simp [hd, ofRecords_empty]
  by_cases h : Flawless d (rs.map Record.name)
  · obtain ⟨r, rest, rfl⟩ := List.exists_cons_of_ne_nil hne
    have hf : Fitting d (Path.first d r.name) ((r :: rest).map Record.name) :=
      (fitting_iff hd _ _).2 ⟨h, rfl⟩
    obtain ⟨t, ht⟩ := ofRecords_ok_of_fitting hu hf
    simp [ht]
  · exact (refused_for_names hd h).2

/-- The answer of the strict build to every list of records under every
delimiter. -/
theorem ofRecords_judged (rs : List (Record α)) (d : String) : Judged d rs (ofRecords rs d) where
  undelimited := undelimited_iff rs d
  refused := refused_of_flawed
  missing := missing_of_flawless
  accepted hd h hroot := (answer_of_flawless hd h).resolve_right hroot
  unbordered := root_present

/-- Form comes before repetition at one name, and the earlier of two names
before the later. -/
example : rootSegment "::" ["r::a", "r::::a", "r::a", "s"] = .error (.malformedName "r::::a") ∧
    rootSegment "::" ["r::a", "r::b", "r::a", "s"] = .error (.duplicateRecord "r::a") ∧
    rootSegment "::" ["r::a", "s", "r::::a"] = .error (.multipleRoots "r" "s") := by
  decide +kernel

end UseGraph.Hierarchy
