/-!
# Names as paths

A name is a path whose segments are joined by a delimiter. The delimiter may
overlap itself, so the cuts found from the left and the cuts found from the
right can differ; both directions are defined and neither is reduced to the
other. The parent of a name ends before the last delimiter, while validity,
the first segment and the name below the root are read from the left. A cut
shortens the text unless the delimiter is empty, and only then can the tests
on lengths fail.
-/

set_option autoImplicit false

namespace UseGraph.Text

def firstCut (d : List Char) : List Char → Option (List Char × List Char)
  | [] => if d.isEmpty then some ([], []) else none
  | c :: r =>
    match d.isPrefixOf? (c :: r) with
    | some t => some ([], t)
    | none => (firstCut d r).map fun (a, b) => (c :: a, b)

def lastCut (d : List Char) : List Char → Option (List Char × List Char)
  | [] => if d.isEmpty then some ([], []) else none
  | c :: r =>
    match lastCut d r with
    | some (a, b) => some (c :: a, b)
    | none => (d.isPrefixOf? (c :: r)).map fun t => ([], t)

theorem isPrefixOf?_nil (s : List Char) : [].isPrefixOf? s = some s := rfl

theorem isPrefixOf?_cons_nil (c : Char) (d : List Char) : (c :: d).isPrefixOf? [] = none := rfl

theorem isPrefixOf?_cons (c e : Char) (d s : List Char) :
    (c :: d).isPrefixOf? (e :: s) = if c == e then d.isPrefixOf? s else none := rfl

theorem isPrefixOf?_eq_some_iff {d s t : List Char} :
    d.isPrefixOf? s = some t ↔ s = d ++ t := by
  induction d generalizing s with
  | nil => simp [isPrefixOf?_nil, eq_comm]
  | cons c d ih =>
    cases s with
    | nil => simp [isPrefixOf?_cons_nil]
    | cons e s =>
      simp only [isPrefixOf?_cons, beq_iff_eq, List.cons_append, List.cons.injEq]
      split
      · rename_i h
        simp [h, ih]
      · rename_i h
        simp [Ne.symm h]

theorem eq_append_of_firstCut {d s a b : List Char} (h : firstCut d s = some (a, b)) :
    s = a ++ d ++ b := by
  induction s generalizing a with
  | nil =>
    simp only [firstCut, List.isEmpty_iff] at h
    split at h <;> simp_all
  | cons c r ih =>
    simp only [firstCut] at h
    split at h
    · rename_i t ht
      cases h
      simpa using isPrefixOf?_eq_some_iff.1 ht
    · obtain ⟨⟨a', b'⟩, hr, he⟩ := Option.map_eq_some_iff.1 h
      cases he
      simp [ih hr]

theorem eq_append_of_lastCut {d s a b : List Char} (h : lastCut d s = some (a, b)) :
    s = a ++ d ++ b := by
  induction s generalizing a with
  | nil =>
    simp only [lastCut, List.isEmpty_iff] at h
    split at h <;> simp_all
  | cons c r ih =>
    simp only [lastCut] at h
    split at h
    · rename_i a' b' hr
      cases h
      simp [ih hr]
    · obtain ⟨t, ht, he⟩ := Option.map_eq_some_iff.1 h
      cases he
      simpa using isPrefixOf?_eq_some_iff.1 ht

def occurs (d s : List Char) : Bool := (firstCut d s).isSome

def segments (d s : List Char) : List (List Char) :=
  match firstCut d s with
  | none => [s]
  | some (a, b) => if b.length < s.length then a :: segments d b else [a, b]
termination_by s.length

def lineage (d s : List Char) : List (List Char) :=
  match lastCut d s with
  | none => [s]
  | some (a, _) => if a.length < s.length then s :: lineage d a else [s]
termination_by s.length

theorem segments_of_firstCut_eq_none {d s : List Char} (h : firstCut d s = none) :
    segments d s = [s] := by
  rw [segments]
  simp [h]

theorem length_lt_of_firstCut {d s a b : List Char} (hd : d ≠ [])
    (h : firstCut d s = some (a, b)) : b.length < s.length := by
  have hs := congrArg List.length (eq_append_of_firstCut h)
  have hl := List.length_pos_iff.2 hd
  simp only [List.length_append] at hs
  omega

theorem segments_of_firstCut_eq_some {d s a b : List Char} (hd : d ≠ [])
    (h : firstCut d s = some (a, b)) : segments d s = a :: segments d b := by
  rw [segments]
  simp [h, length_lt_of_firstCut hd h]

theorem lineage_of_lastCut_eq_none {d s : List Char} (h : lastCut d s = none) :
    lineage d s = [s] := by
  rw [lineage]
  simp [h]

theorem lineage_of_lastCut_eq_some {d s a b : List Char} (hd : d ≠ [])
    (h : lastCut d s = some (a, b)) : lineage d s = s :: lineage d a := by
  have hs := congrArg List.length (eq_append_of_lastCut h)
  have hl := List.length_pos_iff.2 hd
  simp only [List.length_append] at hs
  rw [lineage]
  simp [h, show a.length < s.length by omega]

end UseGraph.Text

namespace UseGraph.Path

def parent? (d name : String) : Option String :=
  (Text.lastCut d.toList name.toList).map fun (a, _) => String.ofList a

def segment (d name : String) : String :=
  match Text.lastCut d.toList name.toList with
  | some (_, b) => String.ofList b
  | none => name

def first (d name : String) : String :=
  match Text.firstCut d.toList name.toList with
  | some (a, _) => String.ofList a
  | none => name

def belowFirst (d name : String) : String :=
  match Text.firstCut d.toList name.toList with
  | some (_, b) => String.ofList b
  | none => name

def segments (d name : String) : List String :=
  (Text.segments d.toList name.toList).map String.ofList

def wellFormed (d name : String) : Bool :=
  (Text.segments d.toList name.toList).all fun s => !s.isEmpty

def ancestors (d name : String) : List String :=
  ((Text.lineage d.toList name.toList).drop 1).map String.ofList

end UseGraph.Path
