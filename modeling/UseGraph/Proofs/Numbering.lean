import UseGraph.Path
import UseGraph.Proofs.Occurrence
import UseGraph.Proofs.Readings

/-!
# Element ids never collide

Names are free text and may end like another id. But the number of an id
stands behind its last dash and can be read off again, and no number is given
out twice in a session, whether ids are asked for one by one or for a whole
drawing.
-/

set_option autoImplicit false

namespace UseGraph

theorem Text.lastCut_of_not_mem {c : Char} {a b : List Char} (hb : c ∉ b) :
    lastCut [c] (a ++ [c] ++ b) = some (a, b) := by
  refine lastCut_eq_some_iff.2 ⟨rfl, fun p q h => ?_⟩
  by_contra hlt
  simp only [List.append_assoc] at h
  rcases List.append_eq_append_iff.1 h with ⟨e, hp, he⟩ | ⟨e, ha, -⟩
  · cases e with
    | nil => simp [hp] at hlt
    | cons x e =>
      have hmem : b = e ++ [c] ++ q := by simpa using (List.cons.inj he).2
      exact hb (by simp [hmem])
  · simp only [ha, List.length_append] at hlt
    omega

namespace ElementIds

def written (name : Option String) (n : Nat) : String :=
  match name with
  | some name => "O-" ++ name ++ "-" ++ n.repr
  | none => "O-" ++ n.repr

theorem next_eq (s : ElementIds) (name : Option String) :
    s.next name = (written name (s.issued + 1), ⟨s.issued + 1⟩) := by
  cases name <;> rfl

theorem dash_not_mem_repr (n : Nat) : '-' ∉ n.repr.toList := by
  intro h
  rw [Nat.repr_eq_ofList_toDigits, String.toList_ofList] at h
  have hdigit := Nat.isDigit_of_mem_toDigits (show 0 < 10 by decide) (by decide) h
  exact absurd hdigit (by decide)

def number (id : String) : Nat := Nat.ofDigitChars 10 (Path.segment "-" id).toList 0

/-- No name hides the number, not one with dashes and digits in it either. -/
theorem number_written (name : Option String) (n : Nat) : number (written name n) = n := by
  have hcut : ∃ a, Text.lastCut "-".toList (written name n).toList = some (a, n.repr.toList) := by
    cases name with
    | none =>
      refine ⟨['O'], ?_⟩
      rw [written, String.toList_append]
      exact Text.lastCut_of_not_mem (a := ['O']) (dash_not_mem_repr n)
    | some name =>
      refine ⟨"O-".toList ++ name.toList, ?_⟩
      rw [written, String.toList_append, String.toList_append, String.toList_append]
      exact Text.lastCut_of_not_mem (dash_not_mem_repr n)
  obtain ⟨a, ha⟩ := hcut
  simp only [number, Path.segment, ha, String.toList_ofList, Nat.repr_eq_ofList_toDigits,
    Nat.ofDigitChars_ten_toDigits]

inductive Use where
  | id (name : Option String)
  | drawing (v : Packing)

def Use.names : Use → List (Option String)
  | .id name => [name]
  | .drawing v => (v.tree.outline v.heavierFirst).labels.map fun x => some (v.tree.segment x)

def Use.issue (s : ElementIds) : Use → List String × ElementIds
  | .id name => ([(s.next name).1], (s.next name).2)
  | .drawing v => ((v.drawing s).1.labels.map Packing.Circle.uid, (v.drawing s).2)

def issueAll : ElementIds → List Use → List String × ElementIds
  | s, [] => ([], s)
  | s, u :: us => ((u.issue s).1 ++ (issueAll (u.issue s).2 us).1, (issueAll (u.issue s).2 us).2)

def numbered (names : List (Option String)) (n : Nat) : List String :=
  (names.zipIdx n).map fun e => written e.1 e.2

theorem numbered_append (as bs : List (Option String)) (n : Nat) :
    numbered (as ++ bs) n = numbered as n ++ numbered bs (n + as.length) := by
  rw [numbered, List.zipIdx_append, List.map_append]
  rfl

theorem issue_drawing (s : ElementIds) (v : Packing) :
    (Use.drawing v).issue s = (numbered (Use.drawing v).names (s.issued + 1),
      ⟨s.issued + (Use.drawing v).names.length⟩) := by
  have hrun := Outline.marked_relabel (Packing.circle_eq v) (v.tree.outline v.heavierFirst) s
  have hids : (Use.drawing v).issue s =
      ((v.drawing s).1.labels.map Packing.Circle.uid, ⟨(v.drawing s).2.issued⟩) := rfl
  rw [hids, Use.names, numbered, Outline.labels_eq, Outline.labels_eq, Packing.drawing, hrun.1,
    hrun.2, List.zipIdx_map, List.zipIdx_map]
  simp only [List.map_map, List.length_map]
  rfl

theorem issue_eq (s : ElementIds) (u : Use) :
    u.issue s = (numbered u.names (s.issued + 1), ⟨s.issued + u.names.length⟩) := by
  cases u with
  | id name =>
    rw [Use.issue, next_eq]
    rfl
  | drawing v => exact issue_drawing s v

theorem issueAll_eq (s : ElementIds) (us : List Use) : issueAll s us =
    (numbered (us.flatMap Use.names) (s.issued + 1),
      ⟨s.issued + (us.flatMap Use.names).length⟩) := by
  induction us generalizing s with
  | nil => rfl
  | cons u us ih =>
    rw [issueAll, ih, issue_eq, List.flatMap_cons, numbered_append, List.length_append]
    simp only [Prod.mk.injEq, mk.injEq]
    constructor
    · congr 2
      omega
    · omega

theorem numbers_numbered (names : List (Option String)) (n : Nat) :
    (numbered names n).map number = List.range' n names.length := by
  rw [numbered, List.map_map, ← List.zipIdx_map_snd]
  apply List.map_congr_left
  intro e _
  exact number_written e.1 e.2

theorem numbered_nodup (names : List (Option String)) (n : Nat) : (numbered names n).Nodup := by
  have hnumbers : ((numbered names n).map number).Nodup := by
    rw [numbers_numbered]
    exact List.nodup_range' ..
  exact hnumbers.of_map

def issueWords : UInt64 → List (Option String) → List String
  | _, [] => []
  | w, name :: names => written name (w + 1).toNat :: issueWords (w + 1) names

theorem issueWords_eq (w : UInt64) (names : List (Option String))
    (h : w.toNat + names.length < UInt64.size) :
    issueWords w names = numbered names (w.toNat + 1) := by
  induction names generalizing w with
  | nil => rfl
  | cons name names ih =>
    rw [List.length_cons, UInt64.size] at h
    have hnext : (w + 1).toNat = w.toNat + 1 :=
      Outline.toNat_succ (by rw [UInt64.size]; omega)
    rw [issueWords, ih (w + 1) (by rw [UInt64.size]; omega), hnext]
    rfl

structure Distinct (us : List Use) (ids : List String) : Prop where
  nodup : ids.Nodup
  numbers : ids.map number = List.range' 1 ids.length
  words : (us.flatMap Use.names).length < UInt64.size →
    issueWords 0 (us.flatMap Use.names) = ids

/-- However a session is used, all its ids differ, and a word holds the count
as long as fewer ids are asked for than words can count. -/
theorem issueAll_distinct (us : List Use) : Distinct us (issueAll fresh us).1 := by
  rw [issueAll_eq]
  constructor
  · exact numbered_nodup _ _
  · rw [numbers_numbered, numbered, List.length_map, List.length_zipIdx]
    rfl
  · intro h
    exact issueWords_eq 0 _ (by simpa using h)

end ElementIds

end UseGraph
