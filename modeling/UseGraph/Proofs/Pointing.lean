import UseGraph.Proofs.Recall

/-!
# What hovering works out

Highlights come from one function of the place. After each pointing, what is
lit is the function at the last place, whatever was pointed at before, and the
function has been called once for each pointing that led to another place and
for no other. The calls are kept in a list next to the run.
-/

set_option autoImplicit false

namespace UseGraph.Hover

variable {κ η : Type} [DecidableEq κ]

def recorded (f : κ → η) (k : κ) : StateM (List κ) η := do
  modify (· ++ [k])
  return f k

structure Answer (κ η : Type) where
  changed : Bool
  highlight : Option η
  calls : List κ

def trace (f : κ → η) : List (Option κ) → Hover κ η → StateM (List κ) (List (Answer κ η))
  | [], _ => return []
  | place :: places, h => do
    let (changed, h) ← point (recorded f) place h
    let calls ← get
    let answers ← trace f places h
    return ⟨changed, h.highlight, calls⟩ :: answers

def callsFor (places : List (Option κ)) (flags : List Bool) : List κ :=
  (places.zip flags).filterMap fun (place, changed) => if changed then place else none

structure Frugal (f : κ → η) (old : Option κ) (calls : List κ) (places : List (Option κ))
    (answers : List (Answer κ η)) : Prop where
  highlights : answers.map Answer.highlight = places.map (Option.map f)
  changes : answers.map Answer.changed =
    List.zipWith (fun old new => decide (old ≠ new)) (old :: places) places
  calls : ∀ i a, answers[i]? = some a →
    a.calls = calls ++ callsFor (places.take (i + 1)) (answers.map Answer.changed)

theorem point_recorded (f : κ → η) (old new : Option κ) (calls : List κ) :
    (point (recorded f) new (settled f old)).run calls =
      ((decide (old ≠ new), settled f new), calls ++ if old ≠ new then new.toList else []) := by
  by_cases h : old = new
  · subst h
    simp only [point, settled, ↓reduceIte, StateT.run_pure, ne_eq, not_true_eq_false,
      decide_false, List.append_nil]
    rfl
  · cases new with
    | none =>
      simp only [point, settled, h, ↓reduceIte, StateT.run_pure, ne_eq, not_false_eq_true,
        decide_true, Option.toList_none, List.append_nil]
      rfl
    | some k =>
      simp only [point, settled, h, recorded, ↓reduceIte, StateT.run_bind, StateT.run_modify,
        StateT.run_pure, ne_eq, not_false_eq_true, decide_true]
      rfl

omit [DecidableEq κ] in
theorem callsFor_cons (place : Option κ) (places : List (Option κ)) (changed : Bool)
    (flags : List Bool) : callsFor (place :: places) (changed :: flags) =
      (if changed then place.toList else []) ++ callsFor places flags := by
  cases changed <;> cases place <;> simp [callsFor]

/-- One more pointing in front, and the answers stay as they must be. -/
theorem Frugal.cons {f : κ → η} {old new : Option κ} {calls : List κ}
    {places : List (Option κ)} {answers : List (Answer κ η)}
    (h : Frugal f new (calls ++ if old ≠ new then new.toList else []) places answers) :
    Frugal f old calls (new :: places)
      (⟨decide (old ≠ new), new.map f, calls ++ if old ≠ new then new.toList else []⟩ ::
        answers) where
  highlights := by rw [List.map_cons, List.map_cons, h.highlights]
  changes := by rw [List.map_cons, h.changes, List.zipWith_cons_cons]
  calls i a ha := by
    rw [List.take_succ_cons, List.map_cons, callsFor_cons]
    cases i with
    | zero =>
      obtain rfl := Option.some.inj ha
      simp [callsFor]
    | succ i =>
      rw [h.calls i a ha, List.append_assoc]
      simp only [decide_eq_true_eq]

theorem trace_settled (f : κ → η) (old : Option κ) (calls : List κ) (places : List (Option κ)) :
    Frugal f old calls places ((trace f places (settled f old)).run calls).1 := by
  induction places generalizing old calls with
  | nil => exact ⟨rfl, rfl, fun i a ha => by cases ha⟩
  | cons new places ih =>
    have hpoint := point_recorded f old new calls
    have hrun : ((trace f (new :: places) (settled f old)).run calls).1 =
        ⟨decide (old ≠ new), new.map f, calls ++ if old ≠ new then new.toList else []⟩ ::
          ((trace f places (settled f new)).run
            (calls ++ if old ≠ new then new.toList else [])).1 := by
      simp only [StateT.run] at hpoint ⊢
      simp only [trace, bind, StateT.bind, hpoint]
      rfl
    rw [hrun]
    exact (ih new _).cons

/-- From nothing hovered, every pointing tells whether its place is another
than the one before, lights what the function gives for its place, and calls
the function once if it told of a change and points at something. -/
theorem trace_frugal (f : κ → η) (places : List (Option κ)) :
    Frugal f none [] places ((trace f places empty).run []).1 :=
  trace_settled f none [] places

end UseGraph.Hover
