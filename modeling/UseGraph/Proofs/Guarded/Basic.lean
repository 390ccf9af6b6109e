/-!
# Runs that check every index

A table read beyond its end gives a default and a change beyond its end is
none, so a wrong index would pass unseen. What is written here ends instead
where an index is out of range. A run that does not end there did not need
any of the defaults.
-/

set_option autoImplicit false

namespace UseGraph.Guarded

variable {α β γ : Type}

def modify (table : Array α) (i : Nat) (f : α → α) : Option (Array α) :=
  if i < table.size then some (table.modify i f) else none

def filter (test : α → Option Bool) : List α → Option (List α)
  | [] => some []
  | x :: xs => do
    let keep ← test x
    let rest ← filter test xs
    return if keep then x :: rest else rest

def flatMap (f : α → Option (List β)) (xs : List α) : Option (List β) :=
  (xs.mapM f).map List.flatten

def filterMap (f : α → Option (Option β)) (xs : List α) : Option (List β) :=
  (xs.mapM f).map fun ys => ys.filterMap id

def mergeSort (le : α → α → Option Bool) (xs : List α) : Option (List α) :=
  if xs.all fun a => xs.all fun b => (le a b).isSome then
    some (xs.mergeSort fun a b => (le a b).getD false)
  else none

theorem modify_eq {table : Array α} {i : Nat} (h : i < table.size) (f : α → α) :
    modify table i f = some (table.modify i f) := if_pos h

theorem mapM_eq {xs : List α} {f : α → Option β} {g : α → β} (h : ∀ x ∈ xs, f x = some (g x)) :
    xs.mapM f = some (xs.map g) := by
  induction xs with
  | nil => rfl
  | cons x xs ih =>
    have hx := h x List.mem_cons_self
    have hxs := ih fun y hy => h y (List.mem_cons_of_mem x hy)
    simp [List.mapM_cons, hx, hxs]

theorem flatMap_eq {xs : List α} {f : α → Option (List β)} {g : α → List β}
    (h : ∀ x ∈ xs, f x = some (g x)) : flatMap f xs = some (xs.flatMap g) := by
  rw [flatMap, mapM_eq h, List.flatMap_def]
  rfl

theorem filterMap_eq {xs : List α} {f : α → Option (Option β)} {g : α → Option β}
    (h : ∀ x ∈ xs, f x = some (g x)) : filterMap f xs = some (xs.filterMap g) := by
  rw [filterMap, mapM_eq h, Option.map_some, List.filterMap_map]
  rfl

theorem optional_eq {o : Option α} {f : α → Option β} {g : α → β}
    (h : ∀ x, o = some x → f x = some (g x)) : o.mapM f = some (o.map g) := by
  cases o with
  | none => rfl
  | some x => simp [h x rfl]

theorem filter_eq {xs : List α} {test : α → Option Bool} {p : α → Bool}
    (h : ∀ x ∈ xs, test x = some (p x)) : filter test xs = some (xs.filter p) := by
  induction xs with
  | nil => rfl
  | cons x xs ih =>
    have hx := h x List.mem_cons_self
    have hxs := ih fun y hy => h y (List.mem_cons_of_mem x hy)
    simp [filter, hx, hxs, List.filter_cons]

theorem mergeSort_eq {xs : List α} {le : α → α → Option Bool} {r : α → α → Bool}
    (h : ∀ a ∈ xs, ∀ b ∈ xs, le a b = some (r a b)) :
    mergeSort le xs = some (xs.mergeSort r) := by
  have hall : (xs.all fun a => xs.all fun b => (le a b).isSome) = true := by
    simp only [List.all_eq_true]
    intro a ha b hb
    rw [h a ha b hb, Option.isSome_some]
  have hsame : xs.mergeSort (fun a b => (le a b).getD false) = xs.mergeSort r := by
    have hmap := List.map_mergeSort (f := id) (l := xs) (s := r)
      (r := fun a b => (le a b).getD false) fun a ha b hb => by rw [h a ha b hb]; rfl
    simpa using hmap
  rw [mergeSort, if_pos hall, hsame]

/-- A run from state to state that keeps what every step needs. -/
theorem foldlM_eq {step : β → α → Option β} {go : β → α → β} {P : β → Prop} {xs : List α} {b : β}
    (h : ∀ b, P b → ∀ x ∈ xs, step b x = some (go b x) ∧ P (go b x)) (hb : P b) :
    xs.foldlM step b = some (xs.foldl go b) := by
  induction xs generalizing b with
  | nil => rfl
  | cons x xs ih =>
    have hx := h b hb x List.mem_cons_self
    have hxs := ih (fun c hc y hy => h c hc y (List.mem_cons_of_mem x hy)) hx.2
    simp [List.foldlM_cons, hx.1, hxs]

end UseGraph.Guarded
