import UseGraph.Hierarchy.Forest
import UseGraph.Proofs.Growth

/-!
# What holds while a forest grows

Every entry fits the list of names: its parent, its children and its payload
are determined by where names stand in that list. A leaf is an entry below
another and without children. One container may still be waiting for its
first child; the entry attached next goes under it.
-/

set_option autoImplicit false

namespace UseGraph.Forest

open UseGraph.Growth

variable {α : Type} {d s : String} {ns : List String} {f : Forest α} {i id : Nat}

def names (f : Forest α) : List String := f.toList.map Entry.name

def childIds (d : String) (ns : List String) (p : String) : List Nat :=
  (List.range ns.length).filter fun j => (ns[j]?.bind (Path.parent? d)) == some p

inductive Points (ns : List String) : Option Nat → Option String → Prop where
  | nowhere : Points ns none none
  | entry {k : Nat} {t : String} (h : ns[k]? = some t) : Points ns (some k) (some t)

structure Fits (d : String) (ns : List String) (pay : String → Option α)
    (waiting : Option Nat) (i : Nat) (e : Entry α) : Prop where
  segment : e.segment = Path.segment d e.name
  parent : Points ns e.parent (Path.parent? d e.name)
  children : e.content.children = childIds d ns e.name
  payload : e.content.payload? = pay e.name
  leaf : e.content.isLeaf = true ↔
    e.content.children = [] ∧ e.parent ≠ none ∧ waiting ≠ some i

structure Stands (d : String) (pay : String → Option α) (waiting : Option Nat)
    (f : Forest α) : Prop where
  laid : Laid d f.names
  fits : ∀ i e, f[i]? = some e → Fits d f.names pay waiting i e

theorem names_getElem? (f : Forest α) (i : Nat) : f.names[i]? = f[i]?.map Entry.name := by
  simp [names]

theorem names_of_entry {e : Entry α} (h : f[i]? = some e) : f.names[i]? = some e.name := by
  rw [names_getElem?, h, Option.map_some]

@[simp] theorem names_length (f : Forest α) : f.names.length = f.size := by
  simp [names]

theorem find?_eq_none_iff (f : Forest α) (s : String) : f.find? s = none ↔ s ∉ f.names := by
  simp [find?, names]

theorem find?_eq_findIdx? (f : Forest α) (s : String) :
    f.find? s = f.names.findIdx? (· == s) := by
  rw [find?, names, List.findIdx?_map, ← List.findIdx?_toArray]
  rfl

theorem names_of_find? (h : f.find? s = some i) : f.names[i]? = some s := by
  obtain ⟨hi, hs, -⟩ := Array.findIdx?_eq_some_iff_getElem.1 h
  rw [names_getElem?, Array.getElem?_eq_getElem hi]
  simpa using hs

theorem find?_eq_some_iff (hl : Laid d f.names) (s : String) (i : Nat) :
    f.find? s = some i ↔ f.names[i]? = some s := by
  constructor
  · exact names_of_find?
  · intro hi
    cases h : f.find? s with
    | none => exact absurd (List.mem_of_getElem? hi) ((find?_eq_none_iff f s).1 h)
    | some j => rw [hl.place_unique (names_of_find? h) hi]

theorem update_getElem? (f : Forest α) (id i : Nat) (g : Content α → Content α) :
    (f.update id g)[i]? = if id = i then f[i]?.map (Entry.update g) else f[i]? := by
  simp [update, Array.getElem?_modify]

theorem update_names (f : Forest α) (id : Nat) (g : Content α → Content α) :
    (f.update id g).names = f.names := by
  apply List.ext_getElem?
  intro i
  rw [names_getElem?, names_getElem?, update_getElem?]
  split
  · simp [Option.map_map, Function.comp_def, Entry.update]
  · rfl

theorem attach_getElem? (d : String) (f : Forest α) (s : String) (p : Option Nat)
    (c : Content α) (i : Nat) :
    (f.attach d s p c)[i]? = if i = f.size then some ⟨s, Path.segment d s, p, c⟩
      else f[i]?.map fun e => if p = some i then e.update (Content.addChild f.size) else e := by
  cases p with
  | none => simp [attach, Array.getElem?_push]
  | some k =>
    have hsize : (f.update k (Content.addChild f.size)).size = f.size := by simp [update]
    simp only [attach, Array.getElem?_push, hsize, update_getElem?, Option.some.injEq]
    split
    · rfl
    · by_cases hk : k = i <;> simp [hk]

theorem attach_names (d : String) (f : Forest α) (s : String) (p : Option Nat)
    (c : Content α) : (f.attach d s p c).names = f.names ++ [s] := by
  cases p with
  | none => simp [attach, names]
  | some k =>
    have hn := update_names f k (Content.addChild f.size)
    simp only [names] at hn
    simp [attach, names, hn]

def index (f : Forest α) : List (String × Nat) := f.names.zipIdx.reverse

theorem index_update (f : Forest α) (id : Nat) (g : Content α → Content α) :
    (f.update id g).index = f.index := by
  rw [index, update_names, index]

theorem index_attach (d : String) (f : Forest α) (s : String) (p : Option Nat)
    (c : Content α) : (f.attach d s p c).index = (s, f.size) :: f.index := by
  rw [index, attach_names, List.zipIdx_append, List.reverse_append, names_length, index]
  simp

/-- What was entered under a name is what a search of the entries finds. -/
theorem lookup_index (hl : Laid d f.names) (s : String) : f.index.lookup s = f.find? s := by
  have hname : ∀ i, f.index.lookup s = some i → f.names[i]? = some s := by
    intro i h
    obtain ⟨front, back, hsplit, -⟩ := List.lookup_eq_some_iff.1 h
    have hmem : (s, i) ∈ f.index := by simp [hsplit]
    exact List.mem_zipIdx_iff_getElem?.1 (List.mem_reverse.1 hmem)
  cases h : f.index.lookup s with
  | some i => exact ((find?_eq_some_iff hl s i).2 (hname i h)).symm
  | none =>
    refine ((find?_eq_none_iff f s).2 fun hs => ?_).symm
    obtain ⟨i, hi⟩ := List.mem_iff_getElem?.1 hs
    have hmem : (s, i) ∈ f.index := List.mem_reverse.2 (List.mem_zipIdx_iff_getElem?.2 hi)
    have hne := List.lookup_eq_none_iff.1 h _ hmem
    simp at hne

theorem mem_childIds (d : String) (ns : List String) (p : String) (c : Nat) :
    c ∈ childIds d ns p ↔ ∃ t, ns[c]? = some t ∧ Path.parent? d t = some p := by
  simp only [childIds, List.mem_filter, List.mem_range, beq_iff_eq, Option.bind_eq_some_iff]
  constructor
  · exact fun h => h.2
  · rintro ⟨t, ht, hp⟩
    exact ⟨(List.getElem?_eq_some_iff.1 ht).1, t, ht, hp⟩

theorem childIds_append (d : String) (ns : List String) (s p : String) :
    childIds d (ns ++ [s]) p =
      childIds d ns p ++ if Path.parent? d s = some p then [ns.length] else [] := by
  have hold : (List.range ns.length).filter
      (fun j => ((ns ++ [s])[j]?.bind (Path.parent? d)) == some p) = childIds d ns p := by
    apply List.filter_congr
    intro j hj
    rw [List.getElem?_append_left (List.mem_range.1 hj)]
  rw [childIds, List.length_append, List.length_singleton, List.range_succ,
    List.filter_append, hold]
  by_cases h : Path.parent? d s = some p <;> simp [h]

theorem Points.of_entry {k : Nat} {t : Option String} (h : Points ns (some k) t) :
    ∃ s, t = some s ∧ ns[k]? = some s := by
  cases h with
  | entry h => exact ⟨_, rfl, h⟩

theorem Points.of_name {k : Option Nat} {t : String} (h : Points ns k (some t)) :
    ∃ j, k = some j ∧ ns[j]? = some t := by
  cases h with
  | entry h => exact ⟨_, rfl, h⟩

theorem Points.none_iff {k : Option Nat} {t : Option String} (h : Points ns k t) :
    k = none ↔ t = none := by
  cases h <;> simp

theorem Points.append {k : Option Nat} {t : Option String} (h : Points ns k t)
    (more : List String) : Points (ns ++ more) k t := by
  cases h with
  | nowhere => exact .nowhere
  | entry h =>
    exact .entry (by rw [List.getElem?_append_left (List.getElem?_eq_some_iff.1 h).1, h])

end UseGraph.Forest
