import UseGraph.Proofs.Guarded.Forest
import UseGraph.Proofs.Outlines
import UseGraph.Proofs.Representation

/-!
# Reading a hierarchy with every index checked

Each read is of one entry. Ways up and walks end too where they would be cut
short. A hierarchy in which parents and children are entries is read without
any of this happening, as long as the reading begins at an entry.
-/

set_option autoImplicit false

namespace UseGraph

namespace Hierarchy

variable {α : Type} {t : Hierarchy α} {id x : Nat}

structure Enclosed (t : Hierarchy α) : Prop where
  root : t.root < t.size
  child : ∀ id, ∀ c ∈ t.children id, c < t.size
  parent : ∀ id p, t.parent? id = some p → p < t.size
  lookup : ∀ s id, t.lookup s = some id → id < t.size

namespace Shaped

variable (h : Shaped t)
include h

theorem child_lt (hx : x ∈ t.children id) : x < t.size :=
  parent?_lt_size t ((h.mem_children x id).1 hx)

theorem lt_of_parent (hp : t.parent? id = some x) : x < t.size :=
  Nat.lt_trans (h.parent_lt id x hp) (parent?_lt_size t hp)

theorem enclosed : Enclosed t where
  root := h.root
  child _ _ := h.child_lt
  parent _ _ := h.lt_of_parent
  lookup _ _ := lookup_lt

theorem ascentFrom_lt (hid : id < t.size) (k : Nat) : ∀ x ∈ t.ascentFrom k id, x < t.size := by
  induction k generalizing id with
  | zero => simpa [ascentFrom] using hid
  | succ k ih =>
    rw [ascentFrom]
    cases hp : t.parent? id with
    | none => simpa using hid
    | some p => simpa [hid] using ih (h.lt_of_parent hp)

theorem preorder_lt (le : Nat → Nat → Bool) (hx : x ∈ t.preorder le) : x < t.size :=
  lt_size_of_climbs ((mem_preorder_iff h le x).1 hx) h.root

theorem descendants_lt (hx : x ∈ t.descendants) : x < t.size :=
  lt_size_of_climbs ((mem_descendants_iff h x).1 hx) h.root

/-- No way from one entry to another leaves the entries. -/
theorem route_lt {a b : Nat} (ha : a < t.size) (hb : b < t.size) :
    ∀ x ∈ t.route a b, x < t.size := by
  intro x hx
  rw [route] at hx
  split at hx
  · cases hx
  · rename_i turn hturn
    simp only [List.mem_append, List.mem_cons, List.mem_reverse] at hx
    rcases hx with hx | rfl | hx
    · exact h.ascentFrom_lt ha t.size x ((List.takeWhile_sublist _).subset hx)
    · exact h.ascentFrom_lt hb t.size x (List.mem_of_find?_eq_some hturn)
    · exact h.ascentFrom_lt hb t.size x ((List.takeWhile_sublist _).subset hx)

end Shaped

theorem visit_length_le (wait : Nat → List Nat → List Nat) (k : Nat) (waiting : List Nat) :
    (visit wait k waiting).length ≤ k := by
  induction k generalizing waiting with
  | zero => simp [visit]
  | succ k ih =>
    cases waiting with
    | nil => simp [visit]
    | cons id rest => simpa [visit] using ih (wait id rest)

end Hierarchy

namespace Guarded

open Hierarchy

variable {α β σ : Type}

section Definitions

variable (t : Hierarchy α) (id : Nat)

def name : Option String := (t.entry? id).map Entry.name

def segment : Option String := (t.entry? id).map Entry.segment

def parent? : Option (Option Nat) := (t.entry? id).map Entry.parent

def isLeaf : Option Bool := (t.entry? id).map fun e => e.content.isLeaf

def children : Option (List Nat) := (t.entry? id).map fun e => e.content.children

def payload? : Option (Option α) := (t.entry? id).map fun e => e.content.payload?

def displayName : Option String := (name t id).map (Path.belowFirst t.delimiter)

def ascentFrom : Nat → Nat → Option (List Nat)
  | 0, _ => none
  | k + 1, id => do
    match ← parent? t id with
    | none => return [id]
    | some p => return id :: (← ascentFrom k p)

def ascent : Option (List Nat) := ascentFrom t t.size id

def fullPath : Option String := do
  let segments ← (← ascent t id).reverse.mapM (segment t)
  return t.delimiter.intercalate segments

def route (a b : Nat) : Option (List Nat) := do
  let up ← ascent t a
  let down ← ascent t b
  match down.find? fun id => up.contains id with
  | none => return []
  | some turn =>
    return up.takeWhile (· != turn) ++ turn :: (down.takeWhile (· != turn)).reverse

def visit (wait : Nat → List Nat → Option (List Nat)) : Nat → List Nat → Option (List Nat)
  | _, [] => some []
  | 0, _ :: _ => none
  | k + 1, id :: rest => do
    let next ← wait id rest
    return id :: (← visit wait k next)

def descendants : Option (List Nat) :=
  visit (fun id rest => do return rest ++ (← children t id)) t.size [t.root]

variable (le : Nat → Nat → Option Bool)

def sortedChildren : Option (List Nat) := do mergeSort le (← children t id)

def preorder : Option (List Nat) :=
  visit (fun id rest => do return (← sortedChildren t id le) ++ rest) t.size [t.root]

def records : Option (List Nat) := do
  filter (fun id => do return (← payload? t id).isSome)
    (← preorder t fun a b => some (attached a b))

def outlineFrom : Nat → Nat → Option (Outline Nat)
  | 0, _ => none
  | k + 1, id => do
    if ← isLeaf t id then return .leaf id
    else return .container id (← (← sortedChildren t id le).mapM (outlineFrom k))

def outline : Option (Outline Nat) := outlineFrom t le t.size t.root

end Definitions

def mapLabels (f : α → Option β) (o : Outline α) : Option (Outline β) :=
  o.fold fun a cs => do
    let b ← f a
    match cs with
    | none => return .leaf b
    | some cs => return .container b (← cs.mapM id)

mutual

def relabel (f : σ → α → Option (β × σ)) (s : σ) : Outline α → Option (Outline β × σ)
  | .leaf a => do
    let (b, s) ← f s a
    return (.leaf b, s)
  | .container a cs => do
    let (b, s) ← f s a
    let (ds, s) ← relabelAll f s cs
    return (.container b ds, s)

def relabelAll (f : σ → α → Option (β × σ)) (s : σ) :
    List (Outline α) → Option (List (Outline β) × σ)
  | [] => some ([], s)
  | c :: cs => do
    let (d, s) ← relabel f s c
    let (ds, s) ← relabelAll f s cs
    return (d :: ds, s)

end

section Reads

variable {t : Hierarchy α} {id : Nat} (hid : id < t.size)
include hid

theorem map_entry (f : Entry α → β) (b : β) :
    (t.entry? id).map f = some (((t.entry? id).map f).getD b) := by
  obtain ⟨e, he⟩ := entry_of_lt hid
  rw [he]
  rfl

theorem name_eq : name t id = some (t.name id) := map_entry hid _ _

theorem segment_eq : segment t id = some (t.segment id) := map_entry hid _ _

theorem isLeaf_eq : isLeaf t id = some (t.isLeaf id) := map_entry hid _ _

theorem children_eq : children t id = some (t.children id) := map_entry hid _ _

theorem parent?_eq : parent? t id = some (t.parent? id) := by
  obtain ⟨e, he⟩ := entry_of_lt hid
  rw [parent?, Hierarchy.parent?, he]
  rfl

theorem payload?_eq : payload? t id = some (t.payload? id) := by
  obtain ⟨e, he⟩ := entry_of_lt hid
  rw [payload?, Hierarchy.payload?, he]
  rfl

theorem displayName_eq : displayName t id = some (t.displayName id) := by
  rw [displayName, name_eq hid]
  rfl

end Reads

theorem names_eq {t : Hierarchy α} {ids : List Nat} (h : ∀ id ∈ ids, id < t.size) :
    ids.mapM (name t) = some (ids.map t.name) :=
  mapM_eq fun id hid => name_eq (h id hid)

/-- Beyond the entries a read ends, where without the check it gives a default. -/
example : name (Hierarchy.lone "root" "." : Hierarchy Nat) 1 = none ∧
    (Hierarchy.lone "root" "." : Hierarchy Nat).name 1 = "" := ⟨rfl, rfl⟩

section Walks

variable {t : Hierarchy α} (h : Shaped t)
include h

theorem ascentFrom_eq {id k : Nat} (hid : id < t.size) (hk : id < k) :
    ascentFrom t k id = some (t.ascentFrom k id) := by
  induction k generalizing id with
  | zero => omega
  | succ k ih =>
    rw [ascentFrom, Hierarchy.ascentFrom, parent?_eq hid]
    cases hp : t.parent? id with
    | none => rfl
    | some p =>
      have hlt := h.parent_lt id p hp
      simp [ih (h.lt_of_parent hp) (by omega)]

theorem ascent_eq {id : Nat} (hid : id < t.size) : ascent t id = some (t.ascent id) :=
  ascentFrom_eq h hid hid

theorem fullPath_eq {id : Nat} (hid : id < t.size) : fullPath t id = some (t.fullPath id) := by
  have hsegments : (t.ascent id).reverse.mapM (segment t) =
      some ((t.ascent id).reverse.map t.segment) := by
    apply mapM_eq
    intro x hx
    exact segment_eq (h.ascentFrom_lt hid t.size x (List.mem_reverse.1 hx))
  simp [fullPath, ascent_eq h hid, hsegments, Hierarchy.fullPath]

theorem route_eq {a b : Nat} (ha : a < t.size) (hb : b < t.size) :
    route t a b = some (t.route a b) := by
  simp only [route, ascent_eq h ha, ascent_eq h hb, Option.bind_eq_bind, Option.bind_some,
    Hierarchy.route]
  cases (t.ascent b).find? fun id => (t.ascent a).contains id <;> rfl

omit h in
/-- A walk that goes to its end within the bound, and finds all it asks for. -/
theorem visit_eq {ask : Nat → List Nat → Option (List Nat)} {wait : Nat → List Nat → List Nat}
    {waiting out : List Nat} {k : Nat} (hv : Visits wait waiting out) (hk : out.length ≤ k)
    (hask : ∀ id ∈ out, ∀ rest, ask id rest = some (wait id rest)) :
    visit ask k waiting = some out := by
  induction hv generalizing k with
  | done => rw [visit]
  | @step id rest out hv ih =>
    obtain ⟨hid, hout⟩ := List.forall_mem_cons.1 hask
    cases k with
    | zero => cases hk
    | succ k => simp [visit, hid rest, ih (Nat.le_of_succ_le_succ hk) hout]

theorem descendants_eq : descendants t = some t.descendants := by
  apply visit_eq (visits_descendants h) (visit_length_le _ _ _)
  intro id hid rest
  simp [children_eq (h.descendants_lt hid)]

variable {ask : Nat → Nat → Option Bool} {le : Nat → Nat → Bool}
  (hle : ∀ a b, a < t.size → b < t.size → ask a b = some (le a b))
include hle

theorem sortedChildren_eq {id : Nat} (hid : id < t.size) :
    sortedChildren t id ask = some (t.sortedChildren le id) := by
  rw [sortedChildren, children_eq hid]
  exact mergeSort_eq fun a ha b hb => hle a b (h.child_lt ha) (h.child_lt hb)

theorem preorder_eq : preorder t ask = some (t.preorder le) := by
  apply visit_eq (visits_preorder h le) (visit_length_le _ _ _)
  intro id hid rest
  simp [sortedChildren_eq h hle (h.preorder_lt le hid)]

theorem outlineFrom_eq {id k : Nat} (hid : id < t.size) (hk : t.size - id ≤ k) :
    outlineFrom t ask k id = some (t.outlineFrom le k id) := by
  induction k generalizing id with
  | zero => omega
  | succ k ih =>
    have hkids : (t.sortedChildren le id).mapM (outlineFrom t ask k) =
        some ((t.sortedChildren le id).map (t.outlineFrom le k)) := by
      apply mapM_eq
      intro c hc
      have hp := (h.mem_children c id).1 ((t.sortedChildren_perm le id).mem_iff.1 hc)
      have hlt := h.parent_lt c id hp
      exact ih (parent?_lt_size t hp) (by omega)
    simp only [outlineFrom, Hierarchy.outlineFrom, isLeaf_eq hid, sortedChildren_eq h hle hid, hkids,
      Option.bind_eq_bind, Option.bind_some]
    split <;> rfl

theorem outline_eq : outline t ask = some (t.outline le) :=
  outlineFrom_eq h hle h.root (Nat.sub_le _ _)

omit hle in
theorem records_eq : records t = some t.records := by
  have hwalk : preorder t (fun a b => some (attached a b)) = some (t.preorder attached) :=
    preorder_eq h fun _ _ _ _ => rfl
  rw [records, hwalk]
  apply filter_eq
  intro id hid
  simp [payload?_eq (h.preorder_lt attached hid)]

end Walks

section Outlines

theorem mapLabels_eq {f : α → Option β} {g : α → β} : ∀ (o : Outline α),
    (∀ a ∈ o.labels, f a = some (g a)) → mapLabels f o = some (o.map g)
  | .leaf a, h => by
    have ha := h a (by simp [Outline.labels_leaf])
    simp [mapLabels, Outline.map, Outline.fold, ha]
  | .container a cs, h => by
    rw [Outline.labels_container] at h
    obtain ⟨ha, hcs⟩ := List.forall_mem_cons.1 h
    have hkids : (cs.map (mapLabels f)).mapM id = some (cs.map (Outline.map g)) := by
      rw [List.mapM_map]
      apply mapM_eq
      intro c hc
      exact mapLabels_eq c fun x hx => hcs x (List.mem_flatMap_of_mem hc hx)
    rw [mapLabels, Outline.map, Outline.fold, Outline.fold, Outline.foldAll_eq, Outline.foldAll_eq,
      ha]
    show ((cs.map (mapLabels f)).mapM id).bind _ = _
    rw [hkids]
    rfl

variable {f : σ → α → Option (β × σ)} {g : σ → α → β × σ}

mutual

theorem relabel_eq : ∀ (o : Outline α), (∀ a ∈ o.labels, ∀ s, f s a = some (g s a)) → ∀ s,
    relabel f s o = some (o.relabel g s)
  | .leaf a, h, s => by
    simp [relabel, Outline.relabel, h a (by simp [Outline.labels_leaf]) s]
  | .container a cs, h, s => by
    rw [Outline.labels_container] at h
    obtain ⟨ha, hcs⟩ := List.forall_mem_cons.1 h
    simp [relabel, Outline.relabel, ha s, relabelAll_eq cs hcs]

theorem relabelAll_eq : ∀ (cs : List (Outline α)),
    (∀ a ∈ cs.flatMap Outline.labels, ∀ s, f s a = some (g s a)) → ∀ s,
    relabelAll f s cs = some (Outline.relabelAll g s cs)
  | [], _, _ => rfl
  | c :: cs, h, s => by
    rw [List.flatMap_cons, List.forall_mem_append] at h
    simp [relabelAll, Outline.relabelAll, relabel_eq c h.1, relabelAll_eq cs h.2]

end

end Outlines

end Guarded

end UseGraph
