import Mathlib.Data.List.Forall2
import UseGraph.Hierarchy.Traversal
import UseGraph.Proofs.Standing

/-!
# Hierarchies that differ in payloads only

Nothing that is checked or grown looks at a payload. So records with the same
names and with payloads in some relation make hierarchies that agree entry for
entry, and the payloads that stand at one entry are in that relation. This
holds for every delimiter and root, and for the forgiving build as well.
-/

set_option autoImplicit false

namespace UseGraph

variable {α β : Type} {R : α → β → Prop}

structure Record.Alike (R : α → β → Prop) (r : Record α) (q : Record β) : Prop where
  name : r.name = q.name
  payload : R r.payload q.payload

inductive Content.Alike (R : α → β → Prop) : Content α → Content β → Prop where
  | leaf {a : α} {b : β} (h : R a b) : Alike R (.leaf a) (.leaf b)
  | container (cs : List Nat) {a : Option α} {b : Option β} (h : Option.Rel R a b) :
      Alike R (.container cs a) (.container cs b)

structure Entry.Alike (R : α → β → Prop) (e : Entry α) (k : Entry β) : Prop where
  name : e.name = k.name
  segment : e.segment = k.segment
  parent : e.parent = k.parent
  content : e.content.Alike R k.content

def Forest.Alike (R : α → β → Prop) (f : Forest α) (g : Forest β) : Prop :=
  ∀ i : Nat, Option.Rel (Entry.Alike R) f[i]? g[i]?

structure Hierarchy.Alike (R : α → β → Prop) (t : Hierarchy α) (u : Hierarchy β) : Prop where
  forest : t.forest.Alike R u.forest
  root : t.root = u.root
  delimiter : t.delimiter = u.delimiter

namespace Content.Alike

variable {c : Content α} {k : Content β}

theorem isLeaf_eq (h : c.Alike R k) : c.isLeaf = k.isLeaf := by
  cases h <;> rfl

theorem children_eq (h : c.Alike R k) : c.children = k.children := by
  cases h <;> rfl

theorem payload (h : c.Alike R k) : Option.Rel R c.payload? k.payload? := by
  cases h with
  | leaf h => exact .some h
  | container cs h => exact h

theorem promote (h : c.Alike R k) : c.promote.Alike R k.promote := by
  cases h with
  | leaf h => exact .container [] (.some h)
  | container cs h => exact .container cs h

theorem addChild (h : c.Alike R k) (id : Nat) : (c.addChild id).Alike R (k.addChild id) := by
  cases h with
  | leaf h => exact .leaf h
  | container cs h => exact .container (cs ++ [id]) h

theorem fold (h : c.Alike R k) {a : α} {b : β} (hab : R a b) :
    (c.fold a).Alike R (k.fold b) := by
  cases h with
  | leaf h => exact .leaf h
  | container cs h => exact .container cs (.some hab)

end Content.Alike

section Related

variable {γ δ : Type} {a : Option α} {b : Option β}

theorem rel_map {S : γ → δ → Prop} {f : α → γ} {g : β → δ} (h : Option.Rel R a b)
    (hfg : ∀ x y, R x y → S (f x) (g y)) : Option.Rel S (a.map f) (b.map g) := by
  cases h with
  | none => exact .none
  | some h => exact .some (hfg _ _ h)

theorem rel_bind {S : γ → δ → Prop} {f : α → Option γ} {g : β → Option δ}
    (h : Option.Rel R a b) (hfg : ∀ x y, R x y → Option.Rel S (f x) (g y)) :
    Option.Rel S (a.bind f) (b.bind g) := by
  cases h with
  | none => exact .none
  | some h => exact hfg _ _ h

theorem map_eq_of_rel {f : α → γ} {g : β → γ} (h : Option.Rel R a b)
    (hfg : ∀ x y, R x y → f x = g y) : a.map f = b.map g := by
  cases h with
  | none => rfl
  | some h => exact congrArg some (hfg _ _ h)

theorem bind_eq_of_rel {f : α → Option γ} {g : β → Option γ} (h : Option.Rel R a b)
    (hfg : ∀ x y, R x y → f x = g y) : a.bind f = b.bind g := by
  cases h with
  | none => rfl
  | some h => exact hfg _ _ h

theorem isSome_eq_of_rel (h : Option.Rel R a b) : a.isSome = b.isSome := by
  cases h <;> rfl

end Related

namespace Forest.Alike

variable {f : Forest α} {g : Forest β} {d : String}

theorem names_eq (h : f.Alike R g) : f.names = g.names := by
  apply List.ext_getElem?
  intro i
  rw [names_getElem?, names_getElem?]
  exact map_eq_of_rel (h i) fun _ _ he => he.name

theorem size_eq (h : f.Alike R g) : f.size = g.size := by
  simpa using congrArg List.length h.names_eq

theorem find?_eq (h : f.Alike R g) (s : String) : f.find? s = g.find? s := by
  rw [find?_eq_findIdx?, find?_eq_findIdx?, h.names_eq]

theorem update (h : f.Alike R g) (id : Nat) {p : Content α → Content α}
    {q : Content β → Content β} (hpq : ∀ c k, c.Alike R k → (p c).Alike R (q k)) :
    (f.update id p).Alike R (g.update id q) := by
  intro i
  rw [update_getElem?, update_getElem?]
  split
  · refine rel_map (h i) ?_
    intro e k he
    exact ⟨he.name, he.segment, he.parent, hpq _ _ he.content⟩
  · exact h i

theorem attach (h : f.Alike R g) (s : String) (p : Option Nat) {c : Content α}
    {k : Content β} (hc : c.Alike R k) : (f.attach d s p c).Alike R (g.attach d s p k) := by
  intro i
  rw [attach_getElem?, attach_getElem?, h.size_eq]
  split
  · exact .some ⟨rfl, rfl, rfl, hc⟩
  · refine rel_map (h i) ?_
    intro e k he
    split
    · exact ⟨he.name, he.segment, he.parent, he.content.addChild _⟩
    · exact he

theorem ensure (h : f.Alike R g) (chain : List String) :
    (f.ensure d chain).1.Alike R (g.ensure d chain).1 ∧
      (f.ensure d chain).2 = (g.ensure d chain).2 := by
  induction chain with
  | nil => exact ⟨h, rfl⟩
  | cons s up ih =>
    simp only [Forest.ensure, ← h.find?_eq s]
    cases f.find? s with
    | some id => exact ⟨h.update id fun _ _ hc => hc.promote, rfl⟩
    | none =>
      obtain ⟨hup, hparent⟩ := ih
      exact ⟨hparent ▸ hup.attach s _ (.container [] .none), congrArg some hup.size_eq⟩

theorem insert (h : f.Alike R g) {r : Record α} {q : Record β} (hr : r.Alike R q) :
    (f.insert d r).Alike R (g.insert d q) := by
  unfold Forest.insert
  rw [← hr.name, ← h.find?_eq]
  cases f.find? r.name with
  | some id => exact h.update id fun _ _ hc => hc.fold hr.payload
  | none =>
    obtain ⟨hup, hparent⟩ := h.ensure (d := d) (Path.ancestors d r.name)
    generalize f.ensure d (Path.ancestors d r.name) = made at hup hparent ⊢
    generalize g.ensure d (Path.ancestors d r.name) = made' at hup hparent ⊢
    obtain ⟨f', p⟩ := made
    obtain ⟨g', p'⟩ := made'
    cases hparent
    cases p with
    | none => exact hup.attach r.name none (.container [] (.some hr.payload))
    | some p => exact hup.attach r.name (some p) (.leaf hr.payload)

theorem foldl (h : f.Alike R g) {rs : List (Record α)} {qs : List (Record β)}
    (hrs : List.Forall₂ (Record.Alike R) rs qs) :
    (rs.foldl (Forest.insert d) f).Alike R (qs.foldl (Forest.insert d) g) := by
  induction hrs generalizing f g with
  | nil => exact h
  | cons hr _ ih => exact ih (h.insert hr)

end Forest.Alike

theorem Forest.alike_empty : Forest.Alike R (#[] : Forest α) (#[] : Forest β) := by
  intro i
  simp only [Array.getElem?_empty]
  exact .none

section Builds

variable {rs : List (Record α)} {qs : List (Record β)}

theorem names_of_alike (h : List.Forall₂ (Record.Alike R) rs qs) :
    rs.map Record.name = qs.map Record.name := by
  induction h with
  | nil => rfl
  | cons hr _ ih => rw [List.map_cons, List.map_cons, hr.name, ih]

namespace Hierarchy

theorem usable_alike (h : List.Forall₂ (Record.Alike R) rs qs) (d stem : String)
    (seen : List String) :
    List.Forall₂ (Record.Alike R) (usable d stem seen rs) (usable d stem seen qs) := by
  induction h generalizing seen with
  | nil => exact .nil
  | cons hr _ ih =>
    rw [usable, usable, ← hr.name]
    split
    · exact .cons hr (ih _)
    · exact ih _

theorem lone_alike (stem d : String) :
    (lone stem d : Hierarchy α).Alike R (lone stem d : Hierarchy β) :=
  ⟨Forest.alike_empty.attach stem none (.container [] .none), rfl, rfl⟩

/-- Both lists are refused for the same reason, or both make a hierarchy. -/
theorem ofRecords_alike (h : List.Forall₂ (Record.Alike R) rs qs) (d : String) :
    (∃ e, ofRecords rs d = .error e ∧ ofRecords qs d = .error e) ∨
      ∃ t u, ofRecords rs d = .ok t ∧ ofRecords qs d = .ok u ∧ t.Alike R u := by
  have hf : (Forest.ofRecords d rs).Alike R (Forest.ofRecords d qs) :=
    Forest.alike_empty.foldl h
  unfold ofRecords
  rw [← names_of_alike h]
  cases rootSegment d (rs.map Record.name) with
  | error e => exact Or.inl ⟨e, rfl, rfl⟩
  | ok root =>
    simp only [← hf.find?_eq root]
    cases (Forest.ofRecords d rs).find? root with
    | none => exact Or.inl ⟨_, rfl, rfl⟩
    | some id => exact Or.inr ⟨_, _, rfl, rfl, hf, rfl, rfl⟩

theorem ofUsableRecords_alike (h : List.Forall₂ (Record.Alike R) rs qs) (d stem : String) :
    (ofUsableRecords rs d stem).Alike R (ofUsableRecords qs d stem) := by
  have hkept := usable_alike h d stem []
  unfold ofUsableRecords
  split
  · exact lone_alike stem d
  · generalize usable d stem [] rs = kept at hkept
    generalize usable d stem [] qs = kept' at hkept
    cases hkept with
    | nil => exact lone_alike stem d
    | cons hr hrest =>
      rcases ofRecords_alike (.cons hr hrest) d with ⟨e, ht, hu⟩ | ⟨t, u, ht, hu, htu⟩
      · simp only [ht, hu]
        exact lone_alike stem d
      · simp only [ht, hu]
        exact htu

end Hierarchy

end Builds

namespace Hierarchy.Alike

variable {t : Hierarchy α} {u : Hierarchy β} (h : t.Alike R u)
include h

theorem size_eq : t.size = u.size := h.forest.size_eq

theorem name_eq : t.name = u.name := by
  funext x
  rw [name, name, entry?, entry?, map_eq_of_rel (h.forest x) fun _ _ he => he.name]

theorem segment_eq : t.segment = u.segment := by
  funext x
  rw [segment, segment, entry?, entry?, map_eq_of_rel (h.forest x) fun _ _ he => he.segment]

theorem isLeaf_eq : t.isLeaf = u.isLeaf := by
  funext x
  rw [isLeaf, isLeaf, entry?, entry?,
    map_eq_of_rel (h.forest x) fun _ _ he => he.content.isLeaf_eq]

theorem children_eq : t.children = u.children := by
  funext x
  rw [children, children, entry?, entry?,
    map_eq_of_rel (h.forest x) fun _ _ he => he.content.children_eq]

theorem payload (x : Nat) : Option.Rel R (t.payload? x) (u.payload? x) :=
  rel_bind (h.forest x) fun _ _ he => he.content.payload

theorem parent?_eq : t.parent? = u.parent? := by
  funext x
  exact bind_eq_of_rel (h.forest x) fun _ _ he => he.parent

theorem displayName_eq : t.displayName = u.displayName := by
  funext x
  rw [displayName, displayName, h.delimiter, h.name_eq]

theorem fullPath_eq : t.fullPath = u.fullPath := by
  have hfrom : ∀ k x, t.ascentFrom k x = u.ascentFrom k x := by
    intro k
    induction k with
    | zero => exact fun _ => rfl
    | succ k ih =>
      intro x
      simp only [ascentFrom, h.parent?_eq, ih]
  funext x
  rw [fullPath, fullPath, ascent, ascent, hfrom, h.size_eq, h.delimiter, h.segment_eq]

theorem preorder_eq (le : Nat → Nat → Bool) : t.preorder le = u.preorder le := by
  unfold preorder sortedChildren
  rw [h.children_eq, h.size_eq, h.root]

theorem records_eq : t.records = u.records := by
  rw [records, records, h.preorder_eq]
  apply List.filter_congr
  intro x _
  exact isSome_eq_of_rel (h.payload x)

end Hierarchy.Alike

end UseGraph
