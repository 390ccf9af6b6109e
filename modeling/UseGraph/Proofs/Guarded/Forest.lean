import UseGraph.Proofs.Acceptance
import UseGraph.Proofs.Guarded.Basic
import UseGraph.Proofs.Insertion

/-!
# Building a hierarchy with every index checked

An entry is changed where its name was found, and attached under the entry
that was found or made for its parent just before. Both are always there. A
leaf is asked for neither a child nor another payload: parents are made
containers first, and no two records have one name. So building a hierarchy of
any records needs no default.
-/

set_option autoImplicit false

namespace UseGraph

namespace Forest

variable {α : Type} {f : Forest α} {s : String}

def Hosts (f : Forest α) (i : Nat) : Prop := ∃ e : Entry α, f[i]? = some e ∧ e.content.isLeaf = false

def HasLeaf (f : Forest α) (s : String) : Prop :=
  ∃ (i : Nat) (e : Entry α), f[i]? = some e ∧ e.name = s ∧ e.content.isLeaf = true

theorem find?_lt {id : Nat} (h : f.find? s = some id) : id < f.size :=
  (Array.findIdx?_eq_some_iff_findIdx_eq.1 h).1

/-- Without a leaf of a name, what is found by it is a container. -/
theorem hosts_of_find? {id : Nat} (h : f.find? s = some id) (hs : ¬ f.HasLeaf s) :
    f.Hosts id := by
  have hid := find?_lt h
  have he : f[id]? = some f[id] := Array.getElem?_eq_getElem hid
  have hn := names_of_find? h
  rw [names_of_entry he, Option.some.injEq] at hn
  cases hl : f[id].content.isLeaf with
  | false => exact ⟨f[id], he, hl⟩
  | true => exact absurd ⟨id, f[id], he, hn, hl⟩ hs

/-- What was found or made to be the parent is a container. -/
theorem ensure_hosts (d : String) (f : Forest α) (names : List String) {p : Nat}
    (h : (f.ensure d names).2 = some p) : (f.ensure d names).1.Hosts p := by
  cases names with
  | nil => cases h
  | cons name up =>
    rw [ensure] at h ⊢
    cases hf : f.find? name with
    | some id =>
      simp only [hf, Option.some.injEq] at h ⊢
      have hid := find?_lt hf
      have he : (f.update id Content.promote)[id]? = some (f[id].update Content.promote) := by
        simp [update_getElem?, hid]
      exact h ▸ ⟨_, he, Content.promote_isLeaf _⟩
    | none =>
      simp only [hf, Option.some.injEq] at h ⊢
      rw [← h, Hosts, attach_getElem?, if_pos rfl]
      exact ⟨_, rfl, rfl⟩

theorem hasLeaf_update {id : Nat} {g : Content α → Content α}
    (hg : ∀ c, (g c).isLeaf = true → c.isLeaf = true) (h : (f.update id g).HasLeaf s) :
    f.HasLeaf s := by
  obtain ⟨i, e, he, hs, hl⟩ := h
  rw [update_getElem?] at he
  split at he
  · obtain ⟨k, hk, rfl⟩ := Option.map_eq_some_iff.1 he
    exact ⟨i, k, hk, hs, hg k.content hl⟩
  · exact ⟨i, e, he, hs, hl⟩

theorem hasLeaf_attach {d name : String} {p : Option Nat} {c : Content α}
    (h : (f.attach d name p c).HasLeaf s) : f.HasLeaf s ∨ c.isLeaf = true ∧ s = name := by
  obtain ⟨i, e, he, hs, hl⟩ := h
  rw [attach_getElem?] at he
  split at he
  · cases he
    exact Or.inr ⟨hl, hs.symm⟩
  · obtain ⟨k, hk, rfl⟩ := Option.map_eq_some_iff.1 he
    by_cases hp : p = some i
    · rw [if_pos hp] at hs hl
      exact Or.inl ⟨i, k, hk, hs, by simpa [Entry.update] using hl⟩
    · rw [if_neg hp] at hs hl
      exact Or.inl ⟨i, k, hk, hs, hl⟩

theorem hasLeaf_ensure {d : String} (names : List String) (h : (f.ensure d names).1.HasLeaf s) :
    f.HasLeaf s := by
  induction names with
  | nil => exact h
  | cons name up ih =>
    rw [ensure] at h
    cases hf : f.find? name with
    | some id =>
      simp only [hf] at h
      exact hasLeaf_update (by simp) h
    | none =>
      simp only [hf] at h
      cases hasLeaf_attach h with
      | inl h => exact ih h
      | inr h => exact absurd h.1 (by simp [Content.isLeaf])

/-- A record makes a leaf of no other name than its own. -/
theorem hasLeaf_insert {d : String} {r : Record α} (h : (f.insert d r).HasLeaf s) :
    f.HasLeaf s ∨ s = r.name := by
  rw [insert] at h
  cases hf : f.find? r.name with
  | some id =>
    simp only [hf] at h
    exact Or.inl (hasLeaf_update (by simp) h)
  | none =>
    have hens := hasLeaf_ensure (f := f) (d := d) (s := s) (Path.ancestors d r.name)
    generalize f.ensure d (Path.ancestors d r.name) = made at h hens
    obtain ⟨g, parent⟩ := made
    cases parent with
    | none =>
      simp only [hf] at h
      exact (hasLeaf_attach h).imp hens And.right
    | some p =>
      simp only [hf] at h
      exact (hasLeaf_attach h).imp hens And.right

end Forest

namespace Guarded

variable {α : Type} {f : Forest α}

def update (f : Forest α) (id : Nat) (g : Content α → Content α) : Option (Forest α) :=
  modify f id (Entry.update g)

def updateContainer (f : Forest α) (id : Nat) (g : Content α → Content α) :
    Option (Forest α) := do
  if (← f[id]?).content.isLeaf then none else update f id g

def attach (d : String) (f : Forest α) (name : String) (parent : Option Nat)
    (content : Content α) : Option (Forest α) := do
  let f' ←
    match parent with
    | some p => updateContainer f p (Content.addChild f.size)
    | none => some f
  return f'.push ⟨name, Path.segment d name, parent, content⟩

def ensure (d : String) (f : Forest α) : List String → Option (Forest α × Option Nat)
  | [] => some (f, none)
  | name :: up =>
    match f.find? name with
    | some id => do return (← update f id Content.promote, some id)
    | none => do
      let (g, parent) ← ensure d f up
      return (← attach d g name parent (.container [] none), some g.size)

def insert (d : String) (f : Forest α) (r : Record α) : Option (Forest α) :=
  match f.find? r.name with
  | some id => updateContainer f id (Content.fold r.payload)
  | none => do
    match ← ensure d f (Path.ancestors d r.name) with
    | (g, none) => attach d g r.name none (.container [] (some r.payload))
    | (g, some p) => attach d g r.name (some p) (.leaf r.payload)

def ofRecords (rs : List (Record α)) (d : String) : Option (Except Fault (Hierarchy α)) :=
  match Hierarchy.rootSegment d (rs.map Record.name) with
  | .error e => some (.error e)
  | .ok root => do
    let forest ← rs.foldlM (insert d) #[]
    match Forest.find? forest root with
    | none => return .error .missingRoot
    | some id => return .ok ⟨forest, id, d⟩

def lone (root d : String) : Option (Hierarchy α) := do
  return ⟨← attach d #[] root none (.container [] none), 0, d⟩

def ofUsableRecords (rs : List (Record α)) (d root : String) : Option (Hierarchy α) :=
  if d.isEmpty then lone root d
  else
    match Hierarchy.usable d root [] rs with
    | [] => lone root d
    | kept => do
      match ← ofRecords kept d with
      | .ok t => return t
      | .error _ => lone root d

theorem updateContainer_eq {id : Nat} (h : f.Hosts id) (g : Content α → Content α) :
    updateContainer f id g = some (f.update id g) := by
  obtain ⟨e, he, hl⟩ := h
  simp only [updateContainer, he, hl, Option.bind_eq_bind, Option.bind_some, Bool.false_eq_true,
    if_false]
  exact modify_eq (Array.getElem?_eq_some_iff.1 he).1 _

theorem attach_eq (d : String) (s : String) {p : Option Nat} (c : Content α)
    (h : ∀ i, p = some i → f.Hosts i) : attach d f s p c = some (f.attach d s p c) := by
  cases p with
  | none => rfl
  | some i => simp [attach, Forest.attach, updateContainer_eq (h i rfl)]

theorem ensure_eq (d : String) (f : Forest α) (names : List String) :
    ensure d f names = some (f.ensure d names) := by
  induction names with
  | nil => rfl
  | cons name up ih =>
    rw [ensure, Forest.ensure]
    cases hf : f.find? name with
    | some id => simp [update, modify_eq (Forest.find?_lt hf), Forest.update]
    | none =>
      have hp := attach_eq d name (.container [] none) fun _ => Forest.ensure_hosts d f up
      simp [ih, hp]

theorem insert_eq (d : String) {r : Record α} (h : ¬ f.HasLeaf r.name) :
    insert d f r = some (f.insert d r) := by
  rw [insert, Forest.insert]
  cases hf : f.find? r.name with
  | some id => exact updateContainer_eq (Forest.hosts_of_find? hf h) _
  | none =>
    have hp := fun i => Forest.ensure_hosts d f (Path.ancestors d r.name) (p := i)
    simp only [ensure_eq, Option.bind_eq_bind, Option.bind_some]
    generalize f.ensure d (Path.ancestors d r.name) = made at hp ⊢
    obtain ⟨g, parent⟩ := made
    cases parent with
    | none => exact attach_eq d r.name _ hp
    | some p => exact attach_eq d r.name _ hp

/-- Records of different names, none of which is that of a leaf yet. -/
theorem insert_all_eq (d : String) {rs : List (Record α)} (hn : (rs.map Record.name).Nodup)
    (h : ∀ r ∈ rs, ¬ f.HasLeaf r.name) :
    rs.foldlM (insert d) f = some (rs.foldl (Forest.insert d) f) := by
  induction rs generalizing f with
  | nil => rfl
  | cons r rs ih =>
    obtain ⟨hr, hrs⟩ := List.nodup_cons.1 (List.map_cons ▸ hn)
    obtain ⟨hfree, hrest⟩ := List.forall_mem_cons.1 h
    rw [List.foldlM_cons, insert_eq d hfree]
    apply ih hrs
    intro q hq hleaf
    cases Forest.hasLeaf_insert hleaf with
    | inl hleaf => exact hrest q hq hleaf
    | inr he => exact hr (he ▸ List.mem_map_of_mem hq)

theorem ofRecords_eq (rs : List (Record α)) (d : String) :
    ofRecords rs d = some (Hierarchy.ofRecords rs d) := by
  rw [ofRecords, Hierarchy.ofRecords]
  cases hroot : Hierarchy.rootSegment d (rs.map Record.name) with
  | error e => rfl
  | ok root =>
    have hn := ((Hierarchy.rootSegment_ok_iff d root _).1 hroot).nodup
    have hrun : rs.foldlM (insert d) #[] = some (Forest.ofRecords d rs) :=
      insert_all_eq d hn (by simp [Forest.HasLeaf])
    simp only [hrun, Option.bind_eq_bind, Option.bind_some]
    cases (Forest.ofRecords d rs).find? root <;> rfl

theorem lone_eq (root d : String) : lone root d = some (Hierarchy.lone root d : Hierarchy α) := rfl

/-- No records, delimiter or root lead out of the entries there are. -/
theorem ofUsableRecords_eq (rs : List (Record α)) (d root : String) :
    ofUsableRecords rs d root = some (Hierarchy.ofUsableRecords rs d root) := by
  rw [ofUsableRecords, Hierarchy.ofUsableRecords]
  split
  · exact lone_eq root d
  · cases Hierarchy.usable d root [] rs with
    | nil => exact lone_eq root d
    | cons r kept =>
      simp only [ofRecords_eq, Option.bind_eq_bind, Option.bind_some]
      cases Hierarchy.ofRecords (r :: kept) d with
      | error e => exact lone_eq root d
      | ok t => rfl

end Guarded

end UseGraph
