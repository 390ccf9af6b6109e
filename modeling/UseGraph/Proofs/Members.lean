import UseGraph.Json.Basic
import UseGraph.Proofs.Crosslinks

/-!
# Records as objects and as lists

An object shows its fields in any order among members under other keys, a list
shows them in their own order and may stop before fields that are missing.
These are all the ways in which the fields of a record are found.
-/

set_option autoImplicit false

namespace UseGraph.Json

variable {v w : Json} {fields : List (String × Option Json)} {name : String}
  {members : List (Option String × Json)} {items : List Json}

def membersOf (fields : List (String × Option Json)) : List (Option String × Json) :=
  fields.filterMap fun (n, f) => f.map fun v => (some n, v)

inductive Shows (fields : List (String × Option Json)) : Json → Prop where
  | obj {members extras : List (Option String × Json)}
      (hextras : ∀ m ∈ extras, ∃ k, m.1 = some k ∧ k ∉ fields.map Prod.fst)
      (hperm : members.Perm (membersOf fields ++ extras)) : Shows fields (.obj members)
  | arr {items : List Json} (missing : Nat)
      (hitems : fields.map Prod.snd = items.map some ++ List.replicate missing none) :
      Shows fields (.arr items)

theorem membersOf_cons (name : String) (f : Option Json) (fields : List (String × Option Json)) :
    membersOf ((name, f) :: fields) =
      (f.map fun v => (some name, v)).toList ++ membersOf fields := by
  cases f <;> rfl

theorem mem_membersOf {k : Option String} :
    (k, w) ∈ membersOf fields ↔ ∃ name, k = some name ∧ (name, some w) ∈ fields := by
  constructor
  · intro h
    obtain ⟨⟨n, f⟩, hmem, hf⟩ := List.mem_filterMap.1 h
    obtain ⟨v, rfl, hv⟩ := Option.map_eq_some_iff.1 hf
    cases hv
    exact ⟨n, rfl, hmem⟩
  · rintro ⟨name, rfl, hmem⟩
    exact List.mem_filterMap.2 ⟨_, hmem, rfl⟩

theorem filter_membersOf (hn : (fields.map Prod.fst).Nodup) {f : Option Json}
    (h : (name, f) ∈ fields) : ((membersOf fields).filter fun m => m.1 == some name) =
      (f.map fun v => (some name, v)).toList := by
  have hnone : ∀ {fields : List (String × Option Json)}, name ∉ fields.map Prod.fst →
      ((membersOf fields).filter fun m => m.1 == some name) = [] := by
    intro fields hname
    refine List.filter_eq_nil_iff.2 ?_
    rintro ⟨k, w⟩ hm hk
    obtain ⟨n, rfl, hmem⟩ := mem_membersOf.1 hm
    obtain rfl := Option.some.inj (eq_of_beq hk)
    exact hname (List.mem_map_of_mem hmem)
  induction fields with
  | nil => cases h
  | cons x fields ih =>
    obtain ⟨n, g⟩ := x
    rw [List.map_cons, List.nodup_cons] at hn
    rw [membersOf_cons, List.filter_append]
    rcases List.mem_cons.1 h with hx | hrest
    · cases hx
      rw [hnone hn.1, List.append_nil]
      cases f <;> simp
    · have hne : n ≠ name := fun he => hn.1 (List.mem_map.2 ⟨_, hrest, he.symm⟩)
      rw [ih hn.2 hrest]
      cases g <;> simp [hne]

/-- A known key stands once where its field is there, and nowhere where it is missing. -/
theorem member?_eq_some_iff {f : Option Json} : member? members name = some f ↔
    (members.filter fun m => m.1 == some name) = (f.map fun v => (some name, v)).toList := by
  have hkey : ∀ m ∈ members.filter (fun m => m.1 == some name), m.1 = some name := fun m hm =>
    eq_of_beq (List.mem_filter.1 hm).2
  unfold member?
  split
  · rename_i hnil
    rw [hnil]
    cases f <;> simp
  · rename_i m hone
    obtain ⟨k, v⟩ := m
    obtain rfl : k = some name := hkey _ (by rw [hone]; exact List.mem_singleton_self _)
    rw [hone]
    cases f <;> simp
  · rename_i hnil hone
    constructor
    · intro h
      cases h
    · intro h
      cases f with
      | none => exact absurd h hnil
      | some v => exact absurd h (hone _)

theorem mapM_fields {read : String → Option (Option Json)} :
    (fields.map Prod.fst).mapM read = some (fields.map Prod.snd) ↔
      ∀ x ∈ fields, read x.1 = some x.2 := by
  induction fields with
  | nil => simp
  | cons x fields ih =>
    rw [List.forall_mem_cons, ← ih]
    simp only [List.map_cons, List.mapM_cons, Option.pure_def, Option.bind_eq_bind,
      Option.bind_eq_some_iff, Option.some.injEq, List.cons.injEq]
    constructor
    · rintro ⟨f, hf, fs, hfs, rfl, rfl⟩
      exact ⟨hf, hfs⟩
    · rintro ⟨hf, hfs⟩
      exact ⟨_, hf, _, hfs, rfl, rfl⟩

def isKnown (fields : List (String × Option Json)) (m : Option String × Json) : Bool :=
  decide (m.1 ∈ fields.map fun x => some x.1)

theorem isKnown_iff {m : Option String × Json} :
    isKnown fields m = true ↔ m.1 ∈ fields.map fun x => some x.1 := decide_eq_true_iff

/-- The members under known keys are the fields, the others are left over. -/
theorem shows_of_members (hn : (fields.map Prod.fst).Nodup)
    (hkeys : ∀ m ∈ members, m.1.isSome = true)
    (hfields : ∀ x ∈ fields, member? members x.1 = some x.2) : Shows fields (.obj members) := by
  have hgroup : (fields.map fun x => some x.1).flatMap
      (fun k => (members.filter (isKnown fields)).filter fun m => m.1 = k) =
        membersOf fields := by
    rw [membersOf, List.filterMap_eq_flatMap_toList, List.flatMap_map]
    apply List.flatMap_congr
    intro x hx
    rw [← member?_eq_some_iff.1 (hfields x hx), List.filter_filter]
    apply List.filter_congr
    intro m _
    by_cases hm : m.1 = some x.1
    · have hknown : isKnown fields m = true := isKnown_iff.2 (hm ▸ List.mem_map_of_mem hx)
      simp [hm, hknown]
    · simp [hm]
  have hnodup : (fields.map fun x => some x.1).Nodup := by
    have hsome := hn.map (Option.some_injective String)
    rwa [List.map_map] at hsome
  have hknown := flatMap_filter_perm Prod.fst (fields.map fun x => some x.1) hnodup
    (members.filter (isKnown fields)) fun m hm => isKnown_iff.1 (List.mem_filter.1 hm).2
  rw [hgroup] at hknown
  have hextras : ∀ m ∈ members.filter fun m => !isKnown fields m,
      ∃ k, m.1 = some k ∧ k ∉ fields.map Prod.fst := by
    intro m hm
    obtain ⟨hmem, hunknown⟩ := List.mem_filter.1 hm
    obtain ⟨k, hk⟩ := Option.isSome_iff_exists.1 (hkeys m hmem)
    refine ⟨k, hk, fun hin => ?_⟩
    obtain ⟨x, hx, rfl⟩ := List.mem_map.1 hin
    have hyes : isKnown fields m = true := isKnown_iff.2 (hk ▸ List.mem_map_of_mem hx)
    rw [hyes] at hunknown
    cases hunknown
  exact .obj hextras
    ((List.filter_append_perm (isKnown fields) members).symm.trans (hknown.symm.append_right _))

/-- Neither the order of an object's members nor what stands under other keys matters. -/
theorem members_of_perm {extras : List (Option String × Json)} (hn : (fields.map Prod.fst).Nodup)
    (hextras : ∀ m ∈ extras, ∃ k, m.1 = some k ∧ k ∉ fields.map Prod.fst)
    (hperm : members.Perm (membersOf fields ++ extras)) :
    (∀ m ∈ members, m.1.isSome = true) ∧ ∀ x ∈ fields, member? members x.1 = some x.2 := by
  constructor
  · rintro ⟨k, w⟩ hm
    rcases List.mem_append.1 (hperm.mem_iff.1 hm) with hm | hm
    · obtain ⟨name, rfl, -⟩ := mem_membersOf.1 hm
      rfl
    · obtain ⟨name, hk, -⟩ := hextras _ hm
      exact Option.isSome_of_eq_some hk
  · rintro ⟨name, f⟩ hx
    have hnone : (extras.filter fun m => m.1 == some name) = [] := by
      refine List.filter_eq_nil_iff.2 fun m hm hkey => ?_
      obtain ⟨k, hk, hother⟩ := hextras m hm
      obtain rfl := Option.some.inj (hk.symm.trans (eq_of_beq hkey))
      exact hother (List.mem_map_of_mem hx)
    have hfilter := hperm.filter fun m => m.1 == some name
    rw [List.filter_append, hnone, List.append_nil, filter_membersOf hn hx] at hfilter
    refine member?_eq_some_iff.2 ?_
    cases f with
    | none => exact List.perm_nil.1 hfilter
    | some w => exact List.perm_singleton.1 hfilter

theorem fields?_map_iff (hn : (fields.map Prod.fst).Nodup) :
    v.fields? (fields.map Prod.fst) = some (fields.map Prod.snd) ↔ Shows fields v := by
  constructor
  · intro h
    unfold fields? at h
    split at h
    · split at h
      · rename_i hkeys
        exact shows_of_members hn (List.all_eq_true.1 hkeys) (mapM_fields.1 h)
      · cases h
    · split at h
      · exact .arr _ (Option.some.inj h).symm
      · cases h
    · cases h
  · intro h
    cases h with
    | obj hextras hperm =>
      obtain ⟨hkeys, hfields⟩ := members_of_perm hn hextras hperm
      rw [fields?, if_pos (List.all_eq_true.2 hkeys)]
      exact mapM_fields.2 hfields
    | @arr items missing hitems =>
      have hlength : fields.length = items.length + missing := by
        simpa using congrArg List.length hitems
      have hmissing : fields.length - items.length = missing := by omega
      rw [fields?, List.length_map, if_pos (by omega), hmissing, hitems]

theorem fields?_eq_some_iff {names : List String} {fs : List (Option Json)} (hn : names.Nodup)
    (hlength : names.length = fs.length) :
    v.fields? names = some fs ↔ Shows (names.zip fs) v := by
  have hnames : (names.zip fs).map Prod.fst = names := List.map_fst_zip hlength.le
  have hfs : (names.zip fs).map Prod.snd = fs := List.map_snd_zip hlength.ge
  rw [← fields?_map_iff (hnames.symm ▸ hn), hnames, hfs]

inductive Holds (names : List String) (name : String) (w : Json) : Json → Prop where
  | member {members : List (Option String × Json)} (h : (some name, w) ∈ members) :
      Holds names name w (.obj members)
  | item {items : List Json} (h : (name, w) ∈ names.zip items) : Holds names name w (.arr items)

theorem mem_zip_iff {missing : Nat}
    (h : fields.map Prod.snd = items.map some ++ List.replicate missing none) :
    (name, w) ∈ (fields.map Prod.fst).zip items ↔ (name, some w) ∈ fields := by
  induction items generalizing fields with
  | nil =>
    refine ⟨fun hmem => by simp at hmem, fun hmem => ?_⟩
    have hsome : some w ∈ fields.map Prod.snd := List.mem_map_of_mem hmem
    rw [h, List.map_nil, List.nil_append] at hsome
    cases List.eq_of_mem_replicate hsome
  | cons item items ih =>
    cases fields with
    | nil => cases h
    | cons x fields =>
      obtain ⟨n, f⟩ := x
      rw [List.map_cons, List.map_cons, List.cons_append, List.cons.injEq] at h
      obtain ⟨rfl, hrest⟩ := h
      rw [List.map_cons, List.zip_cons_cons, List.mem_cons, List.mem_cons, ih hrest]
      simp

theorem Shows.holds_iff (h : Shows fields v) (hname : name ∈ fields.map Prod.fst) :
    Holds (fields.map Prod.fst) name w v ↔ (name, some w) ∈ fields := by
  cases h with
  | obj hextras hperm =>
    constructor
    · rintro ⟨hmem⟩
      rcases List.mem_append.1 (hperm.mem_iff.1 hmem) with hmem | hmem
      · obtain ⟨n, hn, hfield⟩ := mem_membersOf.1 hmem
        cases hn
        exact hfield
      · obtain ⟨k, hk, hother⟩ := hextras _ hmem
        cases hk
        exact absurd hname hother
    · intro hfield
      exact .member (hperm.mem_iff.2 (List.mem_append_left _ (mem_membersOf.2 ⟨name, rfl, hfield⟩)))
  | arr missing hitems =>
    constructor
    · intro hholds
      cases hholds with
      | item hmem => exact (mem_zip_iff hitems).1 hmem
    · exact fun hfield => .item ((mem_zip_iff hitems).2 hfield)

inductive Faulty (names required : List String) : Json → Prop where
  | repeated {members : List (Option String × Json)} (name : String) (hname : name ∈ names)
      (h : 1 < members.countP fun m => m.1 == some name) : Faulty names required (.obj members)
  | lacking {v : Json} (name : String) (hname : name ∈ required)
      (h : ∀ w, ¬Holds names name w v) : Faulty names required v
  | null {v : Json} (name : String) (hname : name ∈ names) (h : Holds names name .null v) :
      Faulty names required v

theorem Shows.not_faulty {required : List String} (h : Shows fields v)
    (hn : (fields.map Prod.fst).Nodup) (hrequired : ∀ name ∈ required, ∃ w, (name, some w) ∈ fields)
    (hnull : ∀ name, (name, some .null) ∉ fields) : ¬Faulty (fields.map Prod.fst) required v := by
  intro hfaulty
  cases hfaulty with
  | repeated name hname hcount =>
    obtain ⟨⟨_, f⟩, hx, rfl⟩ := List.mem_map.1 hname
    cases h with
    | obj hextras hperm =>
      have hone := member?_eq_some_iff.1 ((members_of_perm hn hextras hperm).2 _ hx)
      rw [List.countP_eq_length_filter, hone] at hcount
      cases f <;> simp at hcount
  | lacking name hname hholds =>
    obtain ⟨w, hw⟩ := hrequired name hname
    exact hholds w ((h.holds_iff (List.mem_map_of_mem hw)).2 hw)
  | null name hname hholds => exact hnull name ((h.holds_iff hname).1 hholds)

end UseGraph.Json
