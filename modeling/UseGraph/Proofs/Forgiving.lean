import UseGraph.Proofs.Representation

/-!
# What the forgiving build keeps

Under a root segment, the stem, the records whose names are valid and
start with it stay, the others are dropped, and what stays always makes a
hierarchy. No entry of it is out of reach, since the delimiter has no border.
Whatever the delimiter, what any build returns is what the strict one makes of
some records, or a root alone.
-/

set_option autoImplicit false

namespace UseGraph.Hierarchy

open UseGraph.Growth

variable {α : Type} {d stem s : String} {rs : List (Record α)} {t : Hierarchy α} {x : Nat}

def suits (d stem name : String) : Bool :=
  decide ("" ∉ Path.segments d name ∧ Path.first d name = stem)

theorem suits_iff : suits d stem s = true ↔ "" ∉ Path.segments d s ∧ Path.first d s = stem :=
  decide_eq_true_iff

theorem suits_eq (d stem s : String) :
    (Path.wellFormed d s && Path.first d s == stem) = suits d stem s := by
  rw [Bool.eq_iff_iff, Bool.and_eq_true, Path.wellFormed_iff, beq_iff_eq, suits_iff]

structure Kept (d stem : String) (rs : List (Record α)) (t : Hierarchy α) : Prop
    extends Rooted d (Forest.payloadIn rs) t where
  name_root : t.name t.root = stem
  nodup : (rs.map Record.name).Nodup
  below : ∀ r ∈ rs, Path.AtOrBelow d r.name stem
  mem_names : ∀ s, (∃ id < t.size, t.name id = s) ↔
    s = stem ∨ ∃ r ∈ rs, Path.AtOrBelow d r.name s

inductive Made : Hierarchy α → Prop where
  | strict {rs : List (Record α)} {d : String} {t : Hierarchy α}
      (h : ofRecords rs d = .ok t) : Made t
  | forgiving (rs : List (Record α)) (d stem : String) : Made (ofUsableRecords rs d stem)
  | alone (stem d : String) : Made (lone stem d)

theorem ofUsableRecords_cases (rs : List (Record α)) (d stem : String) :
    ofUsableRecords rs d stem = lone stem d ∨
      ofRecords (usable d stem [] rs) d = .ok (ofUsableRecords rs d stem) := by
  unfold ofUsableRecords
  by_cases he : d.isEmpty = true
  · exact Or.inl (by rw [if_pos he])
  · rw [if_neg he]
    cases hk : usable d stem [] rs with
    | nil => exact Or.inl rfl
    | cons r kept =>
      cases hok : ofRecords (r :: kept) d with
      | error e => exact Or.inl (by simp only [hok])
      | ok t => exact Or.inr (by simp only [hok])

theorem Made.built_or_lone (h : Made t) :
    (∃ d rs, Built d rs t) ∨ ∃ stem d, t = lone stem d := by
  cases h with
  | strict hok => exact Or.inl ⟨_, _, built_of_ok hok⟩
  | forgiving rs d stem =>
    rcases ofUsableRecords_cases rs d stem with hl | hok
    · exact Or.inr ⟨stem, d, hl⟩
    · exact Or.inl ⟨d, _, built_of_ok hok⟩
  | alone stem d => exact Or.inr ⟨stem, d, rfl⟩

theorem lone_payload? (stem d : String) (x : Nat) :
    (lone stem d : Hierarchy α).payload? x = none := by
  cases x <;> rfl

theorem lone_records (stem d : String) : (lone stem d : Hierarchy α).records = [] := by
  rw [records, List.filter_eq_nil_iff]
  intro x _
  simp [lone_payload?]

theorem Made.records_nodup (h : Made t) : t.records.Nodup := by
  rcases h.built_or_lone with ⟨d, rs, hb⟩ | ⟨stem, d, rfl⟩
  · exact Hierarchy.records_nodup hb.shaped
  · rw [lone_records]
    exact List.nodup_nil

theorem lone_parent? (stem d : String) (x : Nat) :
    (lone stem d : Hierarchy α).parent? x = none := by
  cases x <;> rfl

theorem lone_children (stem d : String) (x : Nat) :
    (lone stem d : Hierarchy α).children x = [] := by
  cases x <;> rfl

theorem Made.shaped (h : Made t) : Shaped t := by
  rcases h.built_or_lone with ⟨d, rs, hb⟩ | ⟨stem, d, rfl⟩
  · exact hb.shaped
  · exact ⟨by simp [lone_parent?], by simp [lone_parent?, lone_children],
      by simp [lone_children], Nat.one_pos⟩

theorem Made.root_top (h : Made t) : t.parent? t.root = none := by
  rcases h.built_or_lone with ⟨d, rs, hb⟩ | ⟨stem, d, rfl⟩
  · exact Rooted.root_top hb.toRooted
  · exact lone_parent? stem d _

theorem usable_eq (d stem : String) (seen : List String) (rs : List (Record α))
    (hn : (rs.map Record.name).Nodup) (hs : ∀ r ∈ rs, r.name ∉ seen) :
    usable d stem seen rs = rs.filter fun r => suits d stem r.name := by
  induction rs generalizing seen with
  | nil => rfl
  | cons r rs ih =>
    obtain ⟨hr, hrs⟩ := List.nodup_cons.1 (List.map_cons ▸ hn)
    obtain ⟨hseen, hrest⟩ := List.forall_mem_cons.1 hs
    have hc : seen.contains r.name = false := by simpa using hseen
    rw [usable, hc, List.filter_cons, Bool.not_false, Bool.and_true, suits_eq]
    by_cases hfit : suits d stem r.name = true
    · have hnext : ∀ q ∈ rs, q.name ∉ r.name :: seen := by
        intro q hq hm
        rcases List.mem_cons.1 hm with he | hm
        · exact hr (he ▸ List.mem_map_of_mem hq)
        · exact hrest q hq hm
      rw [if_pos hfit, if_pos hfit, ih (r.name :: seen) hrs hnext]
    · rw [if_neg hfit, if_neg hfit, ih seen hrs hrest]

theorem ofUsableRecords_of_none (hn : (rs.map Record.name).Nodup)
    (h : ∀ r ∈ rs, suits d stem r.name = false) : ofUsableRecords rs d stem = lone stem d := by
  have hnil : usable d stem [] rs = [] := by
    rw [usable_eq d stem [] rs hn (by simp), List.filter_eq_nil_iff]
    intro r hr
    simp [h r hr]
  simp [ofUsableRecords, hnil]

theorem kept_lone (hd : d ≠ "") (htop : Path.parent? d stem = none) :
    Kept d stem ([] : List (Record α)) (lone stem d) := by
  have hempty : Forest.Stands d (Forest.payloadIn ([] : List (Record α))) none #[] :=
    (Forest.grown_empty d).stands
  have hst := Forest.stands_attach hd (s := stem) (.container [] none) none hempty
    (by simp [Forest.names]) (htop ▸ .nowhere) rfl (by simp) (by simp [Content.isLeaf])
  have hpay : Function.update (Forest.payloadIn ([] : List (Record α))) stem none =
      Forest.payloadIn [] := Function.update_eq_self_iff.2 rfl
  have hname : (lone stem d : Hierarchy α).name 0 = stem := rfl
  refine ⟨⟨rfl, hd, hpay ▸ hst, Nat.one_pos, htop⟩, hname, List.nodup_nil, by simp, ?_⟩
  intro s
  constructor
  · rintro ⟨id, hid, rfl⟩
    have h0 : id = 0 := Nat.lt_one_iff.1 hid
    exact Or.inl (h0 ▸ hname)
  · rintro (rfl | ⟨r, hr, -⟩)
    · exact ⟨0, Nat.one_pos, hname⟩
    · cases hr

section Unbordered

variable (hu : Text.Unbordered d.toList)
include hu

theorem kept_of_built (h : Built d rs t) (hroot : t.name t.root = stem) : Kept d stem rs t := by
  have hbelow : ∀ r ∈ rs, Path.AtOrBelow d r.name stem := by
    intro r hr
    rw [← hroot, ← h.fitting.first r.name (List.mem_map_of_mem hr)]
    exact Path.atOrBelow_first h.delimited hu r.name
  refine ⟨h.toRooted, hroot, h.fitting.nodup, hbelow, ?_⟩
  intro s
  rw [h.mem_names]
  constructor
  · exact Or.inr
  · rintro (rfl | hs)
    · exact (h.mem_names s).1 ⟨t.root, h.root, hroot⟩
    · exact hs

theorem kept_ofRecords (h : Fitting d stem (rs.map Record.name)) :
    ∃ t, ofRecords rs d = .ok t ∧ Kept d stem rs t := by
  obtain ⟨t, hok⟩ := ofRecords_ok_of_fitting hu h
  have hb := built_of_ok hok
  refine ⟨t, hok, kept_of_built hu hb ?_⟩
  obtain ⟨s, hs⟩ := List.exists_mem_of_ne_nil _ h.inhabited
  rw [← hb.fitting.first s hs, h.first s hs]

/-- The forgiving build never falls back once a record is kept. -/
theorem kept_ofUsableRecords (hd : d ≠ "") (htop : Path.parent? d stem = none)
    (hn : (rs.map Record.name).Nodup) :
    Kept d stem (rs.filter fun r => suits d stem r.name) (ofUsableRecords rs d stem) := by
  have he : d.isEmpty = false := by simpa [String.isEmpty_iff] using hd
  have husable := usable_eq d stem [] rs hn (by simp)
  have hkn : ((rs.filter fun r => suits d stem r.name).map Record.name).Nodup :=
    hn.sublist (List.filter_sublist.map Record.name)
  have hall : ∀ s ∈ (rs.filter fun r => suits d stem r.name).map Record.name,
      "" ∉ Path.segments d s ∧ Path.first d s = stem := by
    intro s hs
    obtain ⟨r, hr, rfl⟩ := List.mem_map.1 hs
    exact suits_iff.1 (List.mem_filter.1 hr).2
  generalize (rs.filter fun r => suits d stem r.name) = kept at husable hkn hall
  simp only [ofUsableRecords, he, husable, Bool.false_eq_true, if_false]
  cases kept with
  | nil => exact kept_lone hd htop
  | cons r kept =>
    have hfit : Fitting d stem ((r :: kept).map Record.name) :=
      ⟨hd, by simp, hkn, fun s hs => (hall s hs).1, fun s hs => (hall s hs).2⟩
    obtain ⟨t, hok, hk⟩ := kept_ofRecords hu hfit
    simp only [hok]
    exact hk

end Unbordered

namespace Kept

theorem reached (h : Kept d stem rs t) (hx : x < t.size) : Climbs t.parent? x t.root := by
  rw [h.climbs_iff h.root]
  refine ⟨hx, ?_⟩
  rcases (h.mem_names (t.name x)).1 ⟨x, hx, rfl⟩ with he | ⟨r, hr, hrx⟩
  · rw [he, h.name_root]
    exact Climbs.refl stem
  · have hroot := h.name_root.symm ▸ h.below r hr
    rcases hrx.linear hroot with hc | hc
    · exact hc
    · rw [hc.eq_of_top h.top]
      exact Climbs.refl (t.name x)

theorem payload_isSome_iff (h : Kept d stem rs t) (hx : x < t.size) :
    (t.payload? x).isSome = true ↔ ∃ r ∈ rs, r.name = t.name x := by
  rw [h.payload?_eq hx, Option.isSome_iff_exists]
  constructor
  · rintro ⟨a, ha⟩
    exact ⟨_, (Forest.payloadIn_eq_some_iff rs h.nodup _ a).1 ha, rfl⟩
  · rintro ⟨⟨s, a⟩, hr, rfl⟩
    exact ⟨a, (Forest.payloadIn_eq_some_iff rs h.nodup _ a).2 hr⟩

theorem own_or_children (h : Kept d stem rs t) (hx : x < t.size) : t.children x = [] ↔
    ∀ r ∈ rs, Path.AtOrBelow d r.name (t.name x) → r.name = t.name x := by
  have htop := h.name_root ▸ h.top
  rw [h.childless_iff (rs.map Record.name) ?_ hx]
  · simp
  · intro s p hp
    have hs : s ≠ stem := by
      rintro rfl
      simp [htop] at hp
    simp [h.mem_names, hs]

theorem mem_records_iff (h : Kept d stem rs t) (x : Nat) :
    x ∈ t.records ↔ (t.payload? x).isSome = true := by
  rw [Hierarchy.mem_records_iff h.shaped]
  constructor
  · exact fun hx => hx.2
  · intro hx
    exact ⟨h.reached (lt_of_payload hx), hx⟩

theorem count_records (h : Kept d stem rs t) (x : Nat) :
    t.records.count x = if (t.payload? x).isSome then 1 else 0 := by
  rw [(records_nodup h.shaped).count]
  simp only [h.mem_records_iff]

end Kept

end UseGraph.Hierarchy
