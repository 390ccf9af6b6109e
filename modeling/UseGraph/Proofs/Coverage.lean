import UseGraph.Proofs.Crosslinks
import UseGraph.Proofs.Forgiving
import UseGraph.Proofs.Orders
import UseGraph.Proofs.Provenance

/-!
# What the walks cover

Both walks of a hierarchy of records come to an end and list once each entry
whose name leads up to the name of the root. With a delimiter that has no
border these are all entries, and every record is met at one of them; with
other delimiters an entry may stand in another tree of the forest, and no walk
meets it.
-/

set_option autoImplicit false

namespace UseGraph.Hierarchy

variable {α : Type} {d : String} {rs : List (Record α)} {t : Hierarchy α} {id : Nat}

structure Covered (d : String) (rs : List (Record α)) (le : Nat → Nat → Bool)
    (t : Hierarchy α) : Prop where
  descendants_end : Visits (fun id rest => rest ++ t.children id) [t.root] t.descendants
  preorder_end : Visits (fun id rest => t.sortedChildren le id ++ rest) [t.root] (t.preorder le)
  descendants_once : t.descendants.Nodup
  preorder_once : (t.preorder le).Nodup
  mem_descendants : ∀ x, x ∈ t.descendants ↔
    x < t.size ∧ Path.AtOrBelow d (t.name x) (t.name t.root)
  mem_preorder : ∀ x, x ∈ t.preorder le ↔
    x < t.size ∧ Path.AtOrBelow d (t.name x) (t.name t.root)
  all : Text.Unbordered d.toList →
    t.descendants.Perm (List.range t.size) ∧ (t.preorder le).Perm (List.range t.size)
  records : Text.Unbordered d.toList →
    (t.records.map fun x => (t.name x, t.payload? x)).Perm
      (rs.map fun r => (r.name, some r.payload))
  levels : t.descendants.Pairwise fun a b => t.depth a ≤ t.depth b
  siblings : ∀ id ∈ t.descendants, t.children id <:+: t.descendants
  attached : ∀ id, (t.children id).Pairwise (· < ·)
  subtrees : ∀ id ∈ t.preorder le, t.below le id <:+: t.preorder le
  below_eq : ∀ id ∈ t.preorder le,
    t.below le id = id :: (t.sortedChildren le id).flatMap (t.below le)
  mem_below : ∀ id ∈ t.preorder le, ∀ x,
    x ∈ t.below le id ↔ x < t.size ∧ Path.AtOrBelow d (t.name x) (t.name id)
  sorted : ∀ id, StablySorted le (t.children id) (t.sortedChildren le id)

theorem perm_range_of_mem {out : List Nat} {n : Nat} (hn : out.Nodup)
    (hmem : ∀ x, x ∈ out ↔ x < n) : out.Perm (List.range n) := by
  rw [List.perm_ext_iff_of_nodup hn List.nodup_range]
  intro x
  rw [hmem, List.mem_range]

/-- Every record is met, with its payload, at one entry. -/
theorem Kept.records_perm {stem : String} (h : Kept d stem rs t) :
    (t.records.map fun x => (t.name x, t.payload? x)).Perm
      (rs.map fun r => (r.name, some r.payload)) := by
  have hpay : ∀ x < t.size, ∀ a, t.payload? x = some a ↔ ⟨t.name x, a⟩ ∈ rs := by
    intro x hx a
    rw [h.payload?_eq hx, Forest.payloadIn_eq_some_iff rs h.nodup]
  have hout : (t.records.map fun x => (t.name x, t.payload? x)).Nodup := by
    apply List.Nodup.of_map Prod.fst
    simpa [Function.comp_def] using record_names_nodup h.toRooted
  have hin : (rs.map fun r => (r.name, some r.payload)).Nodup := by
    apply List.Nodup.of_map Prod.fst
    simpa [Function.comp_def] using h.nodup
  rw [List.perm_ext_iff_of_nodup hout hin]
  rintro ⟨s, o⟩
  simp only [List.mem_map, Prod.mk.injEq]
  constructor
  · rintro ⟨x, hx, rfl, rfl⟩
    obtain ⟨a, ha⟩ := Option.isSome_iff_exists.1 (List.mem_filter.1 hx).2
    exact ⟨⟨t.name x, a⟩, (hpay x (lt_of_mem_records hx) a).1 ha, rfl, ha.symm⟩
  · rintro ⟨r, hr, rfl, rfl⟩
    obtain ⟨x, hx, hn⟩ := (h.mem_names r.name).2 (Or.inr ⟨r, hr, Climbs.refl r.name⟩)
    have hsome : t.payload? x = some r.payload := (hpay x hx r.payload).2 (hn ▸ hr)
    refine ⟨x, ?_, hn, hsome⟩
    rw [h.mem_records_iff, hsome, Option.isSome_some]

namespace Built

theorem reached (h : Built d rs t) (hu : Text.Unbordered d.toList) (x : Nat) :
    Climbs t.parent? x t.root ↔ x < t.size :=
  ⟨fun hc => lt_size_of_climbs hc h.root, fun hx => (kept_of_built hu h rfl).reached hx⟩

theorem records_perm (h : Built d rs t) (hu : Text.Unbordered d.toList) :
    (t.records.map fun x => (t.name x, t.payload? x)).Perm
      (rs.map fun r => (r.name, some r.payload)) :=
  (kept_of_built hu h rfl).records_perm

end Built

/-- The walks of every hierarchy that the strict build returns, for every
order of siblings. -/
theorem ofRecords_covered (rs : List (Record α)) (d : String) (t : Hierarchy α)
    (h : ofRecords rs d = .ok t) (le : Nat → Nat → Bool)
    (htrans : ∀ a b c, le a b = true → le b c = true → le a c = true)
    (htotal : ∀ a b, (le a b || le b a) = true) : Covered d rs le t := by
  have hb := built_of_ok h
  have hs := hb.shaped
  have hlt : ∀ id ∈ t.preorder le, id < t.size := fun id hid =>
    lt_size_of_climbs ((mem_preorder_iff hs le id).1 hid) hb.root
  constructor
  · exact visits_descendants hs
  · exact visits_preorder hs le
  · exact descendants_nodup hs
  · exact preorder_nodup hs le
  · intro x
    rw [mem_descendants_iff hs, hb.climbs_iff hb.root]
  · intro x
    rw [mem_preorder_iff hs, hb.climbs_iff hb.root]
  · intro hu
    exact ⟨perm_range_of_mem (descendants_nodup hs) fun x =>
        (mem_descendants_iff hs x).trans (hb.reached hu x),
      perm_range_of_mem (preorder_nodup hs le) fun x =>
        (mem_preorder_iff hs le x).trans (hb.reached hu x)⟩
  · exact hb.records_perm
  · exact hs.descendants_levels
  · exact fun id hid => hs.children_infix hid
  · exact hb.children_increasing
  · exact fun id hid => hs.below_infix hid
  · exact fun id hid => hs.below_eq le (hlt id hid)
  · intro id hid x
    rw [hs.mem_below_iff le (hlt id hid), hb.climbs_iff (hlt id hid)]
  · exact t.sortedChildren_stable htrans htotal

def latestFirst (a b : Nat) : Bool := b / 2 ≤ a / 2

def nested : List (Record Nat) := [⟨"r->a->b", 2⟩, ⟨"r->c", 3⟩, ⟨"r->a", 1⟩, ⟨"r", 5⟩]

/-- The delimiter that overlaps itself leaves an entry out, the other none. -/
theorem overlapping_covered :
    (∃ t, ofRecords overlapping "::" = .ok t ∧ Covered "::" overlapping latestFirst t) ∧
    Text.Unbordered "->".toList ∧
    ∃ t, ofRecords nested "->" = .ok t ∧ Covered "->" nested latestFirst t := by
  have htrans : ∀ a b c, latestFirst a b = true → latestFirst b c = true →
      latestFirst a c = true := by
    simp only [latestFirst, decide_eq_true_eq]
    omega
  have htotal : ∀ a b, (latestFirst a b || latestFirst b a) = true := by
    simp only [latestFirst, Bool.or_eq_true, decide_eq_true_eq]
    omega
  refine ⟨?_, by decide +kernel, ?_⟩
  · obtain ⟨t, ht⟩ := overlapping_accepted
    exact ⟨t, ht, ofRecords_covered overlapping "::" t ht latestFirst htrans htotal⟩
  · obtain ⟨t, ht⟩ := accepted_of_isSome nested "->" (by decide +kernel)
    exact ⟨t, ht, ofRecords_covered nested "->" t ht latestFirst htrans htotal⟩

end UseGraph.Hierarchy
