import Mathlib.Data.List.Chain
import UseGraph.Layout.Radial
import UseGraph.Proofs.Ascents
import UseGraph.Proofs.Conservation

/-!
# Routes through a hierarchy

Two ways up run together from the first entry they share, and a route turns
there. It is the only way between its ends that goes from entry to entry by
parents and meets none twice: once such a way goes down it cannot go up again,
so it is made of two ways up that share nothing below where they meet.
-/

set_option autoImplicit false

namespace UseGraph.Hierarchy

variable {α : Type} {t : Hierarchy α} {a b m x y : Nat} {r up down : List Nat}

def Joined (t : Hierarchy α) (x y : Nat) : Prop := t.parent? x = some y ∨ t.parent? y = some x

def Common (t : Hierarchy α) (a b x : Nat) : Prop :=
  Climbs t.parent? a x ∧ Climbs t.parent? b x

structure Simple (t : Hierarchy α) (a b : Nat) (r : List Nat) : Prop where
  first : r.head? = some a
  last : r.getLast? = some b
  nodup : r.Nodup
  joined : r.IsChain t.Joined

structure Turning (t : Hierarchy α) (m : Nat) (r up down : List Nat) : Prop where
  parts : r = up ++ m :: down
  climbs : (up ++ [m]).IsChain fun x y => t.parent? x = some y
  descends : (m :: down).IsChain fun x y => t.parent? y = some x

structure Deepest (t : Hierarchy α) (a b m : Nat) : Prop where
  common : t.Common a b m
  deeper : ∀ x, t.Common a b x → x ≠ m → t.depth x < t.depth m

structure Routed (t : Hierarchy α) (a b : Nat) : Prop where
  simple : (∃ x, t.Common a b x) → Simple t a b (t.route a b)
  turning : (∃ x, t.Common a b x) → ∃ m, Deepest t a b m ∧
    (t.route a b).count m = 1 ∧ (∃ up down, Turning t m (t.route a b) up down) ∧
    (t.route a b).length + 2 * t.depth m = t.depth a + t.depth b + 1
  back : t.route b a = (t.route a b).reverse
  apart : (¬ ∃ x, t.Common a b x) → t.route a b = []
  sole : ∀ r, Simple t a b r → r = t.route a b

def climb (t : Hierarchy α) (id top : Nat) : List Nat := (t.ascent id).takeWhile (· != top)

theorem joined_comm : t.Joined x y ↔ t.Joined y x := or_comm

theorem Simple.reverse (h : Simple t a b r) : Simple t b a r.reverse where
  first := by rw [List.head?_reverse, h.last]
  last := by rw [List.getLast?_reverse, h.first]
  nodup := List.nodup_reverse.2 h.nodup
  joined := List.isChain_reverse.2 (h.joined.imp fun _ _ => joined_comm.1)

theorem Common.symm (h : t.Common a b x) : t.Common b a x := ⟨h.2, h.1⟩

namespace Turning

variable (h : Turning t m r up down)
include h

theorem climb_head (hr : r.head? = some a) : (up ++ [m]).head? = some a := by
  rw [← hr, h.parts]
  cases up <;> rfl

theorem descent_head (hr : r.getLast? = some b) : (down.reverse ++ [m]).head? = some b := by
  rw [← List.reverse_cons, List.head?_reverse, ← hr, h.parts, List.getLast?_append_cons]

theorem descent_climbs : (down.reverse ++ [m]).IsChain fun x y => t.parent? x = some y := by
  rw [← List.reverse_cons, List.isChain_reverse]
  exact h.descends

theorem joined : r.IsChain t.Joined := by
  rw [h.parts, List.isChain_split]
  exact ⟨h.climbs.imp fun _ _ => Or.inl, h.descends.imp fun _ _ => Or.inr⟩

theorem cons (ha : t.parent? a = some y) (hy : r.head? = some y) :
    Turning t m (a :: r) (a :: up) down where
  parts := by rw [h.parts, List.cons_append]
  climbs := by
    have hhead := h.climb_head hy
    have hchain := h.climbs
    rw [List.cons_append]
    cases hup : up ++ [m] with
    | nil => simp [hup] at hhead
    | cons z rest =>
      have hz : z = y := by simpa [hup] using hhead
      rw [hup] at hchain
      exact hchain.cons_cons (hz ▸ ha)
  descends := h.descends

end Turning

/-- A way down cannot turn up again without going back. -/
theorem descends_on (hy : t.parent? y = some x) (hn : (x :: y :: r).Nodup)
    (hj : (x :: y :: r).IsChain t.Joined) :
    (x :: y :: r).IsChain fun x y => t.parent? y = some x := by
  induction r generalizing x y with
  | nil => exact List.isChain_pair.2 hy
  | cons z r ih =>
    have hrest := (List.isChain_cons_cons.1 hj).2
    have hz : t.parent? z = some y := by
      cases (List.isChain_cons_cons.1 hrest).1 with
      | inl hup =>
        have hxz : x = z := Option.some.inj (hy.symm.trans hup)
        simp [hxz] at hn
      | inr hdown => exact hdown
    exact List.isChain_cons_cons.2 ⟨hy, ih hz (List.nodup_cons.1 hn).2 hrest⟩

theorem Simple.turning (h : Simple t a b r) : ∃ m up down, Turning t m r up down := by
  induction r generalizing a with
  | nil => cases h.first
  | cons x r ih =>
    cases r with
    | nil => exact ⟨x, [], [], by simp, by simp, by simp⟩
    | cons y r =>
      have hjoined := List.isChain_cons_cons.1 h.joined
      cases hjoined.1 with
      | inl hup =>
        have hrest : Simple t y b (y :: r) :=
          ⟨rfl, by simpa using h.last, (List.nodup_cons.1 h.nodup).2, hjoined.2⟩
        obtain ⟨m, up, down, hturn⟩ := ih hrest
        exact ⟨m, x :: up, down, hturn.cons hup rfl⟩
      | inr hdown =>
        exact ⟨x, [], y :: r, by simp, by simp, descends_on hdown h.nodup h.joined⟩

namespace Shaped

variable (h : Shaped t)
include h

theorem ascent_cons (id : Nat) : ∃ rest, t.ascent id = id :: rest := by
  cases hp : t.parent? id with
  | none => exact ⟨[], ascent_of_top hp⟩
  | some p => exact ⟨t.ascent p, h.ascent_of_parent hp⟩

theorem ascent_chain (id : Nat) : (t.ascent id).IsChain fun x y => t.parent? x = some y := by
  induction id using Nat.strongRecOn with
  | ind id ih =>
    cases hp : t.parent? id with
    | none =>
      rw [ascent_of_top hp]
      exact List.isChain_singleton id
    | some p =>
      obtain ⟨rest, hrest⟩ := h.ascent_cons p
      have hchain := ih p (h.parent_lt id p hp)
      rw [hrest] at hchain
      rw [h.ascent_of_parent hp, hrest]
      exact hchain.cons_cons hp

theorem ascent_nodup (id : Nat) : (t.ascent id).Nodup := by
  have hfalls : (t.ascent id).IsChain (· > ·) :=
    (h.ascent_chain id).imp fun x y hxy => h.parent_lt x y hxy
  exact hfalls.pairwise.imp fun hlt => Nat.ne_of_gt hlt

/-- Up to an entry above, and on from there. -/
theorem ascent_split (hc : Climbs t.parent? x m) : t.ascent x = t.climb x m ++ t.ascent m := by
  unfold climb
  induction hc using Relation.ReflTransGen.head_induction_on with
  | refl =>
    obtain ⟨rest, hrest⟩ := h.ascent_cons m
    simp [hrest]
  | @head x p hp hc ih =>
    have hle := Climbs.size_le h.parent_lt hc
    have hlt := h.parent_lt x p hp
    have hne : x ≠ m := by omega
    rw [h.ascent_of_parent hp, List.takeWhile_cons_of_pos (by simpa using hne),
      List.cons_append, ← ih]

theorem depth_split (hc : Climbs t.parent? x m) :
    t.depth x = (t.climb x m).length + t.depth m := by
  rw [depth, depth, h.ascent_split hc, List.length_append]

theorem climb_chain (hc : Climbs t.parent? x m) :
    (t.climb x m ++ [m]).IsChain fun x y => t.parent? x = some y := by
  obtain ⟨rest, hrest⟩ := h.ascent_cons m
  have hchain := h.ascent_chain x
  rw [h.ascent_split hc, hrest, List.isChain_split] at hchain
  exact hchain.1

theorem climb_head (hc : Climbs t.parent? x m) : (t.climb x m ++ [m]).head? = some x := by
  obtain ⟨rest, hrest⟩ := h.ascent_cons m
  obtain ⟨above, habove⟩ := h.ascent_cons x
  have hsplit := h.ascent_split hc
  rw [habove, hrest] at hsplit
  cases hclimb : t.climb x m <;> simp_all

theorem not_mem_climb (hc : Climbs t.parent? x m) (hy : Climbs t.parent? m y) :
    y ∉ t.climb x m := by
  have hn := h.ascent_nodup x
  rw [h.ascent_split hc] at hn
  intro hmem
  exact (List.nodup_append.1 hn).2.2 y hmem y ((h.mem_ascent_iff m y).2 hy) rfl

theorem climbs_of_mem_climb (hy : y ∈ t.climb x m) : Climbs t.parent? x y :=
  (h.mem_ascent_iff x y).1 ((List.takeWhile_sublist _).mem hy)

theorem climbs_antisymm (hxy : Climbs t.parent? x y) (hyx : Climbs t.parent? y x) : x = y :=
  Nat.le_antisymm (Climbs.size_le h.parent_lt hyx) (Climbs.size_le h.parent_lt hxy)

/-- Going up there is no choice. -/
theorem ascent_of_chain (hhead : (up ++ [m]).head? = some a)
    (hchain : (up ++ [m]).IsChain fun x y => t.parent? x = some y) :
    t.ascent a = up ++ t.ascent m := by
  induction up generalizing a with
  | nil =>
    have hma : m = a := by simpa using hhead
    simp [hma]
  | cons x up ih =>
    have hxa : x = a := by simpa using hhead
    rw [List.cons_append] at hchain
    cases hup : up ++ [m] with
    | nil => simp at hup
    | cons p rest =>
      rw [hup, List.isChain_cons_cons] at hchain
      have hp := ih (a := p) (by simp [hup]) (by simpa [hup] using hchain.2)
      rw [← hxa, h.ascent_of_parent hchain.1, hp, List.cons_append]

theorem climb_of_chain (hhead : (up ++ [m]).head? = some a)
    (hchain : (up ++ [m]).IsChain fun x y => t.parent? x = some y) :
    Climbs t.parent? a m ∧ up = t.climb a m := by
  have hasc := h.ascent_of_chain hhead hchain
  obtain ⟨rest, hrest⟩ := h.ascent_cons m
  have hc : Climbs t.parent? a m := by
    rw [← h.mem_ascent_iff, hasc, hrest]
    simp
  exact ⟨hc, List.append_cancel_right (hasc.symm.trans (h.ascent_split hc))⟩

/-- The first entry of one way up that is on the other is below all they share. -/
theorem route_cases (a b : Nat) : (t.route a b = [] ∧ ∀ x, ¬ t.Common a b x) ∨
    ∃ m, t.Common a b m ∧ (∀ x, t.Common a b x → Climbs t.parent? m x) ∧
      t.route a b = t.climb a m ++ m :: (t.climb b m).reverse := by
  simp only [route]
  cases hfind : (t.ascent b).find? fun id => (t.ascent a).contains id with
  | none =>
    left
    simp only [List.find?_eq_none, List.contains_iff_mem, h.mem_ascent_iff] at hfind
    exact ⟨rfl, fun x hx => hfind x hx.2 hx.1⟩
  | some m =>
    right
    obtain ⟨hm, front, back, hb, hfront⟩ := List.find?_eq_some_iff_append.1 hfind
    simp only [List.contains_iff_mem, h.mem_ascent_iff, Bool.not_eq_true',
      Bool.eq_false_iff, ne_eq] at hm hfront
    have hbm : Climbs t.parent? b m := by
      rw [← h.mem_ascent_iff, hb]
      simp
    have hclimb : t.climb b m = front := by
      have hne : ∀ x ∈ front, (x != m) = true := by
        intro x hx
        simp only [bne_iff_ne]
        intro he
        exact hfront x hx (he ▸ hm)
      rw [climb, hb, List.takeWhile_append_of_pos hne]
      simp
    refine ⟨m, ⟨hm, hbm⟩, ?_, rfl⟩
    intro x hx
    have hmem := (h.mem_ascent_iff b x).2 hx.2
    rw [h.ascent_split hbm, hclimb, List.mem_append] at hmem
    cases hmem with
    | inl hmem => exact absurd hx.1 (hfront x hmem)
    | inr hmem => exact (h.mem_ascent_iff m x).1 hmem

section Lowest

variable (hm : t.Common a b m) (hlow : ∀ x, t.Common a b x → Climbs t.parent? m x)
include hm hlow

theorem deepest_of_lowest : Deepest t a b m where
  common := hm
  deeper x hx hne := by
    have hc := hlow x hx
    have hdepth := h.depth_split hc
    have hpos : t.climb m x ≠ [] := by
      intro hnil
      have hhead := h.climb_head hc
      rw [hnil] at hhead
      exact hne (by simpa using hhead)
    have := List.length_pos_iff.2 hpos
    omega

theorem nodup_of_lowest : (t.climb a m ++ m :: (t.climb b m).reverse).Nodup := by
  have ha := h.ascent_nodup a
  have hb := h.ascent_nodup b
  rw [h.ascent_split hm.1] at ha
  rw [h.ascent_split hm.2] at hb
  rw [List.nodup_append, List.nodup_cons, List.nodup_reverse, List.mem_reverse]
  refine ⟨(List.nodup_append.1 ha).1, ⟨h.not_mem_climb hm.2 (Climbs.refl m),
    (List.nodup_append.1 hb).1⟩, ?_⟩
  intro x hx y hy hxy
  have hax := h.climbs_of_mem_climb hx
  cases List.mem_cons.1 hy with
  | inl hym =>
    have hxm : x = m := hxy.trans hym
    exact h.not_mem_climb hm.1 (Climbs.refl m) (hxm ▸ hx)
  | inr hy =>
    have hby := h.climbs_of_mem_climb (List.mem_reverse.1 hy)
    exact h.not_mem_climb hm.1 (hlow x ⟨hax, hxy ▸ hby⟩) hx

end Lowest

theorem turning_of_common (hm : t.Common a b m) :
    Turning t m (t.climb a m ++ m :: (t.climb b m).reverse) (t.climb a m)
      (t.climb b m).reverse where
  parts := rfl
  climbs := h.climb_chain hm.1
  descends := by
    have hchain := List.isChain_reverse.2 (h.climb_chain hm.2)
    simpa using hchain

theorem simple_of_lowest (hm : t.Common a b m)
    (hlow : ∀ x, t.Common a b x → Climbs t.parent? m x) :
    Simple t a b (t.climb a m ++ m :: (t.climb b m).reverse) where
  first := by
    have hhead := h.climb_head hm.1
    cases hc : t.climb a m <;> simp_all
  last := by
    have hhead := h.climb_head hm.2
    rw [← List.reverse_reverse (t.climb b m), ← List.reverse_cons, List.head?_reverse] at hhead
    rw [List.getLast?_append_cons, hhead]
  nodup := h.nodup_of_lowest hm hlow
  joined := (h.turning_of_common hm).joined

theorem route_simple (hx : t.Common a b x) : Simple t a b (t.route a b) := by
  cases h.route_cases a b with
  | inl hnone => exact absurd hx (hnone.2 x)
  | inr hsome =>
    obtain ⟨m, hm, hlow, hr⟩ := hsome
    rw [hr]
    exact h.simple_of_lowest hm hlow

theorem route_turning (hx : t.Common a b x) : ∃ m, Deepest t a b m ∧
    (t.route a b).count m = 1 ∧ (∃ up down, Turning t m (t.route a b) up down) ∧
    (t.route a b).length + 2 * t.depth m = t.depth a + t.depth b + 1 := by
  cases h.route_cases a b with
  | inl hnone => exact absurd hx (hnone.2 x)
  | inr hsome =>
    obtain ⟨m, hm, hlow, hr⟩ := hsome
    rw [hr]
    have hn := h.nodup_of_lowest hm hlow
    have ha := h.depth_split hm.1
    have hb := h.depth_split hm.2
    refine ⟨m, h.deepest_of_lowest hm hlow, ?_, ⟨_, _, h.turning_of_common hm⟩, ?_⟩
    · exact List.count_eq_one_of_mem hn (by simp)
    · simp only [List.length_append, List.length_cons, List.length_reverse]
      omega

/-- Where two ways up meet below where they first can, they meet twice. -/
theorem eq_route (hr : Simple t a b r) : r = t.route a b := by
  obtain ⟨m, up, down, hturn⟩ := hr.turning
  obtain ⟨ham, hup⟩ := h.climb_of_chain (hturn.climb_head hr.first) hturn.climbs
  obtain ⟨hbm, hdown⟩ := h.climb_of_chain (hturn.descent_head hr.last) hturn.descent_climbs
  cases h.route_cases a b with
  | inl hnone => exact absurd ⟨ham, hbm⟩ (hnone.2 m)
  | inr hsome =>
    obtain ⟨n, hn, hlow, hroute⟩ := hsome
    have hnm := hlow m ⟨ham, hbm⟩
    have hsame : n = m := by
      by_contra hne
      have hside : ∀ c, Climbs t.parent? c m → Climbs t.parent? c n → n ∈ t.climb c m := by
        intro c hcm hcn
        have hmem := (h.mem_ascent_iff c n).2 hcn
        rw [h.ascent_split hcm, List.mem_append] at hmem
        cases hmem with
        | inl hmem => exact hmem
        | inr hmem => exact absurd (h.climbs_antisymm hnm ((h.mem_ascent_iff m n).1 hmem)) hne
      have hnup : n ∈ up := hup ▸ hside a ham hn.1
      have hndown : n ∈ down := List.mem_reverse.1 (hdown ▸ hside b hbm hn.2)
      have hnodup := hr.nodup
      rw [hturn.parts, List.nodup_append] at hnodup
      exact hnodup.2.2 n hnup n (List.mem_cons_of_mem m hndown) rfl
    rw [hturn.parts, hroute, hsame, ← hup, ← hdown, List.reverse_reverse]

theorem route_reverse (a b : Nat) : t.route b a = (t.route a b).reverse := by
  cases h.route_cases a b with
  | inl hnone =>
    cases h.route_cases b a with
    | inl hback => rw [hback.1, hnone.1, List.reverse_nil]
    | inr hback =>
      obtain ⟨m, hm, -⟩ := hback
      exact absurd hm.symm (hnone.2 m)
  | inr hsome =>
    obtain ⟨m, hm, -⟩ := hsome
    exact (h.eq_route (h.route_simple hm).reverse).symm

theorem routed (a b : Nat) : Routed t a b where
  simple hc := hc.elim fun _ hx => h.route_simple hx
  turning hc := hc.elim fun _ hx => h.route_turning hx
  back := h.route_reverse a b
  apart hno := by
    cases h.route_cases a b with
    | inl hnone => exact hnone.1
    | inr hsome => exact absurd (hsome.imp fun _ hm => hm.1) hno
  sole _ hr := h.eq_route hr

end Shaped

end Hierarchy

namespace Radial

open Hierarchy

variable {t : Hierarchy Uses}

/-- Both ends of a drawn link have the root above them. -/
theorem ends_common (h : Made t) {l : Crosslink} {x : Nat}
    (hl : l ∈ (Crosslinked.ofHierarchy t).links) (hx : l.target = some x) :
    t.Common l.source x t.root := by
  have hsource := Crosslinked.source_of_mem_links hl
  have htarget := Crosslinked.target_of_mem_links hl hx
  exact ⟨((mem_records_iff h.shaped _).1 hsource).1, ((mem_records_iff h.shaped _).1 htarget).1⟩

theorem bundle_routed (h : Made t) {u : Bundle} (hu : u ∈ (ofHierarchy t).drawing.bundles) :
    u.route.head? = some u.source ∧ u.route.getLast? = some u.target := by
  obtain ⟨l, hl, hb⟩ := List.mem_filterMap.1 hu
  rw [bundle?_eq_map] at hb
  obtain ⟨x, hx, rfl⟩ := Option.map_eq_some_iff.1 hb
  have hr := h.shaped.route_simple (ends_common h hl hx)
  simp only [List.head?_map, List.getLast?_map]
  exact ⟨congrArg _ hr.first, congrArg _ hr.last⟩

/-- A use that leads from record to record is drawn. -/
theorem bundle_of_use (h : Made t) {s : String} {x y : Nat} (hx : x ∈ t.records)
    (hs : s ∈ Crosslinked.imports t x) (hl : t.lookup s = some y) (hy : y ∈ t.records) :
    ∃ u ∈ (ofHierarchy t).drawing.bundles, u.source = t.name x ∧ u.target = t.name y := by
  have hdir := (Crosslinked.lookup_directory h s y).2 ⟨hl, hy⟩
  have hlink : (⟨x, some y⟩ : Crosslink) ∈ (Crosslinked.ofHierarchy t).links := by
    rw [Crosslinked.links_eq, List.mem_flatMap]
    exact ⟨x, hx, List.mem_map.2 ⟨s, hs, by rw [hdir]⟩⟩
  exact ⟨_, List.mem_filterMap.2 ⟨_, hlink, bundle?_eq_map _ _⟩, rfl, rfl⟩

end Radial

open Hierarchy in
/-- In whatever a build returns, the route between two entries is the one way
between them that meets no entry twice, and every drawn bundle runs along one
from its source to its target. -/
theorem made_routed :
    (∀ (α : Type) (t : Hierarchy α), Made t → ∀ a b, Routed t a b) ∧
    ∀ t : Hierarchy Uses, Made t → ∀ u ∈ (Radial.ofHierarchy t).drawing.bundles,
      u.route ≠ [] ∧ u.route.head? = some u.source ∧ u.route.getLast? = some u.target := by
  constructor
  · intro α t h a b
    exact h.shaped.routed a b
  · intro t h u hu
    obtain ⟨hfirst, hlast⟩ := Radial.bundle_routed h hu
    refine ⟨?_, hfirst, hlast⟩
    intro hnil
    simp [hnil] at hfirst

open Hierarchy Crosslinked in
/-- A route over the root, two entries of different trees, and a bundle that
goes down only. -/
theorem entwined_routed : ∃ t, ofRecords entwined "::" = .ok t ∧ Made t ∧
    (t.route 2 6 = [2, 1, 0, 5, 6] ∧ Routed t 2 6) ∧ (t.route 2 4 = [] ∧ Routed t 2 4) ∧
    ∃ u ∈ (Radial.ofHierarchy t).drawing.bundles, u.source = "r::a" ∧ u.target = "r::a::b" ∧
      u.route ≠ [] ∧ u.route.head? = some u.source ∧ u.route.getLast? = some u.target := by
  have hrun : ((ofRecords entwined "::").toOption.any fun t =>
      (t.route 2 6 = [2, 1, 0, 5, 6] ∧ t.route 2 4 = []) ∧ t.root ∈ t.ascent 1 ∧
        t.root ∈ t.ascent 2 ∧ (t.payload? 1).isSome ∧ (t.payload? 2).isSome ∧
        (t.name 1 = "r::a" ∧ t.name 2 = "r::a::b") ∧ "r::a::b" ∈ imports t 1 ∧
        t.lookup "r::a::b" = some 2) = true := by decide +kernel
  cases h : ofRecords entwined "::" with
  | error e => simp [h, Except.toOption] at hrun
  | ok t =>
    simp only [h, Except.toOption, Option.any_some, decide_eq_true_eq] at hrun
    obtain ⟨⟨hover, hapart⟩, hroot, hroot', hpay, hpay', ⟨hn, hn'⟩, huse, hlookup⟩ := hrun
    have hm : Made t := .strict h
    have hs := hm.shaped
    have hx : 1 ∈ t.records := (mem_records_iff hs 1).2 ⟨(hs.mem_ascent_iff _ _).1 hroot, hpay⟩
    have hy : 2 ∈ t.records := (mem_records_iff hs 2).2 ⟨(hs.mem_ascent_iff _ _).1 hroot', hpay'⟩
    obtain ⟨u, hu, hsource, htarget⟩ := Radial.bundle_of_use hm hx huse hlookup hy
    exact ⟨t, rfl, hm, ⟨hover, made_routed.1 _ t hm 2 6⟩, ⟨hapart, made_routed.1 _ t hm 2 4⟩,
      u, hu, hsource.trans hn, htarget.trans hn', made_routed.2 t hm u hu⟩

end UseGraph
