import UseGraph.Proofs.Outlines
import UseGraph.Proofs.Reordering
import UseGraph.Proofs.Routes
import UseGraph.Proofs.Trails

/-!
# The circle of records in another order

Records in another order stand at other indices, but by names the leaves go
round in the same order, the nested labels are the same and so are the drawn
bundles. Only what arrives at an entry is listed in the order in which its
sources were attached, and so are the bundles.
-/

set_option autoImplicit false

namespace UseGraph

inductive Outline.Alike {α β : Type} (R : α → β → Prop) : Outline α → Outline β → Prop where
  | leaf {a : α} {b : β} (h : R a b) : Alike R (.leaf a) (.leaf b)
  | container {a : α} {b : β} {cs : List (Outline α)} {ds : List (Outline β)} (h : R a b)
      (hs : List.Forall₂ (Alike R) cs ds) : Alike R (.container a cs) (.container b ds)

def Path.trail (d s : String) : List (List UInt8) :=
  (s :: ancestors d s).reverse.map fun x => Text.octets (segment d x)

namespace Hierarchy

variable {α : Type} {d s : String} {pay : String → Option α} {t u : Hierarchy α}
  {a b m n p q x y : Nat}

structure Namesake (t u : Hierarchy α) (x y : Nat) : Prop where
  left : x < t.size
  right : y < u.size
  name : t.name x = u.name y

theorem SameShape.symm (h : SameShape t u) : SameShape u t where
  root := h.root.symm
  size := h.size.symm
  names s := (h.names s).symm
  entry y hy x hx hyx := by
    have he := h.entry x hx y hy hyx.symm
    exact ⟨he.parent.symm, he.segment.symm, he.isLeaf.symm, he.payload.symm, he.children.symm⟩

theorem Namesake.symm (h : Namesake t u x y) : Namesake u t y x := ⟨h.right, h.left, h.name.symm⟩

theorem SameShape.namesake (h : SameShape t u) (hx : x < t.size) : ∃ y, Namesake t u x y := by
  obtain ⟨y, hy, hn⟩ := (h.names (t.name x)).1 ⟨x, hx, rfl⟩
  exact ⟨y, hx, hy, hn.symm⟩

theorem forall₂_namesake {xs ys : List Nat} (hn : xs.map t.name = ys.map u.name)
    (hx : ∀ x ∈ xs, x < t.size) (hy : ∀ y ∈ ys, y < u.size) :
    List.Forall₂ (Namesake t u) xs ys := by
  induction xs generalizing ys with
  | nil =>
    rw [List.map_eq_nil_iff.1 hn.symm]
    exact .nil
  | cons x xs ih =>
    cases ys with
    | nil => simp at hn
    | cons y ys =>
      obtain ⟨hxl, hxs⟩ := List.forall_mem_cons.1 hx
      obtain ⟨hyl, hys⟩ := List.forall_mem_cons.1 hy
      obtain ⟨hhead, htail⟩ := List.cons_eq_cons.1 hn
      exact .cons ⟨hxl, hyl, hhead⟩ (ih htail hxs hys)

namespace Rooted

theorem ascent_names (h : Rooted d pay t) (hx : x < t.size) :
    (t.ascent x).map t.name = t.name x :: Path.ancestors d (t.name x) := by
  induction x using Nat.strongRecOn with
  | ind x ih =>
    cases hp : t.parent? x with
    | none =>
      have htop := (h.parent?_none_iff hx).1 hp
      rw [ascent_of_top hp, Path.ancestors_of_top htop, List.map_singleton]
    | some p =>
      obtain ⟨-, hpl, hn⟩ := (h.parent?_iff x p).1 hp
      rw [h.shaped.ascent_of_parent hp, List.map_cons, ih p (h.parent_lt hp) hpl,
        Path.ancestors_of_parent h.delimited hn]

theorem trail_eq (h : Rooted d pay t) (hx : x < t.size) :
    t.trail x = Path.trail d (t.name x) := by
  rw [Path.trail, ← h.ascent_names hx, ← List.map_reverse, List.map_map, trail]
  apply List.map_congr_left
  intro y hy
  have hc := (h.shaped.mem_ascent_iff x y).1 (List.mem_reverse.1 hy)
  have hyl := Nat.lt_of_le_of_lt (Climbs.size_le h.shaped.parent_lt hc) hx
  rw [h.segment_eq hyl, Function.comp_apply]

theorem root_of_name (h : Rooted d pay t) (hx : x < t.size) :
    Climbs t.parent? x t.root ↔ Path.AtOrBelow d (t.name x) (t.name t.root) := by
  rw [h.climbs_iff h.root, and_iff_right hx]

theorem mem_record_names (h : Rooted d pay t) (s : String) : s ∈ t.records.map t.name ↔
    (∃ x < t.size, t.name x = s) ∧ Path.AtOrBelow d s (t.name t.root) ∧
      (pay s).isSome = true := by
  rw [List.mem_map]
  constructor
  · intro hs
    obtain ⟨x, hx, hn⟩ := hs
    have hxl := lt_of_mem_records hx
    have hr := (mem_records_iff h.shaped x).1 hx
    rw [h.root_of_name hxl, h.payload?_eq hxl, hn] at hr
    exact ⟨⟨x, hxl, hn⟩, hr⟩
  · intro hs
    obtain ⟨⟨x, hxl, hn⟩, hr⟩ := hs
    rw [← hn, ← h.root_of_name hxl, ← h.payload?_eq hxl] at hr
    exact ⟨x, (mem_records_iff h.shaped x).2 hr, hn⟩

theorem mem_records_of_name (h : Rooted d pay t) (hx : x < t.size) :
    x ∈ t.records ↔ t.name x ∈ t.records.map t.name := by
  constructor
  · exact List.mem_map_of_mem
  · intro hs
    obtain ⟨y, hy, hn⟩ := List.mem_map.1 hs
    rwa [← h.name_injective (lt_of_mem_records hy) hx hn]

section Both

variable (ht : Rooted d pay t) (hu : Rooted d pay u) (hs : SameShape t u)
include ht hu

theorem climbs_of_names (hx : Namesake t u x y) (hp : Namesake t u p q) :
    Climbs t.parent? x p ↔ Climbs u.parent? y q := by
  rw [ht.climbs_iff hp.left, hu.climbs_iff hp.right, hx.name, hp.name]
  simp [hx.left, hx.right]

include hs

theorem record_names_perm : (t.records.map t.name).Perm (u.records.map u.name) := by
  rw [List.perm_ext_iff_of_nodup (record_names_nodup ht) (record_names_nodup hu)]
  intro s
  rw [ht.mem_record_names, hu.mem_record_names, hs.names, hs.root]

/-- Where two ways up meet depends on names only, and so does the way there. -/
theorem route_names {a' b' : Nat} (ha : Namesake t u a a') (hb : Namesake t u b b') :
    (t.route a b).map t.name = (u.route a' b').map u.name := by
  have common : ∀ x y, Namesake t u x y → (t.Common a b x ↔ u.Common a' b' y) := fun x y hx =>
    and_congr (ht.climbs_of_names hu ha hx) (ht.climbs_of_names hu hb hx)
  have reaches : ∀ x, t.Common a b x → x < t.size := fun x hx =>
    Nat.lt_of_le_of_lt (Climbs.size_le ht.shaped.parent_lt hx.1) ha.left
  have reaches' : ∀ y, u.Common a' b' y → y < u.size := fun y hy =>
    Nat.lt_of_le_of_lt (Climbs.size_le hu.shaped.parent_lt hy.1) ha.right
  cases ht.shaped.route_cases a b with
  | inl hnone =>
    cases hu.shaped.route_cases a' b' with
    | inl hnone' => rw [hnone.1, hnone'.1, List.map_nil, List.map_nil]
    | inr hsome' =>
      obtain ⟨m', hm', -⟩ := hsome'
      obtain ⟨x, hx⟩ := hs.symm.namesake (reaches' m' hm')
      exact absurd ((common x m' hx.symm).2 hm') (hnone.2 x)
  | inr hsome =>
    obtain ⟨m, hm, hlow, hroute⟩ := hsome
    obtain ⟨y, hy⟩ := hs.namesake (reaches m hm)
    have hyc := (common m y hy).1 hm
    cases hu.shaped.route_cases a' b' with
    | inl hnone' => exact absurd hyc (hnone'.2 y)
    | inr hsome' =>
      obtain ⟨m', hm', hlow', hroute'⟩ := hsome'
      obtain ⟨x, hx⟩ := hs.symm.namesake (reaches' m' hm')
      have hmx := hlow x ((common x m' hx.symm).2 hm')
      have hym := (ht.climbs_of_names hu hy hx.symm).1 hmx
      have hsame : y = m' := hu.shaped.climbs_antisymm hym (hlow' y hyc)
      rw [hsame] at hy
      have climb : ∀ x x', Namesake t u x x' → Climbs t.parent? x m → Climbs u.parent? x' m' →
          (t.climb x m).map t.name = (u.climb x' m').map u.name := by
        intro x x' hx hc hc'
        have hl := ht.ascent_names hx.left
        have hr := hu.ascent_names hx.right
        rw [ht.shaped.ascent_split hc, List.map_append, ht.ascent_names hy.left] at hl
        rw [hu.shaped.ascent_split hc', List.map_append, hu.ascent_names hy.right, ← hx.name,
          ← hl, hy.name] at hr
        exact (List.append_cancel_right hr).symm
      rw [hroute, hroute', List.map_append, List.map_append, List.map_cons, List.map_cons,
        List.map_reverse, List.map_reverse, climb a a' ha hm.1 hm'.1, climb b b' hb hm.2 hm'.2,
        hy.name]

end Both

end Rooted

end Hierarchy

namespace Crosslinked

open Hierarchy

variable {d : String} {pay : String → Option Uses} {t : Hierarchy Uses} {x : Nat}

def named (t : Hierarchy Uses) (l : Crosslink) : String × Option String :=
  (t.name l.source, l.target.map t.name)

def namedUses (pay : String → Option Uses) (known : List String) (s : String) :
    List (String × Option String) :=
  (((pay s).map Uses.imports).getD []).map fun i => (s, if i ∈ known then some i else none)

theorem lookup_named (h : Rooted d pay t) (s : String) :
    ((directory t).lookup s).map t.name =
      if s ∈ t.records.map t.name then some s else none := by
  by_cases hs : s ∈ t.records.map t.name
  · obtain ⟨x, hx, hn⟩ := List.mem_map.1 hs
    rw [if_pos hs, (lookup_directory_iff h s x).2 ⟨hx, hn⟩, Option.map_some, hn]
  · rw [if_neg hs, Option.map_eq_none_iff, Option.eq_none_iff_forall_ne_some]
    intro x hx
    obtain ⟨hmem, hn⟩ := (lookup_directory_iff h s x).1 hx
    exact hs (List.mem_map.2 ⟨x, hmem, hn⟩)

theorem linksFrom_named (h : Rooted d pay t) (hx : x < t.size) :
    (linksFrom t (directory t) x).map (named t) =
      namedUses pay (t.records.map t.name) (t.name x) := by
  rw [linksFrom, namedUses, imports, h.payload?_eq hx, List.map_map]
  apply List.map_congr_left
  intro s _
  exact congrArg (Prod.mk _) (lookup_named h s)

theorem links_named (h : Rooted d pay t) : (ofHierarchy t).links.map (named t) =
    (t.records.map t.name).flatMap (namedUses pay (t.records.map t.name)) := by
  rw [links_eq, List.map_flatMap, List.flatMap_map]
  apply List.flatMap_congr
  intro x hx
  exact linksFrom_named h (lt_of_mem_records hx)

theorem outgoing_named (h : Rooted d pay t) (hx : x < t.size) :
    ((ofHierarchy t).outgoing x).map (named t) =
      if t.name x ∈ t.records.map t.name then
        namedUses pay (t.records.map t.name) (t.name x) else [] := by
  rw [outgoing_eq]
  by_cases hr : x ∈ t.records
  · rw [if_pos hr, if_pos ((h.mem_records_of_name hx).1 hr), linksFrom_named h hx]
  · rw [if_neg hr, if_neg (fun hn => hr ((h.mem_records_of_name hx).2 hn)), List.map_nil]

theorem incoming_named (h : Rooted d pay t) (hx : x < t.size) :
    ((ofHierarchy t).incoming x).map (fun l => t.name l.source) =
      (((ofHierarchy t).links.map (named t)).filter fun e => e.2 = some (t.name x)).map
        Prod.fst := by
  rw [incoming_eq, List.filter_map, List.map_map]
  apply congrArg
  apply List.filter_congr
  intro l hl
  simp only [Function.comp_apply, named, decide_eq_decide, Option.map_eq_some_iff]
  constructor
  · intro hlx
    exact ⟨x, hlx, rfl⟩
  · intro hlx
    obtain ⟨y, hy, hn⟩ := hlx
    have hyl := lt_of_mem_records (target_of_mem_links hl hy)
    rw [hy, h.name_injective hyl hx hn]

theorem namedUses_perm {known known' : List String} (hp : known.Perm known') :
    namedUses pay known = namedUses pay known' := by
  funext s
  unfold namedUses
  simp only [hp.mem_iff]

end Crosslinked

namespace Radial

open Hierarchy Crosslinked

variable {d : String} {pay : String → Option Uses} {t u : Hierarchy Uses} {x y : Nat}

structure Label.Alike (a b : Label) : Prop where
  name : a.name = b.name
  fullName : a.fullName = b.fullName
  displayName : a.displayName = b.displayName
  size : a.size = b.size
  outgoing : a.outgoing = b.outgoing
  incoming : a.incoming.Perm b.incoming

structure Redrawn (v w : Radial) : Prop where
  leaves : v.leaves.map v.tree.name = w.leaves.map w.tree.name
  tree : Outline.Alike Label.Alike v.drawing.tree w.drawing.tree
  bundles : v.drawing.bundles.Perm w.drawing.bundles

def routeNamed (t : Hierarchy Uses) (s s' : String) : List String :=
  match t.lookup s, t.lookup s' with
  | some a, some b => (t.route a b).map t.name
  | _, _ => []

def bundleNamed (t : Hierarchy Uses) (e : String × Option String) : Option Bundle :=
  e.2.map fun target => ⟨e.1, target, routeNamed t e.1 target⟩

theorem routeNamed_eq (h : Rooted d pay t) (hx : x < t.size) (hy : y < t.size) :
    routeNamed t (t.name x) (t.name y) = (t.route x y).map t.name := by
  rw [routeNamed, (h.lookup_iff _ x).2 ⟨hx, rfl⟩, (h.lookup_iff _ y).2 ⟨hy, rfl⟩]

theorem bundles_eq (h : Rooted d pay t) : (ofHierarchy t).drawing.bundles =
    ((Crosslinked.ofHierarchy t).links.map (named t)).filterMap (bundleNamed t) := by
  rw [List.filterMap_map]
  apply List.filterMap_congr
  intro l hl
  have htree : (ofHierarchy t).tree = t := rfl
  rw [bundle?_eq_map, htree, Function.comp_apply, bundleNamed, named, Option.map_map]
  cases hx : l.target with
  | none => rfl
  | some x =>
    have hsource := source_of_mem_links hl
    have htarget := target_of_mem_links hl hx
    simp only [Option.map_some, Function.comp_apply,
      routeNamed_eq h (lt_of_mem_records hsource) (lt_of_mem_records htarget)]

section Both

variable (ht : Rooted d pay t) (hu : Rooted d pay u) (hs : SameShape t u)
include ht hu hs

theorem links_perm : ((Crosslinked.ofHierarchy t).links.map (named t)).Perm
    ((Crosslinked.ofHierarchy u).links.map (named u)) := by
  have hrecords := ht.record_names_perm hu hs
  rw [links_named ht, links_named hu, namedUses_perm hrecords]
  exact hrecords.flatMap_right _

/-- A name leads to entries with that name in both, or in neither. -/
theorem lookup_both (s : String) : (t.lookup s = none ∧ u.lookup s = none) ∨
    ∃ x y, t.lookup s = some x ∧ u.lookup s = some y ∧ Namesake t u x y := by
  cases hx : t.lookup s with
  | some x =>
    right
    obtain ⟨hxl, hn⟩ := (ht.lookup_iff s x).1 hx
    obtain ⟨y, hy⟩ := hs.namesake hxl
    exact ⟨x, y, rfl, (hu.lookup_iff s y).2 ⟨hy.right, hy.name.symm.trans hn⟩, hy⟩
  | none =>
    left
    refine ⟨rfl, ?_⟩
    rw [Option.eq_none_iff_forall_ne_some] at hx ⊢
    intro y hy
    obtain ⟨hyl, hn⟩ := (hu.lookup_iff s y).1 hy
    obtain ⟨x, hxl, hxn⟩ := (hs.names s).2 ⟨y, hyl, hn⟩
    exact hx x ((ht.lookup_iff s x).2 ⟨hxl, hxn⟩)

theorem routeNamed_same (s s' : String) : routeNamed t s s' = routeNamed u s s' := by
  unfold routeNamed
  cases lookup_both ht hu hs s with
  | inl hnone => rw [hnone.1, hnone.2]
  | inr hsome =>
    obtain ⟨x, y, hx, hy, hxy⟩ := hsome
    cases lookup_both ht hu hs s' with
    | inl hnone' => rw [hx, hy, hnone'.1, hnone'.2]
    | inr hsome' =>
      obtain ⟨x', y', hx', hy', hxy'⟩ := hsome'
      rw [hx, hy, hx', hy']
      exact ht.route_names hu hs hxy hxy'

theorem bundles_perm_of_shape :
    (ofHierarchy t).drawing.bundles.Perm (ofHierarchy u).drawing.bundles := by
  have hsame : bundleNamed t = bundleNamed u := by
    funext e
    simp only [bundleNamed, routeNamed_same ht hu hs]
  rw [bundles_eq ht, bundles_eq hu, hsame]
  exact (links_perm ht hu hs).filterMap _

theorem label_alike (hxy : Namesake t u x y) :
    Label.Alike ((ofHierarchy t).label x) ((ofHierarchy u).label y) := by
  have he := hs.entry x hxy.left y hxy.right hxy.name
  have hrecords := ht.record_names_perm hu hs
  constructor
  · exact he.segment
  · exact hxy.name
  · have hd : t.displayName x = u.displayName y := by
      rw [displayName, displayName, ht.delimiter, hu.delimiter, hxy.name]
    exact hd
  · exact congrArg (Option.map Uses.size) he.payload
  · have hout := congrArg (List.map Prod.snd) (outgoing_named ht hxy.left)
    have hout' := congrArg (List.map Prod.snd) (outgoing_named hu hxy.right)
    rw [hxy.name, namedUses_perm hrecords] at hout
    simp only [hrecords.mem_iff] at hout
    have hboth := hout.trans hout'.symm
    rw [List.map_map, List.map_map] at hboth
    exact hboth
  · have hin := ((links_perm ht hu hs).filter fun e => e.2 = some (t.name x)).map Prod.fst
    rw [← incoming_named ht hxy.left, hxy.name, ← incoming_named hu hxy.right] at hin
    exact hin

omit hs in
theorem children_names (he : SameEntry t u x y) :
    (t.sortedChildren (displayLe t) x).map t.name =
      (u.sortedChildren (displayLe u) y).map u.name := by
  have hperm := ((t.sortedChildren_perm (displayLe t) x).map t.name).trans
    (he.children.trans ((u.sortedChildren_perm (displayLe u) y).map u.name).symm)
  have segments : ∀ v : Hierarchy Uses, Rooted d pay v → ∀ z,
      ((v.sortedChildren (displayLe v) z).map v.name).Pairwise fun s s' =>
        Path.segment d s < Path.segment d s' := by
    intro v hv z
    rw [List.pairwise_map]
    apply (sortedChildren_segments hv z).imp_of_mem
    intro a b ha hb hab
    have hal := (hv.shaped.descends (v.sortedChildren_perm _) z a ha).2
    have hbl := (hv.shaped.descends (v.sortedChildren_perm _) z b hb).2
    rwa [hv.segment_eq hal, hv.segment_eq hbl] at hab
  apply List.Perm.eq_of_pairwise _ (segments t ht x) (segments u hu y) hperm
  intro a b _ _ hab hba
  exact absurd hab (lt_asymm hba)

theorem sortedChildren_namesake (hxy : Namesake t u x y) :
    List.Forall₂ (Namesake t u) (t.sortedChildren (displayLe t) x)
      (u.sortedChildren (displayLe u) y) := by
  have hnames := children_names ht hu (hs.entry x hxy.left y hxy.right hxy.name)
  exact forall₂_namesake hnames
    (fun c hc => (ht.shaped.descends (t.sortedChildren_perm _) x c hc).2)
    (fun c hc => (hu.shaped.descends (u.sortedChildren_perm _) y c hc).2)

theorem outlineFrom_alike {β γ : Type} {R : β → γ → Prop} {f : Nat → β} {g : Nat → γ}
    (hR : ∀ x y, Namesake t u x y → R (f x) (g y)) (k : Nat) (hxy : Namesake t u x y) :
    Outline.Alike R ((t.outlineFrom (displayLe t) k x).map f)
      ((u.outlineFrom (displayLe u) k y).map g) := by
  induction k generalizing x y with
  | zero => exact .leaf (hR x y hxy)
  | succ k ih =>
    have hleaf := (hs.entry x hxy.left y hxy.right hxy.name).isLeaf
    unfold outlineFrom
    by_cases hx : t.isLeaf x = true
    · rw [if_pos hx, if_pos (hleaf ▸ hx)]
      exact .leaf (hR x y hxy)
    · rw [if_neg hx, if_neg (hleaf ▸ hx), Outline.map_container, Outline.map_container,
        List.map_map, List.map_map]
      apply Outline.Alike.container (hR x y hxy)
      rw [List.forall₂_map_left_iff, List.forall₂_map_right_iff]
      exact (sortedChildren_namesake ht hu hs hxy).imp fun _ _ hc => ih hc

theorem root_namesake : Namesake t u t.root u.root := ⟨ht.root, hu.root, hs.root⟩

theorem tree_alike : Outline.Alike Label.Alike (ofHierarchy t).drawing.tree
    (ofHierarchy u).drawing.tree := by
  have hsize : u.outline (displayLe u) = u.outlineFrom (displayLe u) t.size u.root := by
    rw [Hierarchy.outline, hs.size]
  have hdrawn : (ofHierarchy u).drawing.tree =
      (u.outlineFrom (displayLe u) t.size u.root).map (ofHierarchy u).label :=
    congrArg (Outline.map _) hsize
  rw [hdrawn]
  exact outlineFrom_alike ht hu hs (fun _ _ hxy => label_alike ht hu hs hxy) t.size
    (root_namesake ht hu hs)

theorem leaf_names_subset {s : String} (hmem : s ∈ (ofHierarchy t).leaves.map t.name) :
    s ∈ (ofHierarchy u).leaves.map u.name := by
  obtain ⟨x, hx, hn⟩ := List.mem_map.1 hmem
  obtain ⟨hleaf, hc⟩ := ((circled ht).mem x).1 hx
  obtain ⟨y, hy⟩ := hs.namesake (lt_of_leaf hleaf)
  have hleaf' := (hs.entry x hy.left y hy.right hy.name).isLeaf
  have hc' := (ht.climbs_of_names hu hy (root_namesake ht hu hs)).1 hc
  rw [← hn, hy.name]
  exact List.mem_map_of_mem (((circled hu).mem y).2 ⟨hleaf'.symm.trans hleaf, hc'⟩)

omit hu hs in
theorem leaf_names_sorted : ((ofHierarchy t).leaves.map t.name).Pairwise fun s s' =>
    Path.trail d s < Path.trail d s' := by
  rw [List.pairwise_map]
  apply (circled ht).sorted.imp_of_mem
  intro a b ha hb hab
  have hal := lt_of_leaf (((circled ht).mem a).1 ha).1
  have hbl := lt_of_leaf (((circled ht).mem b).1 hb).1
  rwa [ht.trail_eq hal, ht.trail_eq hbl] at hab

omit hu hs in
theorem leaf_names_nodup : ((ofHierarchy t).leaves.map t.name).Nodup := by
  apply List.Nodup.map_on _ (circled ht).once
  intro x hx y hy hn
  exact ht.name_injective (lt_of_leaf (((circled ht).mem x).1 hx).1)
    (lt_of_leaf (((circled ht).mem y).1 hy).1) hn

theorem leaf_names_same :
    (ofHierarchy t).leaves.map t.name = (ofHierarchy u).leaves.map u.name := by
  have hperm : ((ofHierarchy t).leaves.map t.name).Perm ((ofHierarchy u).leaves.map u.name) := by
    rw [List.perm_ext_iff_of_nodup (leaf_names_nodup ht) (leaf_names_nodup hu)]
    intro s
    exact ⟨leaf_names_subset ht hu hs, leaf_names_subset hu ht hs.symm⟩
  apply List.Perm.eq_of_pairwise _ (leaf_names_sorted ht) (leaf_names_sorted hu) hperm
  intro a b _ _ hab hba
  exact absurd hab (List.lt_asymm hba)

theorem redrawn : Redrawn (ofHierarchy t) (ofHierarchy u) where
  leaves := leaf_names_same ht hu hs
  tree := tree_alike ht hu hs
  bundles := bundles_perm_of_shape ht hu hs

end Both

/-- The leaves of accepted records go round by their segments, and records in
any other order are accepted too and draw the same circle. -/
theorem ofRecords_circled (rs : List (Record Uses)) (d : String) (t : Hierarchy Uses)
    (h : ofRecords rs d = .ok t) : Circled t (ofHierarchy t) ∧
      ∀ rs', rs.Perm rs' → ∃ u, ofRecords rs' d = .ok u ∧
        Redrawn (ofHierarchy t) (ofHierarchy u) := by
  have ht := built_of_ok h
  constructor
  · exact circled ht.toRooted
  · intro rs' hp
    obtain ⟨u, hu⟩ := accepts_of_perm hp ⟨t, h⟩
    have hb := built_of_ok hu
    have hpay := payloadIn_perm hp ht.fitting.nodup
    exact ⟨u, hu, redrawn ht.toRooted (hpay ▸ hb.toRooted) (ht.sameShape hp hb)⟩

/-- Names with a delimiter that overlaps itself, in two orders. -/
theorem entwined_circled : ∃ t, ofRecords entwined "::" = .ok t ∧ Circled t (ofHierarchy t) ∧
    entwined.Perm entwined.reverse ∧ ∃ u, ofRecords entwined.reverse "::" = .ok u ∧
      Redrawn (ofHierarchy t) (ofHierarchy u) := by
  obtain ⟨t, ht⟩ := accepted_of_isSome entwined "::" (by decide +kernel)
  obtain ⟨hcircle, hsame⟩ := ofRecords_circled entwined "::" t ht
  have hp : entwined.Perm entwined.reverse := (List.reverse_perm entwined).symm
  exact ⟨t, ht, hcircle, hp, hsame _ hp⟩

end Radial

end UseGraph
