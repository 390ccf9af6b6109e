import Mathlib.Logic.Function.Basic
import UseGraph.Proofs.Standing

/-!
# One record after another

Each operation on a forest keeps every entry fitting, and says which entry is
left waiting for a child: making the parents leaves the nearest of them
waiting, adding the record's own entry or folding the record in leaves none.
So after any records with different names the forest stands, its names are
those the records bring, and each payload is that of the record with the name.
-/

set_option autoImplicit false

namespace UseGraph.Content

variable {α : Type} {c : Content α}

theorem container_of_payload_none (h : c.payload? = none) : c.isLeaf = false := by
  cases c with
  | leaf a => simp [payload?] at h
  | container cs a => rfl

theorem addChild_children (h : c.isLeaf = false) (id : Nat) :
    (c.addChild id).children = c.children ++ [id] := by
  cases c with
  | leaf a => simp [isLeaf] at h
  | container cs a => rfl

theorem fold_payload (h : c.isLeaf = false) (a : α) : (c.fold a).payload? = some a := by
  cases c with
  | leaf b => simp [isLeaf] at h
  | container cs b => rfl

@[simp] theorem addChild_isLeaf (c : Content α) (id : Nat) :
    (c.addChild id).isLeaf = c.isLeaf := by
  cases c <;> rfl

@[simp] theorem addChild_payload (c : Content α) (id : Nat) :
    (c.addChild id).payload? = c.payload? := by
  cases c <;> rfl

@[simp] theorem promote_children (c : Content α) : c.promote.children = c.children := by
  cases c <;> rfl

@[simp] theorem promote_isLeaf (c : Content α) : c.promote.isLeaf = false := by
  cases c <;> rfl

@[simp] theorem promote_payload (c : Content α) : c.promote.payload? = c.payload? := by
  cases c <;> rfl

@[simp] theorem fold_children (a : α) (c : Content α) : (c.fold a).children = c.children := by
  cases c <;> rfl

@[simp] theorem fold_isLeaf (a : α) (c : Content α) : (c.fold a).isLeaf = c.isLeaf := by
  cases c <;> rfl

end UseGraph.Content

namespace UseGraph.Forest

open UseGraph.Growth

variable {α : Type} {d s : String} {f : Forest α} {id : Nat} {pay : String → Option α}
  {chain : List String}

/-- A leaf that is made a container waits for its first child. -/
theorem stands_promote (h : Stands d pay none f) (id : Nat) :
    Stands d pay (some id) (f.update id Content.promote) := by
  constructor
  · rw [update_names]
    exact h.laid
  · intro i e' hi
    rw [update_names]
    rw [update_getElem?] at hi
    split at hi
    · rename_i hid
      obtain ⟨e, he, rfl⟩ := Option.map_eq_some_iff.1 hi
      obtain ⟨hseg, hpar, hch, hpay, -⟩ := h.fits i e he
      exact ⟨hseg, hpar, by simpa [Entry.update] using hch, by simpa [Entry.update] using hpay,
        by simp [Entry.update, hid]⟩
    · rename_i hid
      obtain ⟨hseg, hpar, hch, hpay, hleaf⟩ := h.fits i e' hi
      exact ⟨hseg, hpar, hch, hpay, by simp [hleaf, hid]⟩

/-- A record with the name of a container leaves its payload there. -/
theorem stands_fold (h : Stands d pay none f) (hs : f.find? s = some id) (hp : pay s = none)
    (a : α) : Stands d (Function.update pay s (some a)) none (f.update id (Content.fold a)) := by
  constructor
  · rw [update_names]
    exact h.laid
  · intro i e' hi
    rw [update_names]
    rw [update_getElem?] at hi
    split at hi
    · rename_i hid
      obtain ⟨e, he, rfl⟩ := Option.map_eq_some_iff.1 hi
      obtain ⟨hseg, hpar, hch, hpay, hleaf⟩ := h.fits i e he
      have hname : e.name = s := by
        have hn := names_of_find? hs
        rw [hid, names_of_entry he] at hn
        exact Option.some.inj hn
      have hc : e.content.isLeaf = false :=
        Content.container_of_payload_none (hpay.trans (hname ▸ hp))
      exact ⟨hseg, hpar, by simpa [Entry.update] using hch,
        by simp [Entry.update, Content.fold_payload hc, hname],
        by simpa [Entry.update] using hleaf⟩
    · rename_i hid
      obtain ⟨hseg, hpar, hch, hpay, hleaf⟩ := h.fits i e' hi
      have hname : e'.name ≠ s := by
        intro hn
        apply hid
        exact h.laid.place_unique (names_of_find? hs) (hn ▸ names_of_entry hi)
      exact ⟨hseg, hpar, hch, by rw [hpay, Function.update_of_ne hname], hleaf⟩

theorem fits_attached (hd : d ≠ "") {p : Option Nat} {c : Content α} {next : Option Nat}
    (hl : Laid d f.names) (hs : s ∉ f.names) (hp : Points f.names p (Path.parent? d s))
    (hc : c.children = []) (hleaf : c.isLeaf = true ↔ p ≠ none ∧ next ≠ some f.size) :
    Fits d (f.names ++ [s]) (Function.update pay s c.payload?) next f.size
      ⟨s, Path.segment d s, p, c⟩ := by
  have hown : Path.parent? d s ≠ some s := by
    intro hself
    exact Nat.lt_irrefl _ (Path.parent?_length hd s s hself)
  have hnone : childIds d f.names s = [] := by
    rw [List.eq_nil_iff_forall_not_mem]
    intro j hj
    obtain ⟨t, ht, hts⟩ := (mem_childIds d f.names s j).1 hj
    exact hs (hl.closed (List.mem_of_getElem? ht) hts)
  constructor
  · rfl
  · exact hp.append [s]
  · simp [childIds_append, hown, hnone, hc]
  · simp
  · simpa [hc] using hleaf

section Attach

variable {e : Entry α} {i : Nat} {p next : Option Nat} {payload : Option α}
  (h : Stands d pay p f) (hs : s ∉ f.names) (hp : Points f.names p (Path.parent? d s))
  (he : f[i]? = some e)
include h hs hp he

/-- The entry that waits gets its child. -/
theorem fits_waiting (hpi : p = some i) :
    Fits d (f.names ++ [s]) (Function.update pay s payload) next i
      (e.update (Content.addChild f.size)) := by
  obtain ⟨hseg, hpt, hch, hpay, hlf⟩ := h.fits i e he
  have hname := names_of_entry he
  have hne : e.name ≠ s := fun hes => hs (hes ▸ List.mem_of_getElem? hname)
  have hps : Path.parent? d s = some e.name := by
    obtain ⟨t, ht, hk⟩ := (hpi ▸ hp).of_entry
    rw [ht, ← hk, hname]
  have hcont : e.content.isLeaf = false := by
    rw [← Bool.not_eq_true, hlf]
    simp [hpi]
  constructor
  · exact hseg
  · exact hpt.append [s]
  · simp [Entry.update, Content.addChild_children hcont, hch, childIds_append, hps]
  · simpa [Entry.update, Function.update_of_ne hne] using hpay
  · simp [Entry.update, Content.addChild_children hcont, hcont]

theorem fits_beside (hpi : p ≠ some i) (hnext : next ≠ some i) :
    Fits d (f.names ++ [s]) (Function.update pay s payload) next i e := by
  obtain ⟨hseg, hpt, hch, hpay, hlf⟩ := h.fits i e he
  have hname := names_of_entry he
  have hne : e.name ≠ s := fun hes => hs (hes ▸ List.mem_of_getElem? hname)
  have hps : Path.parent? d s ≠ some e.name := by
    intro hps
    obtain ⟨k, hk, hkn⟩ := (hps ▸ hp).of_name
    exact hpi (by rw [hk, h.laid.place_unique hkn hname])
  constructor
  · exact hseg
  · exact hpt.append [s]
  · simp [hch, childIds_append, hps]
  · rw [Function.update_of_ne hne, hpay]
  · simp [hlf, hpi, hnext]

end Attach

/-- An entry goes under the one that waits for it, or stands alone. -/
theorem stands_attach (hd : d ≠ "") {p : Option Nat} (c : Content α) (next : Option Nat)
    (h : Stands d pay p f) (hs : s ∉ f.names) (hp : Points f.names p (Path.parent? d s))
    (hc : c.children = []) (hnext : ∀ i < f.size, next ≠ some i)
    (hleaf : c.isLeaf = true ↔ p ≠ none ∧ next ≠ some f.size) :
    Stands d (Function.update pay s c.payload?) next (f.attach d s p c) := by
  constructor
  · rw [attach_names]
    apply laid_append h.laid hs
    intro q hq
    obtain ⟨k, -, hk⟩ := (hq ▸ hp).of_name
    exact List.mem_of_getElem? hk
  · intro i e' hi
    rw [attach_names]
    rw [attach_getElem?] at hi
    by_cases hn : i = f.size
    · rw [if_pos hn] at hi
      cases hi
      exact hn ▸ fits_attached hd h.laid hs hp hc hleaf
    · rw [if_neg hn] at hi
      obtain ⟨e, he, rfl⟩ := Option.map_eq_some_iff.1 hi
      by_cases hpi : p = some i
      · rw [if_pos hpi]
        exact fits_waiting h hs hp he hpi
      · rw [if_neg hpi]
        exact fits_beside h hs hp he hpi (hnext i (Array.getElem?_eq_some_iff.1 he).1)

theorem ensure_stands (hd : d ≠ "") (h : Stands d pay none f) (hc : Rises d chain)
    (hpay : ∀ s, s ∉ f.names → pay s = none) :
    (f.ensure d chain).1.names = reach f.names chain ∧
      Points (f.ensure d chain).1.names (f.ensure d chain).2 chain.head? ∧
      Stands d pay (f.ensure d chain).2 (f.ensure d chain).1 := by
  induction chain with
  | nil => exact ⟨rfl, .nowhere, h⟩
  | cons s up ih =>
    cases hf : f.find? s with
    | some id =>
      have hs : f.names[id]? = some s := names_of_find? hf
      simp only [ensure, hf, update_names, reach, List.mem_of_getElem? hs, if_true]
      exact ⟨trivial, .entry hs, stands_promote h id⟩
    | none =>
      have hs : s ∉ f.names := (find?_eq_none_iff f s).1 hf
      obtain ⟨hn, hp, hg⟩ := ih hc.2
      generalize hm : f.ensure d up = made at hn hp hg
      obtain ⟨g, parent⟩ := made
      have hfresh : s ∉ g.names := hn ▸ fresh_reach hd hc hs
      have hst := stands_attach hd (.container [] none) (some g.size) hg hfresh
        (hc.1 ▸ hp) rfl (fun i hi he => Nat.ne_of_gt hi (Option.some.inj he))
        (by simp [Content.isLeaf])
      have hsame : Function.update pay s none = pay :=
        Function.update_eq_self_iff.2 (hpay s hs).symm
      simp only [ensure, hf, hm]
      refine ⟨?_, .entry ?_, ?_⟩
      · rw [attach_names, hn, reach, if_neg hs]
      · simp [attach_names, ← names_length]
      · simpa only [Content.payload?, hsame] using hst

theorem insert_stands (hd : d ≠ "") (h : Stands d pay none f) (r : Record α)
    (hpay : ∀ s, s ∉ f.names → pay s = none) (hr : pay r.name = none) :
    (f.insert d r).names = grow d f.names r.name ∧
      Stands d (Function.update pay r.name (some r.payload)) none (f.insert d r) := by
  cases hf : f.find? r.name with
  | some id =>
    simp only [insert, hf, update_names, grow, reach,
      List.mem_of_getElem? (names_of_find? hf), if_true]
    exact ⟨trivial, stands_fold h hf hr r.payload⟩
  | none =>
    have hs : r.name ∉ f.names := (find?_eq_none_iff f r.name).1 hf
    have hc := rises_ancestors hd r.name
    obtain ⟨hn, hp, hg⟩ := ensure_stands hd h hc.2 hpay
    rw [← hc.1] at hp
    generalize hm : f.ensure d (Path.ancestors d r.name) = made at hn hp hg
    obtain ⟨g, parent⟩ := made
    have hfresh : r.name ∉ g.names := hn ▸ fresh_reach hd hc hs
    have hnames : g.names ++ [r.name] = grow d f.names r.name := by
      rw [hn, grow, reach, if_neg hs]
    cases parent with
    | none =>
      simp only [insert, hf, hm, attach_names, hnames]
      exact ⟨trivial, stands_attach hd (.container [] (some r.payload)) none hg hfresh hp rfl
        (by simp) (by simp [Content.isLeaf])⟩
    | some p =>
      simp only [insert, hf, hm, attach_names, hnames]
      exact ⟨trivial, stands_attach hd (.leaf r.payload) none hg hfresh hp rfl
        (by simp) (by simp [Content.isLeaf])⟩

def payloadIn (rs : List (Record α)) (s : String) : Option α :=
  (rs.find? fun r => r.name == s).map Record.payload

theorem find?_name_eq_none (rs : List (Record α)) (s : String) (hs : s ∉ rs.map Record.name) :
    (rs.find? fun r => r.name == s) = none := by
  rw [List.find?_eq_none]
  intro r hr he
  exact hs (List.mem_map.2 ⟨r, hr, by simpa using he⟩)

theorem payloadIn_append (rs : List (Record α)) (r : Record α)
    (hr : r.name ∉ rs.map Record.name) :
    payloadIn (rs ++ [r]) = Function.update (payloadIn rs) r.name (some r.payload) := by
  funext s
  by_cases hs : s = r.name
  · simp [payloadIn, List.find?_append, hs, find?_name_eq_none rs r.name hr]
  · simp [payloadIn, List.find?_append, Function.update_of_ne hs, Ne.symm hs]

theorem payloadIn_eq_some_iff (rs : List (Record α)) (hn : (rs.map Record.name).Nodup)
    (s : String) (a : α) : payloadIn rs s = some a ↔ (⟨s, a⟩ : Record α) ∈ rs := by
  induction rs with
  | nil => simp [payloadIn]
  | cons r rs ih =>
    obtain ⟨hr, hrs⟩ := List.nodup_cons.1 (List.map_cons ▸ hn)
    by_cases hs : r.name = s
    · have hno : (⟨s, a⟩ : Record α) ∉ rs := fun hm => hr (List.mem_map.2 ⟨_, hm, hs.symm⟩)
      obtain ⟨name, b⟩ := r
      simp_all [payloadIn, eq_comm]
    · have hne : (⟨s, a⟩ : Record α) ≠ r := fun he => hs (by rw [← he])
      rw [List.mem_cons, ← ih hrs]
      simp [payloadIn, hs, hne]

structure Grown (d : String) (rs : List (Record α)) (f : Forest α) : Prop where
  names : f.names = growth d (rs.map Record.name)
  stands : Stands d (payloadIn rs) none f

theorem grown_insert (hd : d ≠ "") {rs : List (Record α)} (h : Grown d rs f) (r : Record α)
    (hr : r.name ∉ rs.map Record.name) : Grown d (rs ++ [r]) (f.insert d r) := by
  have hnone : ∀ s, s ∉ rs.map Record.name → payloadIn rs s = none := by
    intro s hs
    rw [payloadIn, find?_name_eq_none rs s hs, Option.map_none]
  have hpay : ∀ s, s ∉ f.names → payloadIn rs s = none := by
    intro s hs
    apply hnone
    intro hm
    apply hs
    rw [h.names, mem_growth hd]
    exact ⟨s, hm, Climbs.refl s⟩
  obtain ⟨hn, hst⟩ := insert_stands hd h.stands r hpay (hnone _ hr)
  constructor
  · rw [hn, h.names, growth, growth, List.map_append, List.foldl_append]
    rfl
  · rw [payloadIn_append rs r hr]
    exact hst

theorem grown_foldl (hd : d ≠ "") (rest done : List (Record α)) (h : Grown d done f)
    (hn : ((done ++ rest).map Record.name).Nodup) :
    Grown d (done ++ rest) (rest.foldl (insert d) f) := by
  induction rest generalizing done f with
  | nil => simpa using h
  | cons r rest ih =>
    have hr : r.name ∉ done.map Record.name := by
      rw [List.map_append, List.nodup_append] at hn
      exact fun hm => hn.2.2 _ hm _ (by simp) rfl
    have hstep := ih (done ++ [r]) (grown_insert hd h r hr) (by simpa using hn)
    simpa using hstep

theorem grown_empty (d : String) : Grown d ([] : List (Record α)) #[] := by
  refine ⟨rfl, laid_nil d, ?_⟩
  intro i e hi
  simp at hi

theorem grown_ofRecords (hd : d ≠ "") (rs : List (Record α))
    (hn : (rs.map Record.name).Nodup) : Grown d rs (ofRecords d rs) := by
  simpa [ofRecords] using grown_foldl hd rs [] (grown_empty d) (by simpa using hn)

end UseGraph.Forest
