import UseGraph.Document
import UseGraph.Proofs.Magnitudes
import UseGraph.Proofs.Members
import UseGraph.Proofs.Syntax

/-!
# What a document's text means

A text means a document when the value it spells shows the document's fields,
each missing one at its default. Reading finds the document that a text means,
and no other; a flaw in one record is enough to refuse a text.
-/

set_option autoImplicit false

namespace UseGraph

namespace Json

theorem text?_eq_some_iff {v : Json} {s : String} : v.text? = some s ↔ v = .text s := by
  cases v <;> simp [text?, text]

theorem nat?_eq_some_iff {v : Json} {n : Nat} : v.nat? = some n ↔ v = .nat n := by
  cases v with
  | num m =>
    obtain ⟨negative, whole, fraction, exponent⟩ := m
    cases negative <;> cases fraction <;> cases exponent <;>
      simp [nat?, nat, Decimal.Numeral.nat?, Decimal.Numeral.ofNat]
  | _ => simp [nat?, nat]

theorem float?_eq_some_iff {v : Json} {x : Float} :
    v.float? = some x ↔ ∃ n : Decimal.Numeral, v = .num n ∧ n.Worth x := by
  cases v <;> simp [float?, Decimal.Numeral.toFloat?_eq_some_iff]

theorem items?_eq_some_iff {v : Json} {vs : List Json} : v.items? = some vs ↔ v = .arr vs := by
  cases v <;> simp [items?]

inductive Given {α : Type} (default : α) (means : Json → α → Prop) : Option Json → α → Prop where
  | omitted : Given default means none default
  | spelled {v : Json} {a : α} (h : means v a) : Given default means (some v) a

theorem orDefault_eq_some_iff {α : Type} {default a : α} {read : Json → Option α}
    {means : Json → α → Prop} (hread : ∀ v a, read v = some a ↔ means v a) {f : Option Json} :
    orDefault default read f = some a ↔ Given default means f a := by
  cases f with
  | none =>
    constructor
    · intro h
      obtain rfl := Option.some.inj h
      exact .omitted
    · rintro ⟨⟩
      rfl
  | some v =>
    constructor
    · exact fun h => .spelled ((hread v a).1 h)
    · intro h
      cases h with
      | spelled h => exact (hread v a).2 h

end Json

namespace Document

open Json

variable {α : Type} {v : Json}

def MeansGroup (v : Json) (g : UInt32) : Prop := v = .nat g.toNat

def MeansValue (v : Json) (x : Float) : Prop :=
  ∃ n : Decimal.Numeral, v = .num n ∧ n.Worth x

def MeansNode (v : Json) (n : Node) : Prop :=
  ∃ group, Shows [("id", some (.text n.id)), ("group", group)] v ∧
    Given 0 MeansGroup group n.group

def MeansLink (v : Json) (l : Link) : Prop :=
  ∃ value, Shows [("source", some (.text l.source)), ("target", some (.text l.target)),
      ("value", value)] v ∧
    Given 1.0 MeansValue value l.value

def MeansList (means : Json → α → Prop) (v : Json) (as : List α) : Prop :=
  ∃ vs, v = .arr vs ∧ List.Forall₂ means vs as

def Means (v : Json) (d : Document) : Prop :=
  ∃ nodes links, Shows [("nodes", nodes), ("links", links)] v ∧
    Given [] (MeansList MeansNode) nodes d.nodes ∧ Given [] (MeansList MeansLink) links d.links

theorem group?_eq_some_iff {g : UInt32} : group? v = some g ↔ MeansGroup v g := by
  constructor
  · intro h
    obtain ⟨n, hn, hg⟩ := Option.bind_eq_some_iff.1 h
    split at hg
    · rename_i hlt
      obtain rfl := Option.some.inj hg
      have hback : n.toUInt32.toNat = n := UInt32.toNat_ofNat_of_lt' hlt
      rw [MeansGroup, hback]
      exact nat?_eq_some_iff.1 hn
    · cases hg
  · intro h
    rw [group?, nat?_eq_some_iff.2 h, Option.bind_some, if_pos g.toNat_lt, Nat.toUInt32,
      UInt32.ofNat_toNat]

theorem Node.ofJson?_eq_some_iff {n : Node} : Node.ofJson? v = some n ↔ MeansNode v n := by
  have hnames : ["id", "group"].Nodup := by decide
  constructor
  · intro h
    unfold Node.ofJson? at h
    obtain ⟨fs, hfs, hn⟩ := Option.bind_eq_some_iff.1 h
    split at hn
    · rename_i id group
      obtain ⟨s, hs, hn⟩ := Option.bind_eq_some_iff.1 hn
      obtain ⟨g, hg, hn⟩ := Option.bind_eq_some_iff.1 hn
      obtain rfl := Option.some.inj hn
      obtain rfl := text?_eq_some_iff.1 hs
      have hshows := (fields?_eq_some_iff hnames rfl).1 hfs
      exact ⟨group, hshows, (orDefault_eq_some_iff fun _ _ => group?_eq_some_iff).1 hg⟩
    · cases hn
  · rintro ⟨group, hshows, hgroup⟩
    have hfs : v.fields? ["id", "group"] = some [some (.text n.id), group] :=
      (fields?_eq_some_iff hnames rfl).2 hshows
    have hg := (orDefault_eq_some_iff fun _ _ => group?_eq_some_iff).2 hgroup
    rw [Node.ofJson?, hfs]
    simp only [Option.bind_eq_bind, Option.bind_some, text?_eq_some_iff.2 rfl, hg,
      Option.pure_def]

theorem Link.ofJson?_eq_some_iff {l : Link} : Link.ofJson? v = some l ↔ MeansLink v l := by
  have hnames : ["source", "target", "value"].Nodup := by decide
  constructor
  · intro h
    unfold Link.ofJson? at h
    obtain ⟨fs, hfs, hl⟩ := Option.bind_eq_some_iff.1 h
    split at hl
    · rename_i source target value
      obtain ⟨s, hs, hl⟩ := Option.bind_eq_some_iff.1 hl
      obtain ⟨t, ht, hl⟩ := Option.bind_eq_some_iff.1 hl
      obtain ⟨x, hx, hl⟩ := Option.bind_eq_some_iff.1 hl
      obtain rfl := Option.some.inj hl
      obtain rfl := text?_eq_some_iff.1 hs
      obtain rfl := text?_eq_some_iff.1 ht
      have hshows := (fields?_eq_some_iff hnames rfl).1 hfs
      exact ⟨value, hshows, (orDefault_eq_some_iff fun _ _ => float?_eq_some_iff).1 hx⟩
    · cases hl
  · rintro ⟨value, hshows, hvalue⟩
    have hfs : v.fields? ["source", "target", "value"] =
        some [some (.text l.source), some (.text l.target), value] :=
      (fields?_eq_some_iff hnames rfl).2 hshows
    have hx := (orDefault_eq_some_iff fun _ _ => float?_eq_some_iff).2 hvalue
    rw [Link.ofJson?, hfs]
    simp only [Option.bind_eq_bind, Option.bind_some, text?_eq_some_iff.2 rfl, hx,
      Option.pure_def]

theorem mapM_eq_some_iff {read : Json → Option α} {means : Json → α → Prop}
    (hread : ∀ v a, read v = some a ↔ means v a) {vs : List Json} {as : List α} :
    vs.mapM read = some as ↔ List.Forall₂ means vs as := by
  induction vs generalizing as with
  | nil => simp [eq_comm]
  | cons v vs ih =>
    simp only [List.mapM_cons, Option.pure_def, Option.bind_eq_bind, Option.bind_eq_some_iff,
      Option.some.injEq]
    constructor
    · rintro ⟨a, ha, rest, hrest, rfl⟩
      exact .cons ((hread v a).1 ha) (ih.1 hrest)
    · intro h
      cases h with
      | cons ha hrest => exact ⟨_, (hread v _).2 ha, _, ih.2 hrest, rfl⟩

theorem list?_eq_some_iff {read : Json → Option α} {means : Json → α → Prop}
    (hread : ∀ v a, read v = some a ↔ means v a) {as : List α} :
    list? read v = some as ↔ MeansList means v as := by
  constructor
  · intro h
    obtain ⟨vs, hvs, has⟩ := Option.bind_eq_some_iff.1 h
    exact ⟨vs, items?_eq_some_iff.1 hvs, (mapM_eq_some_iff hread).1 has⟩
  · rintro ⟨vs, rfl, has⟩
    exact (mapM_eq_some_iff hread).2 has

theorem ofJson?_eq_some_iff {d : Document} : ofJson? v = some d ↔ Means v d := by
  have hnames : ["nodes", "links"].Nodup := by decide
  have hnodes : ∀ v ns, list? Node.ofJson? v = some ns ↔ MeansList MeansNode v ns := fun _ _ =>
    list?_eq_some_iff fun _ _ => Node.ofJson?_eq_some_iff
  have hlinks : ∀ v ls, list? Link.ofJson? v = some ls ↔ MeansList MeansLink v ls := fun _ _ =>
    list?_eq_some_iff fun _ _ => Link.ofJson?_eq_some_iff
  constructor
  · intro h
    unfold ofJson? at h
    obtain ⟨fs, hfs, hd⟩ := Option.bind_eq_some_iff.1 h
    split at hd
    · rename_i nodes links
      obtain ⟨ns, hns, hd⟩ := Option.bind_eq_some_iff.1 hd
      obtain ⟨ls, hls, hd⟩ := Option.bind_eq_some_iff.1 hd
      obtain rfl := Option.some.inj hd
      have hshows := (fields?_eq_some_iff hnames rfl).1 hfs
      exact ⟨nodes, links, hshows, (orDefault_eq_some_iff hnodes).1 hns,
        (orDefault_eq_some_iff hlinks).1 hls⟩
    · cases hd
  · rintro ⟨nodes, links, hshows, hns, hls⟩
    have hfs : v.fields? ["nodes", "links"] = some [nodes, links] :=
      (fields?_eq_some_iff hnames rfl).2 hshows
    rw [ofJson?, hfs]
    simp only [Option.bind_eq_bind, Option.bind_some, (orDefault_eq_some_iff hnodes).2 hns,
      (orDefault_eq_some_iff hlinks).2 hls, Option.pure_def]

inductive Flawed (v : Json) : Prop where
  | document (h : Faulty ["nodes", "links"] [] v)
  | node {vs : List Json} {w : Json} (hlist : Holds ["nodes", "links"] "nodes" (.arr vs) v)
      (hw : w ∈ vs) (h : Faulty ["id", "group"] ["id"] w)
  | link {vs : List Json} {w : Json} (hlist : Holds ["nodes", "links"] "links" (.arr vs) v)
      (hw : w ∈ vs) (h : Faulty ["source", "target", "value"] ["source", "target"] w)

theorem MeansNode.not_faulty {n : Node} (h : MeansNode v n) :
    ¬Faulty ["id", "group"] ["id"] v := by
  obtain ⟨group, hshows, hgroup⟩ := h
  refine hshows.not_faulty (show ["id", "group"].Nodup by decide) ?_ ?_
  · simp
  · intro name hnull
    simp only [List.mem_cons, Prod.mk.injEq, Option.some.injEq, List.not_mem_nil, or_false] at hnull
    rcases hnull with ⟨-, hnull⟩ | ⟨-, rfl⟩
    · cases hnull
    · cases hgroup with
      | spelled h => cases h

theorem MeansLink.not_faulty {l : Link} (h : MeansLink v l) :
    ¬Faulty ["source", "target", "value"] ["source", "target"] v := by
  obtain ⟨value, hshows, hvalue⟩ := h
  refine hshows.not_faulty (show ["source", "target", "value"].Nodup by decide) ?_ ?_
  · simp
  · intro name hnull
    simp only [List.mem_cons, Prod.mk.injEq, Option.some.injEq, List.not_mem_nil, or_false] at hnull
    rcases hnull with ⟨-, hnull⟩ | ⟨-, hnull⟩ | ⟨-, rfl⟩
    · cases hnull
    · cases hnull
    · cases hvalue with
      | spelled h =>
        obtain ⟨n, hn, -⟩ := h
        cases hn

/-- Every record on a list that is meant is meant itself. -/
theorem MeansList.exists_mem {means : Json → α → Prop} {default as : List α} {vs : List Json}
    {w : Json} (h : Given default (MeansList means) (some (.arr vs)) as) (hw : w ∈ vs) :
    ∃ a, means w a := by
  cases h with
  | spelled h =>
    obtain ⟨us, hus, has⟩ := h
    cases hus
    have hall : List.Forall₂ (fun u a => (∃ a, means u a) ∧ means u a) vs as :=
      has.imp fun u a ha => ⟨⟨a, ha⟩, ha⟩
    exact ((List.forall₂_and_left vs as).1 hall).1 w hw

theorem Means.not_flawed {d : Document} (h : Means v d) : ¬Flawed v := by
  obtain ⟨nodes, links, hshows, hnodes, hlinks⟩ := h
  have hnull : ∀ {α : Type} {means : Json → α → Prop} {default as : List α},
      ¬Given default (MeansList means) (some .null) as := by
    intro α means default as h
    cases h with
    | spelled h =>
      obtain ⟨vs, hvs, -⟩ := h
      cases hvs
  intro hflawed
  cases hflawed with
  | document h =>
    refine hshows.not_faulty (show ["nodes", "links"].Nodup by decide) ?_ ?_ h
    · simp
    · intro name hmem
      simp only [List.mem_cons, Prod.mk.injEq, List.not_mem_nil, or_false] at hmem
      rcases hmem with ⟨-, rfl⟩ | ⟨-, rfl⟩
      · exact hnull hnodes
      · exact hnull hlinks
  | @node vs w hlist hw h =>
    have hmem := (hshows.holds_iff (List.mem_cons_self ..)).1 hlist
    have hhere : nodes = some (.arr vs) := by simpa [eq_comm] using hmem
    obtain ⟨n, hn⟩ := MeansList.exists_mem (hhere ▸ hnodes) hw
    exact hn.not_faulty h
  | @link vs w hlist hw h =>
    have hmem := (hshows.holds_iff (List.mem_cons_of_mem _ (List.mem_cons_self ..))).1 hlist
    have hhere : links = some (.arr vs) := by simpa [eq_comm] using hmem
    obtain ⟨l, hl⟩ := MeansList.exists_mem (hhere ▸ hlinks) hw
    exact hl.not_faulty h

structure ReadByMeaning (s : String) : Prop where
  meant : ∀ d, read s = .ok d ↔ ∃ v, v.Spells s.toList ∧ Means v d
  flawed : ∀ v, v.Spells s.toList → Flawed v → read s = .error .unreadable

/-- Whatever members are added, however they are ordered and spelled, what is read is what
the text means. -/
theorem read_by_meaning (s : String) : ReadByMeaning s := by
  have hmeant : ∀ d, read s = .ok d ↔ ∃ v, v.Spells s.toList ∧ Means v d := by
    intro d
    constructor
    · intro h
      unfold read at h
      split at h
      · rename_i found hfound
        cases h
        obtain ⟨v, hv, hd⟩ := Option.bind_eq_some_iff.1 hfound
        exact ⟨v, read?_eq_some_iff.1 hv, ofJson?_eq_some_iff.1 hd⟩
      · cases h
    · rintro ⟨v, hspells, hmeans⟩
      rw [read, read?_eq_some_iff.2 hspells, Option.bind_some, ofJson?_eq_some_iff.2 hmeans]
  refine ⟨hmeant, ?_⟩
  intro v hspells hflawed
  cases hread : read s with
  | ok d =>
    obtain ⟨w, hw, hmeans⟩ := (hmeant d).1 hread
    obtain rfl := hspells.unique hw
    exact absurd hflawed hmeans.not_flawed
  | error e =>
    unfold read at hread
    split at hread
    · cases hread
    · exact hread.symm

/-- A list in place of an object, an escape for a letter, a key that is not known. -/
example : read "[[[\"\\u0061\"], \x7b\"x\": [null], \"group\": 7, \"id\": \"b\"\x7d]]" =
    .ok ⟨[⟨"a", 0⟩, ⟨"b", 7⟩], []⟩ := rfl

end Document

end UseGraph
