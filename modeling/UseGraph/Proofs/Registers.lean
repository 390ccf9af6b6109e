import Mathlib.Data.List.Forall2
import Mathlib.Data.List.Sort
import Mathlib.Data.String.Basic
import UseGraph.Record

/-!
# What a register holds

Keys stay strictly increasing, so each occurs once. An update is seen at its
own key only, and a run of updates leaves at every key the outcome of just
those that went there, in their order.
-/

set_option autoImplicit false

namespace UseGraph.Register

variable {α β : Type} {r : Register α}

def keys (r : Register α) : List String := r.map Prod.fst

def Sorted (r : Register α) : Prop := (keys r).Pairwise (· < ·)

theorem sorted_nil : Sorted ([] : Register α) := List.Pairwise.nil

theorem lookup_entry (k : String) (a : α) (r : Register α) (x : String) :
    List.lookup x ((k, a) :: r) = if x = k then some a else r.lookup x := by
  by_cases hx : x = k
  · simp [hx]
  · have hb : (x == k) = false := by simpa using hx
    simp [List.lookup_cons, hb, hx]

theorem lookup_isSome_iff (r : Register α) (x : String) :
    (r.lookup x).isSome = true ↔ x ∈ keys r := by
  simp only [List.lookup_isSome_iff, beq_iff_eq, keys, List.mem_map]
  constructor
  · rintro ⟨e, he, hx⟩
    exact ⟨e, he, hx.symm⟩
  · rintro ⟨e, he, hx⟩
    exact ⟨e, he, hx.symm⟩

theorem lookup_eq_none (r : Register α) (x : String) (h : x ∉ keys r) : r.lookup x = none := by
  rw [← lookup_isSome_iff] at h
  exact Option.not_isSome_iff_eq_none.1 h

theorem mem_keys_update (r : Register α) (key : String) (f : Option α → α) (x : String) :
    x ∈ keys (r.update key f) ↔ x = key ∨ x ∈ keys r := by
  induction r with
  | nil => simp [update, keys]
  | cons e r ih =>
    obtain ⟨k, a⟩ := e
    simp only [update]
    split
    · simp [keys]
    · split
      · rename_i he
        simp [keys, he]
      · simp only [keys, List.map_cons, List.mem_cons] at ih ⊢
        rw [ih]
        tauto

theorem sorted_update (h : Sorted r) (key : String) (f : Option α → α) :
    Sorted (r.update key f) := by
  induction r with
  | nil => simp [update, Sorted, keys]
  | cons e r ih =>
    obtain ⟨k, a⟩ := e
    obtain ⟨hk, hr⟩ := List.pairwise_cons.1 h
    simp only [update]
    split
    · rename_i hlt
      refine List.pairwise_cons.2 ⟨?_, h⟩
      intro x hx
      rcases List.mem_cons.1 hx with rfl | hx
      · exact hlt
      · exact lt_trans hlt (hk x hx)
    · rename_i hge
      split
      · exact List.pairwise_cons.2 ⟨hk, hr⟩
      · rename_i hne
        refine List.pairwise_cons.2 ⟨?_, ih hr⟩
        intro x hx
        rcases (mem_keys_update r key f x).1 hx with rfl | hx
        · exact lt_of_le_of_ne (le_of_not_gt hge) (Ne.symm hne)
        · exact hk x hx

theorem lookup_update (h : Sorted r) (key : String) (f : Option α → α) (x : String) :
    (r.update key f).lookup x = if x = key then some (f (r.lookup key)) else r.lookup x := by
  induction r with
  | nil => simp [update, lookup_entry]
  | cons e r ih =>
    obtain ⟨k, a⟩ := e
    obtain ⟨hk, hr⟩ := List.pairwise_cons.1 h
    simp only [update]
    split
    · rename_i hlt
      have hno : key ∉ keys ((k, a) :: r) := by
        intro hm
        rcases List.mem_cons.1 hm with rfl | hm
        · exact lt_irrefl _ hlt
        · exact lt_asymm hlt (hk key hm)
      rw [lookup_entry, lookup_eq_none _ key hno]
    · split
      · rename_i he
        by_cases hx : x = k <;> simp [lookup_entry, he, hx]
      · rename_i hne
        by_cases hx : x = k
        · simp [hx, Ne.symm hne]
        · simp [lookup_entry, hx, hne, ih hr]

def collect (key : β → String) (put : β → Option α → α) (r : Register α) (bs : List β) :
    Register α :=
  bs.foldl (fun r b => r.update (key b) (put b)) r

theorem sorted_collect (h : Sorted r) (key : β → String) (put : β → Option α → α)
    (bs : List β) : Sorted (collect key put r bs) := by
  induction bs generalizing r with
  | nil => exact h
  | cons b bs ih => exact ih (sorted_update h (key b) (put b))

theorem mem_keys_collect (key : β → String) (put : β → Option α → α) (r : Register α)
    (bs : List β) (x : String) :
    x ∈ keys (collect key put r bs) ↔ x ∈ keys r ∨ ∃ b ∈ bs, key b = x := by
  induction bs generalizing r with
  | nil => simp [collect]
  | cons b bs ih =>
    rw [collect, List.foldl_cons, ← collect, ih, mem_keys_update]
    simp only [List.mem_cons, exists_eq_or_imp]
    tauto

theorem lookup_collect (h : Sorted r) (key : β → String) (put : β → Option α → α)
    (bs : List β) (x : String) :
    (collect key put r bs).lookup x =
      (bs.filter (key · == x)).foldl (fun o b => some (put b o)) (r.lookup x) := by
  induction bs generalizing r with
  | nil => rfl
  | cons b bs ih =>
    rw [collect, List.foldl_cons, ← collect, ih (sorted_update h (key b) (put b)),
      lookup_update h]
    by_cases hx : key b = x
    · simp [hx]
    · have hx' : x ≠ key b := Ne.symm hx
      simp [hx, hx']

theorem lookup_eq_some_iff (h : Sorted r) (x : String) (a : α) :
    r.lookup x = some a ↔ (x, a) ∈ r := by
  induction r with
  | nil => simp
  | cons e r ih =>
    obtain ⟨k, b⟩ := e
    obtain ⟨hk, hr⟩ := List.pairwise_cons.1 h
    by_cases hx : x = k
    · have hno : (x, a) ∉ r := fun hm => lt_irrefl _ (hx ▸ hk x (List.mem_map_of_mem hm))
      simp [hx, eq_comm, hx ▸ hno]
    · simp [lookup_entry, hx, ih hr]

theorem keys_nodup (h : Sorted r) : (keys r).Nodup := h.imp (fun hlt => ne_of_lt hlt)

/-- Registers are told apart by looking things up. -/
theorem forall₂_of_lookup {R : α → β → Prop} {r : Register α} {q : Register β} (hr : Sorted r)
    (hq : Sorted q) (h : ∀ x, Option.Rel R (r.lookup x) (q.lookup x)) :
    List.Forall₂ (fun e k => e.1 = k.1 ∧ R e.2 k.2) r q := by
  have hkeys : keys r = keys q := by
    refine List.Pairwise.eq_of_mem_iff hr hq ?_
    intro x
    have hx := h x
    rw [← lookup_isSome_iff, ← lookup_isSome_iff]
    generalize r.lookup x = a at hx ⊢
    generalize q.lookup x = b at hx ⊢
    cases hx <;> rfl
  induction r generalizing q with
  | nil =>
    rw [List.map_eq_nil_iff.1 hkeys.symm]
    exact .nil
  | cons e r ih =>
    obtain ⟨k, a⟩ := e
    cases q with
    | nil => cases hkeys
    | cons f q =>
      obtain ⟨k', b⟩ := f
      obtain ⟨rfl, hrest⟩ := List.cons.inj hkeys
      obtain ⟨hkr, hr'⟩ := List.pairwise_cons.1 hr
      obtain ⟨hkq, hq'⟩ := List.pairwise_cons.1 hq
      refine .cons ⟨rfl, ?_⟩ (ih hr' hq' ?_ hrest)
      · have hk := h k
        rw [lookup_entry, lookup_entry, if_pos rfl, if_pos rfl] at hk
        cases hk with
        | some hab => exact hab
      · intro x
        have hx := h x
        rw [lookup_entry, lookup_entry] at hx
        by_cases hxk : x = k
        · have hno : k ∉ keys r := fun hm => lt_irrefl _ (hkr k hm)
          have hno' : k ∉ keys q := fun hm => lt_irrefl _ (hkq k hm)
          rw [hxk, lookup_eq_none r k hno, lookup_eq_none q k hno']
          exact .none
        · simpa only [if_neg hxk] using hx

end UseGraph.Register
