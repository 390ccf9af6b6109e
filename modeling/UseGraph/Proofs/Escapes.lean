import Mathlib.Data.List.Forall2
import UseGraph.Json.Reader

/-!
# Strings as they may be written

Between the quotes a character may stand for itself, be escaped by a letter or
be given by its units of sixteen bits: one unit, or a pair of them beyond the
first 65536 characters. Units that no text has can still be written; the string
is well formed and means no text.
-/

set_option autoImplicit false

namespace UseGraph.Json

variable {ps qs : List Piece} {cs : List Char}

def shortEscapes : List (Char × Char) :=
  [('"', '"'), ('\\', '\\'), ('/', '/'), ('b', '\x08'), ('f', '\x0c'), ('n', '\n'), ('r', '\r'),
    ('t', '\t')]

theorem escape?_eq_some_iff {e c : Char} : escape? e = some c ↔ (e, c) ∈ shortEscapes := by
  constructor
  · intro h
    unfold escape? at h
    split at h
    · cases h; decide
    · cases h; decide
    · cases h; decide
    · cases h; decide
    · cases h; decide
    · cases h; decide
    · cases h; decide
    · cases h; decide
    · cases h
  · intro h
    have hall : ∀ p ∈ shortEscapes, escape? p.1 = some p.2 := by decide
    exact hall (e, c) h

def HexSpelled (d : Nat) (c : Char) : Prop :=
  d < 16 ∧ (c = Nat.digitChar d ∨ c = (Nat.digitChar d).toUpper)

instance (d : Nat) (c : Char) : Decidable (HexSpelled d c) :=
  inferInstanceAs (Decidable (_ ∧ _))

theorem hexDigit?_eq_some_iff {c : Char} {d : Nat} : hexDigit? c = some d ↔ HexSpelled d c := by
  constructor
  · intro h
    have hsmall : c.toNat < 128 := by
      unfold hexDigit? at h
      split at h
      · rename_i hc
        exact Nat.lt_of_le_of_lt hc.2 (by decide)
      · split at h
        · rename_i hc
          exact Nat.lt_of_le_of_lt hc.2 (by decide)
        · split at h
          · rename_i hc
            exact Nat.lt_of_le_of_lt hc.2 (by decide)
          · cases h
    have hall : ∀ n < 128, ∀ k ∈ hexDigit? (Char.ofNat n), HexSpelled k (Char.ofNat n) := by
      decide
    have hc := hall c.toNat hsmall d
    rw [Char.ofNat_toNat] at hc
    exact hc h
  · rintro ⟨hd, rfl | rfl⟩
    · decide +revert
    · decide +revert

def hexValue (n : Nat) (ds : List Nat) : Nat := ds.foldl (fun n d => 16 * n + d) n

inductive Piece.Spelled : Piece → List Char → Prop where
  | plain (c : Char) (hquote : c ≠ '"') (hback : c ≠ '\\') (hcontrol : 0x20 ≤ c.toNat) :
      Spelled (.plain c) [c]
  | short (e c : Char) (h : (e, c) ∈ shortEscapes) : Spelled (.plain c) ['\\', e]
  | unit (ds : List Nat) (cs : List Char) (hlength : ds.length = 4)
      (h : List.Forall₂ HexSpelled ds cs) :
      Spelled (.unit (hexValue 0 ds)) ('\\' :: 'u' :: cs)

def BodySpelled (ps : List Piece) (body : List Char) : Prop :=
  ∃ ws, List.Forall₂ Piece.Spelled ps ws ∧ body = ws.flatten

/-- What the pieces of a string stand for: characters as they are, or as their
units, a pair of surrogates beyond the first 65536 characters. -/
inductive Denotes : List Piece → List Char → Prop where
  | nil : Denotes [] []
  | plain {ps : List Piece} {cs : List Char} (c : Char) (h : Denotes ps cs) :
      Denotes (.plain c :: ps) (c :: cs)
  | unit {ps : List Piece} {cs : List Char} (c : Char) (hc : c.toNat < 0x10000)
      (h : Denotes ps cs) : Denotes (.unit c.toNat :: ps) (c :: cs)
  | pair {ps : List Piece} {cs : List Char} (c : Char) (hc : 0x10000 ≤ c.toNat)
      (h : Denotes ps cs) :
      Denotes (.unit (0xD800 + (c.toNat - 0x10000) / 0x400) ::
        .unit (0xDC00 + (c.toNat - 0x10000) % 0x400) :: ps) (c :: cs)

inductive StringSpelled : Option String → List Char → Prop where
  | text (s : String) {ps : List Piece} {body : List Char} (hbody : BodySpelled ps body)
      (h : Denotes ps s.toList) : StringSpelled (some s) ('"' :: body ++ ['"'])
  | broken {ps : List Piece} {body : List Char} (hbody : BodySpelled ps body)
      (h : ∀ cs, ¬ Denotes ps cs) : StringSpelled none ('"' :: body ++ ['"'])

theorem BodySpelled.nil : BodySpelled [] [] := ⟨[], .nil, rfl⟩

theorem BodySpelled.append {body rest : List Char} (hp : BodySpelled ps body)
    (hq : BodySpelled qs rest) : BodySpelled (ps ++ qs) (body ++ rest) := by
  obtain ⟨ws, hws, rfl⟩ := hp
  obtain ⟨us, hus, rfl⟩ := hq
  exact ⟨ws ++ us, List.rel_append hws hus, by rw [List.flatten_append]⟩

theorem BodySpelled.single {p : Piece} {w : List Char} (h : p.Spelled w) : BodySpelled [p] w :=
  ⟨[w], .cons h .nil, by simp⟩

theorem hexValue_lt {ds : List Nat} (hcs : List.Forall₂ HexSpelled ds cs)
    (hlength : ds.length = 4) : hexValue 0 ds < 0x10000 := by
  match ds, cs, hcs, hlength with
  | [a, b, c, d], _, .cons ha (.cons hb (.cons hc (.cons hd .nil))), _ =>
    have ha := ha.1
    have hb := hb.1
    have hc := hc.1
    have hd := hd.1
    simp only [hexValue, List.foldl_cons, List.foldl_nil]
    omega

theorem BodySpelled.units_lt {body : List Char} (h : BodySpelled ps body) {n : Nat}
    (hn : Piece.unit n ∈ ps) : n < 0x10000 := by
  obtain ⟨ws, hws, -⟩ := h
  induction hws with
  | nil => cases hn
  | cons hp _ ih =>
    rcases List.mem_cons.1 hn with rfl | hn
    · cases hp with
      | unit ds cs hlength hcs => exact hexValue_lt hcs hlength
    · exact ih hn

def IsHalf (n : Nat) : Prop := isHighSurrogate n = true ∨ isLowSurrogate n = true

theorem isHalf_iff {n : Nat} : IsHalf n ↔ 0xD800 ≤ n ∧ n < 0xE000 := by
  simp only [IsHalf, isHighSurrogate, isLowSurrogate, Bool.and_eq_true, decide_eq_true_eq]
  omega

theorem toNat_ofNat_of_scalar {n : Nat} (hn : n < 0x110000) (hhalf : ¬ IsHalf n) :
    (Char.ofNat n).toNat = n := by
  rw [isHalf_iff] at hhalf
  have hvalid : n.isValidChar := by
    unfold Nat.isValidChar
    omega
  rw [Char.ofNat, dif_pos hvalid]
  rfl

theorem not_isHalf_toNat (c : Char) : ¬ IsHalf c.toNat := by
  rw [isHalf_iff]
  have h : c.toNat.isValidChar := c.valid
  unfold Nat.isValidChar at h
  omega

theorem join_plain (c : Char) (ps : List Piece) :
    join (.plain c :: ps) = (join ps).map (c :: ·) := by
  rw [join]

theorem join_unit {n : Nat} (hn : ¬ IsHalf n) (ps : List Piece) :
    join (.unit n :: ps) = (join ps).map (Char.ofNat n :: ·) := by
  simp only [IsHalf, not_or, Bool.not_eq_true] at hn
  cases ps with
  | nil => simp [join, hn.1, hn.2]
  | cons p ps => cases p <;> simp [join, hn.1, hn.2]

theorem join_of_denotes (h : Denotes ps cs) : join ps = some cs := by
  induction h with
  | nil => rfl
  | plain c _ ih => rw [join_plain, ih, Option.map_some]
  | unit c _ _ ih => rw [join_unit (not_isHalf_toNat c), ih, Option.map_some, Char.ofNat_toNat]
  | pair c hc _ ih =>
    have hlt : c.toNat < 0x110000 := by
      have h : c.toNat.isValidChar := c.valid
      unfold Nat.isValidChar at h
      omega
    have hhigh : isHighSurrogate (0xD800 + (c.toNat - 0x10000) / 0x400) = true := by
      simp only [isHighSurrogate, Bool.and_eq_true, decide_eq_true_eq]
      omega
    have hlow : isLowSurrogate (0xDC00 + (c.toNat - 0x10000) % 0x400) = true := by
      simp only [isLowSurrogate, Bool.and_eq_true, decide_eq_true_eq]
      omega
    have hsum : 0x10000 + (0xD800 + (c.toNat - 0x10000) / 0x400 - 0xD800) * 0x400 +
        (0xDC00 + (c.toNat - 0x10000) % 0x400 - 0xDC00) = c.toNat := by omega
    rw [join, if_pos hhigh, if_pos hlow, ih, Option.map_some, hsum, Char.ofNat_toNat]

/-- A unit that is no half of a pair is read as the character of its number. -/
theorem denotes_unit {n : Nat} (hn : n < 0x10000) (hhalf : ¬ IsHalf n) (h : Denotes ps cs) :
    Denotes (.unit n :: ps) (Char.ofNat n :: cs) := by
  have hscalar := toNat_ofNat_of_scalar (by omega) hhalf
  have hunit := Denotes.unit (Char.ofNat n) (by omega) h
  rwa [hscalar] at hunit

/-- Two halves are read as the character whose units they are. -/
theorem denotes_pair {n m : Nat} (hhigh : isHighSurrogate n = true) (hlow : isLowSurrogate m = true)
    (h : Denotes ps cs) : Denotes (.unit n :: .unit m :: ps)
      (Char.ofNat (0x10000 + (n - 0xD800) * 0x400 + (m - 0xDC00)) :: cs) := by
  simp only [isHighSurrogate, isLowSurrogate, Bool.and_eq_true, decide_eq_true_eq] at hhigh hlow
  have hscalar := toNat_ofNat_of_scalar (n := 0x10000 + (n - 0xD800) * 0x400 + (m - 0xDC00))
    (by omega) (by rw [isHalf_iff]; omega)
  have hpair := Denotes.pair (Char.ofNat (0x10000 + (n - 0xD800) * 0x400 + (m - 0xDC00)))
    (by omega) h
  rw [hscalar] at hpair
  have hn : 0xD800 + (0x10000 + (n - 0xD800) * 0x400 + (m - 0xDC00) - 0x10000) / 0x400 = n := by
    omega
  have hm : 0xDC00 + (0x10000 + (n - 0xD800) * 0x400 + (m - 0xDC00) - 0x10000) % 0x400 = m := by
    omega
  rwa [hn, hm] at hpair

theorem denotes_of_join (hps : ∀ n, Piece.unit n ∈ ps → n < 0x10000) (h : join ps = some cs) :
    Denotes ps cs := by
  induction ps using join.induct generalizing cs with
  | case1 =>
    obtain rfl := Option.some.inj h
    exact .nil
  | case2 c r ih =>
    rw [join_plain] at h
    obtain ⟨ds, hds, rfl⟩ := Option.map_eq_some_iff.1 h
    exact .plain c (ih (fun n hn => hps n (List.mem_cons_of_mem _ hn)) hds)
  | case3 n m r hhigh hlow ih =>
    rw [join, if_pos hhigh, if_pos hlow] at h
    obtain ⟨ds, hds, rfl⟩ := Option.map_eq_some_iff.1 h
    exact denotes_pair hhigh hlow (ih (fun k hk => hps k (by simp [hk])) hds)
  | case4 n m r hhigh hlow =>
    rw [join, if_pos hhigh, if_neg hlow] at h
    cases h
  | case5 n m r hhigh hlow =>
    rw [join, if_neg hhigh, if_pos hlow] at h
    cases h
  | case6 n m r hhigh hlow ih =>
    have hhalf : ¬ IsHalf n := not_or.2 ⟨hhigh, hlow⟩
    rw [join_unit hhalf] at h
    obtain ⟨ds, hds, rfl⟩ := Option.map_eq_some_iff.1 h
    exact denotes_unit (hps n (by simp)) hhalf
      (ih (fun k hk => hps k (List.mem_cons_of_mem _ hk)) hds)
  | case7 n r hr hhalf =>
    rw [join, if_pos hhalf] at h
    · cases h
    · exact hr
  | case8 n r hr hhalf ih =>
    have hhalf : ¬ IsHalf n := by simpa [IsHalf] using hhalf
    rw [join_unit hhalf] at h
    obtain ⟨ds, hds, rfl⟩ := Option.map_eq_some_iff.1 h
    exact denotes_unit (hps n (by simp)) hhalf
      (ih (fun k hk => hps k (List.mem_cons_of_mem _ hk)) hds)

/-- What the pieces between the quotes come to is what the string spells. -/
theorem stringSpelled_join {body : List Char} (hbody : BodySpelled ps body) :
    StringSpelled ((join ps).map String.ofList) ('"' :: body ++ ['"']) := by
  cases h : join ps with
  | none =>
    refine .broken hbody fun cs hcs => ?_
    rw [join_of_denotes hcs] at h
    cases h
  | some cs =>
    refine .text _ hbody ?_
    rw [String.toList_ofList]
    exact denotes_of_join (fun _ hn => hbody.units_lt hn) h

theorem StringSpelled.exists_pieces {text : Option String} {w : List Char}
    (h : StringSpelled text w) : ∃ ps body, BodySpelled ps body ∧ w = '"' :: body ++ ['"'] ∧
      (join ps).map String.ofList = text := by
  cases h with
  | text s hbody h =>
    rename_i ps body
    exact ⟨ps, body, hbody, rfl, by rw [join_of_denotes h, Option.map_some, String.ofList_toList]⟩
  | broken hbody h =>
    rename_i ps body
    refine ⟨ps, body, hbody, rfl, ?_⟩
    cases hj : join ps with
    | none => rfl
    | some cs => exact absurd (denotes_of_join (fun _ hn => hbody.units_lt hn) hj) (h cs)

end UseGraph.Json
