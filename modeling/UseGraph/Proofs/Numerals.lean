import Mathlib.Data.Nat.Digits.Lemmas
import UseGraph.Decimal.Numeral

/-!
# Numerals as they may be written

The whole part of a numeral and its fraction are written in one way only. Its
power of ten is not: either letter may stand before it, a plus may be written or
left out, and zeros may be put in front. A text is read as a numeral exactly
when it is one of the spellings of the numeral.
-/

set_option autoImplicit false

namespace UseGraph.Decimal

variable {s r : List Char} {ds : List Digit}

def number (ds : List Digit) : Nat := Nat.ofDigits 10 (ds.reverse.map Fin.val)

theorem number_cons (d : Digit) (ds : List Digit) :
    number (d :: ds) = d.val * 10 ^ ds.length + number ds := by
  rw [number, List.reverse_cons, List.map_append, Nat.ofDigits_append, List.length_map,
    List.length_reverse, List.map_singleton, Nat.ofDigits_singleton]
  exact (Nat.add_comm ..).trans (congrArg (· + _) (Nat.mul_comm ..))

theorem number_lt (ds : List Digit) : number ds < 10 ^ ds.length := by
  have h := Nat.ofDigits_lt_base_pow_length' (b := 8) (l := ds.reverse.map Fin.val) (by simp)
  rwa [List.length_map, List.length_reverse] at h

theorem foldl_digits (n : Nat) (ds : List Digit) :
    ds.foldl (fun n d => 10 * n + d.val) n = n * 10 ^ ds.length + number ds := by
  induction ds generalizing n with
  | nil => simp [number]
  | cons d ds ih =>
    rw [List.foldl_cons, ih, number_cons, List.length_cons, pow_succ]
    ring

theorem natOfDigits_eq (ds : List Digit) : natOfDigits ds = number ds := by
  rw [natOfDigits, foldl_digits, Nat.zero_mul, Nat.zero_add]

theorem digit?_eq_some_iff {c : Char} {d : Digit} : digit? c = some d ↔ c = d.toChar := by
  have hd : d.toChar.toNat = 48 + d.val := Nat.toNat_digitChar_of_lt_ten d.isLt
  have hlt := d.isLt
  unfold digit?
  constructor
  · intro h
    split at h
    · rename_i hc
      obtain rfl := Option.some.inj h
      apply Char.toNat_inj.1
      rw [hd]
      show c.toNat = 48 + (c.toNat - 48)
      omega
    · cases h
  · rintro rfl
    rw [dif_pos (by omega)]
    congr 1
    apply Fin.ext
    show d.toChar.toNat - 48 = d.val
    omega

theorem digit?_toChar (d : Digit) : digit? d.toChar = some d := digit?_eq_some_iff.2 rfl

theorem toChar_ne_sign (d : Digit) : d.toChar ≠ '-' ∧ d.toChar ≠ '+' := by
  revert d
  decide

def Stops (r : List Char) : Prop := ∀ c ∈ r.head?, digit? c = none

theorem digitRun_eq_iff : digitRun s = (ds, r) ↔ s = ds.map Digit.toChar ++ r ∧ Stops r := by
  induction s generalizing ds r with
  | nil =>
    rw [digitRun, Prod.mk.injEq, eq_comm, eq_comm (a := []), List.nil_eq, List.append_eq_nil_iff,
      List.map_eq_nil_iff]
    constructor
    · rintro ⟨rfl, rfl⟩
      exact ⟨⟨rfl, rfl⟩, fun c hc => by cases hc⟩
    · exact fun h => h.1
  | cons c s ih =>
    rw [digitRun]
    cases hc : digit? c with
    | none =>
      simp only [Prod.mk.injEq]
      constructor
      · rintro ⟨rfl, rfl⟩
        exact ⟨rfl, fun x hx => by obtain rfl := Option.some.inj hx; exact hc⟩
      · rintro ⟨hs, -⟩
        cases ds with
        | nil => exact ⟨rfl, hs⟩
        | cons d ds =>
          rw [(List.cons.inj hs).1, digit?_toChar] at hc
          cases hc
    | some d =>
      obtain rfl := digit?_eq_some_iff.1 hc
      simp only [Prod.mk.injEq]
      constructor
      · rintro ⟨rfl, rfl⟩
        have h := ih.1 (show digitRun s = ((digitRun s).1, (digitRun s).2) from rfl)
        exact ⟨congrArg _ h.1, h.2⟩
      · rintro ⟨hs, hr⟩
        cases ds with
        | nil =>
          obtain rfl : d.toChar :: s = r := hs
          rw [hr d.toChar rfl] at hc
          cases hc
        | cons e ds =>
          obtain ⟨he, hs⟩ := List.cons.inj hs
          have hde := digit?_toChar e
          rw [← he, digit?_toChar] at hde
          rw [ih.2 ⟨hs, hr⟩]
          exact ⟨congrArg (· :: ds) (Option.some.inj hde), rfl⟩

theorem natOfDigits_append (ds : List Digit) (d : Digit) :
    natOfDigits (ds ++ [d]) = 10 * natOfDigits ds + d.val := by
  rw [natOfDigits, List.foldl_append]
  rfl

def Leading : List Digit → Prop
  | [] => False
  | [_] => True
  | d :: _ :: _ => d.val ≠ 0

/-- Digits that follow a number which is not zero are written behind it. -/
theorem toDigits_foldl {n : Nat} (hn : 0 < n) (ds : List Digit) :
    Nat.toDigits 10 (ds.foldl (fun n d => 10 * n + d.val) n) =
      Nat.toDigits 10 n ++ ds.map Digit.toChar := by
  induction ds generalizing n with
  | nil => simp
  | cons d ds ih =>
    have hdigit : [d.toChar] = Nat.toDigits 10 d.val := (Nat.toDigits_of_lt_base d.isLt).symm
    rw [List.foldl_cons, ih (by omega), ← Nat.toDigits_append_toDigits (by decide) hn d.isLt,
      ← hdigit, List.append_assoc]
    rfl

theorem toDigits_natOfDigits (h : Leading ds) :
    Nat.toDigits 10 (natOfDigits ds) = ds.map Digit.toChar := by
  rcases ds with _ | ⟨d, _ | ⟨e, ds⟩⟩
  · cases h
  · rw [natOfDigits, List.foldl_cons, List.foldl_nil, Nat.mul_zero, Nat.zero_add,
      Nat.toDigits_of_lt_base d.isLt]
    rfl
  · have hd : d.val ≠ 0 := h
    rw [natOfDigits, List.foldl_cons, Nat.mul_zero, Nat.zero_add, toDigits_foldl (by omega),
      Nat.toDigits_of_lt_base d.isLt]
    rfl

theorem exists_leading (n : Nat) : ∃ ds, Leading ds ∧ natOfDigits ds = n := by
  induction n using Nat.strongRecOn with
  | ind n ih =>
    by_cases hn : n < 10
    · exact ⟨[⟨n, hn⟩], trivial, by simp [natOfDigits]⟩
    · obtain ⟨ds, hds, hval⟩ := ih (n / 10) (by omega)
      refine ⟨ds ++ [⟨n % 10, by omega⟩], ?_, ?_⟩
      · rcases ds with _ | ⟨a, _ | ⟨b, ds⟩⟩
        · cases hds
        · have ha : natOfDigits [a] = a.val := by simp [natOfDigits]
          show a.val ≠ 0
          omega
        · exact hds
      · rw [natOfDigits_append, hval]
        show 10 * (n / 10) + n % 10 = n
        omega

namespace Numeral

theorem wholePart?_eq_some_iff {n : Nat} : wholePart? s = some (n, r) ↔
    s = Nat.toDigits 10 n ++ r ∧ Stops r := by
  constructor
  · intro h
    obtain ⟨⟨ds, t⟩, hrun⟩ : ∃ p, digitRun s = p := ⟨_, rfl⟩
    have hs := digitRun_eq_iff.1 hrun
    rw [wholePart?, hrun] at h
    rcases ds with _ | ⟨a, _ | ⟨b, ds⟩⟩
    · cases h
    · obtain ⟨rfl, rfl⟩ := Prod.mk.inj (Option.some.inj h)
      rw [Nat.toDigits_of_lt_base a.isLt]
      exact hs
    · simp only at h
      split at h
      · cases h
      · rename_i ha
        obtain ⟨rfl, rfl⟩ := Prod.mk.inj (Option.some.inj h)
        rw [toDigits_natOfDigits (show Leading (a :: b :: ds) from ha)]
        exact hs
  · intro h
    obtain ⟨ds, hds, rfl⟩ := exists_leading n
    rw [toDigits_natOfDigits hds] at h
    rw [wholePart?, digitRun_eq_iff.2 h]
    rcases ds with _ | ⟨a, _ | ⟨b, ds⟩⟩
    · cases hds
    · simp [natOfDigits]
    · have ha : a.val ≠ 0 := hds
      simp [ha]

def fractionText (ds : List Digit) : List Char :=
  if ds.isEmpty then [] else '.' :: ds.map Digit.toChar

theorem fractionPart?_of_spelled (hr : Stops r) (hpoint : '.' ∉ r.head?) :
    fractionPart? (fractionText ds ++ r) = some (ds, r) := by
  cases ds with
  | nil =>
    cases r with
    | nil => rfl
    | cons c r =>
      have hc : c ≠ '.' := fun hc => hpoint (by simp [hc])
      simp [fractionText, fractionPart?, hc]
  | cons d ds =>
    have hrun : digitRun (List.map Digit.toChar (d :: ds) ++ r) = (d :: ds, r) :=
      digitRun_eq_iff.2 ⟨rfl, hr⟩
    simp only [fractionText, List.isEmpty_cons, Bool.false_eq_true, if_false, List.cons_append,
      fractionPart?, hrun]

theorem spelled_of_fractionPart? (h : fractionPart? s = some (ds, r)) :
    s = fractionText ds ++ r := by
  unfold fractionPart? at h
  split at h
  · rename_i t
    obtain ⟨⟨es, u⟩, hrun⟩ : ∃ p, digitRun t = p := ⟨_, rfl⟩
    have ht := (digitRun_eq_iff.1 hrun).1
    rw [hrun] at h
    cases es with
    | nil => cases h
    | cons e es =>
      obtain ⟨rfl, rfl⟩ := Prod.mk.inj (Option.some.inj h)
      rw [ht]
      rfl
  · obtain ⟨rfl, rfl⟩ := Prod.mk.inj (Option.some.inj h)
    rfl

inductive SignSpelled : Bool → List Char → Prop where
  | absent : SignSpelled false []
  | plus : SignSpelled false ['+']
  | minus : SignSpelled true ['-']

inductive PowerSpelled : Option Int → List Char → Prop where
  | absent : PowerSpelled none []
  | given (mark : Char) (minus : Bool) (sign : List Char) (ds : List Digit)
      (hmark : mark = 'e' ∨ mark = 'E') (hsign : SignSpelled minus sign) (hds : ds ≠ []) :
      PowerSpelled (some (if minus then -(number ds : Int) else number ds))
        (mark :: sign ++ ds.map Digit.toChar)

theorem signed_of_spelled {minus : Bool} {sign : List Char} (h : SignSpelled minus sign)
    (d : Digit) : signed (sign ++ d.toChar :: r) = (minus, d.toChar :: r) := by
  cases h with
  | absent =>
    unfold signed
    split
    · rename_i u hu
      exact absurd (List.cons.inj hu).1 (toChar_ne_sign d).1
    · rename_i u hu
      exact absurd (List.cons.inj hu).1 (toChar_ne_sign d).2
    · rfl
  | plus => rfl
  | minus => rfl

theorem spelled_of_signed (s : List Char) :
    ∃ sign, SignSpelled (signed s).1 sign ∧ s = sign ++ (signed s).2 := by
  unfold signed
  split
  · exact ⟨_, .minus, rfl⟩
  · exact ⟨_, .plus, rfl⟩
  · exact ⟨_, .absent, rfl⟩

theorem exponentPart?_eq_some_iff {e : Option Int} :
    exponentPart? s = some e ↔ PowerSpelled e s := by
  constructor
  · intro h
    cases s with
    | nil =>
      obtain rfl := Option.some.inj h
      exact .absent
    | cons c s =>
      simp only [exponentPart?] at h
      split at h
      · rename_i hc
        obtain ⟨sign, hsign, hs⟩ := spelled_of_signed s
        obtain ⟨⟨ds, t⟩, hrun⟩ : ∃ p, digitRun (signed s).2 = p := ⟨_, rfl⟩
        have hds := (digitRun_eq_iff.1 hrun).1
        rw [hrun] at h
        rcases ds with _ | ⟨d, ds⟩
        · cases h
        · rcases t with _ | ⟨x, t⟩
          · obtain rfl := Option.some.inj h
            rw [natOfDigits_eq]
            have hgiven := PowerSpelled.given c _ sign (d :: ds) hc hsign (List.cons_ne_nil d ds)
            rw [List.append_nil] at hds
            rw [← hds, List.cons_append, ← hs] at hgiven
            exact hgiven
          · cases h
      · cases h
  · intro h
    cases h with
    | absent => rfl
    | given mark minus sign ds hmark hsign hds =>
      obtain ⟨d, ds, rfl⟩ := List.exists_cons_of_ne_nil hds
      have hsigned := signed_of_spelled (r := ds.map Digit.toChar) hsign d
      have hrun : digitRun (d.toChar :: ds.map Digit.toChar) = (d :: ds, []) :=
        digitRun_eq_iff.2 ⟨by simp, fun c hc => by cases hc⟩
      simp only [List.map_cons, List.cons_append, exponentPart?, if_pos hmark, hsigned, hrun,
        natOfDigits_eq]

theorem PowerSpelled.head {e : Option Int} (h : PowerSpelled e s) :
    ∀ c ∈ s.head?, c = 'e' ∨ c = 'E' := by
  cases h with
  | absent => exact fun c hc => by cases hc
  | given mark minus sign ds hmark hsign hds =>
    intro c hc
    obtain rfl := Option.some.inj hc
    exact hmark

def Spelled (n : Numeral) (s : List Char) : Prop :=
  ∃ power, PowerSpelled n.exponent power ∧
    s = (if n.negative then ['-'] else []) ++ Nat.toDigits 10 n.whole ++ fractionText n.fraction
      ++ power

theorem unsigned?_eq_some_iff {negative : Bool} {n : Numeral} :
    unsigned? negative s = some n ↔ n.negative = negative ∧
      ∃ power, PowerSpelled n.exponent power ∧
        s = Nat.toDigits 10 n.whole ++ fractionText n.fraction ++ power := by
  constructor
  · intro h
    simp only [unsigned?, Option.bind_eq_bind, Option.bind_eq_some_iff, Prod.exists, Option.pure_def,
      Option.some.injEq] at h
    obtain ⟨whole, t, hwhole, fraction, u, hfraction, exponent, hexponent, rfl⟩ := h
    refine ⟨rfl, u, exponentPart?_eq_some_iff.1 hexponent, ?_⟩
    rw [(wholePart?_eq_some_iff.1 hwhole).1, spelled_of_fractionPart? hfraction, List.append_assoc]
  · rintro ⟨rfl, power, hpower, rfl⟩
    have hstops : Stops power := by
      intro c hc
      rcases hpower.head c hc with rfl | rfl <;> rfl
    have hpoint : '.' ∉ power.head? := by
      intro hc
      rcases hpower.head '.' hc with h | h <;> cases h
    have hfraction : fractionPart? (fractionText n.fraction ++ power) = some (n.fraction, power) :=
      fractionPart?_of_spelled hstops hpoint
    have hwhole : wholePart? (Nat.toDigits 10 n.whole ++ (fractionText n.fraction ++ power)) =
        some (n.whole, fractionText n.fraction ++ power) := by
      refine wholePart?_eq_some_iff.2 ⟨rfl, ?_⟩
      intro c hc
      cases hf : n.fraction with
      | nil =>
        rw [hf] at hc
        exact hstops c hc
      | cons d ds =>
        rw [hf] at hc
        obtain rfl := Option.some.inj hc
        rfl
    rw [List.append_assoc]
    simp only [unsigned?, hwhole, hfraction, exponentPart?_eq_some_iff.2 hpower,
      Option.bind_eq_bind, Option.bind_some, Option.pure_def]

theorem exists_digits (n : Nat) : ∃ (d : Digit) (ds : List Digit),
    Nat.toDigits 10 n = d.toChar :: ds.map Digit.toChar ∧ number (d :: ds) = n := by
  obtain ⟨ds, hds, rfl⟩ := exists_leading n
  rw [toDigits_natOfDigits hds, natOfDigits_eq]
  cases ds with
  | nil => cases hds
  | cons d ds => exact ⟨d, ds, rfl, rfl⟩

/-- A text is read as a numeral exactly when it spells the numeral. -/
theorem read?_eq_some_iff {n : Numeral} : read? s = some n ↔ n.Spelled s := by
  constructor
  · intro h
    unfold read? at h
    split at h
    · obtain ⟨hneg, power, hpower, hs⟩ := unsigned?_eq_some_iff.1 h
      exact ⟨power, hpower, by simp [hneg, hs]⟩
    · obtain ⟨hneg, power, hpower, hs⟩ := unsigned?_eq_some_iff.1 h
      exact ⟨power, hpower, by simp [hneg, hs]⟩
  · rintro ⟨power, hpower, rfl⟩
    have h := unsigned?_eq_some_iff.2 ⟨(rfl : n.negative = n.negative), power, hpower, rfl⟩
    cases hneg : n.negative with
    | true =>
      rw [hneg] at h
      simpa [read?] using h
    | false =>
      rw [hneg] at h
      obtain ⟨d, ds, hd, -⟩ := exists_digits n.whole
      simp only [Bool.false_eq_true, if_false, List.nil_append]
      rw [hd] at h ⊢
      unfold read?
      split
      · rename_i t ht
        exact absurd (List.cons.inj ht).1 (toChar_ne_sign d).1
      · exact h

def Figure (c : Char) : Prop := (∃ d : Digit, c = d.toChar) ∨ c ∈ ['-', '+', '.', 'e', 'E']

theorem figure_map (ds : List Digit) : ∀ c ∈ ds.map Digit.toChar, Figure c := by
  intro c hc
  obtain ⟨d, -, rfl⟩ := List.mem_map.1 hc
  exact .inl ⟨d, rfl⟩

theorem PowerSpelled.figures {e : Option Int} (h : PowerSpelled e s) : ∀ c ∈ s, Figure c := by
  cases h with
  | absent => exact fun c hc => by cases hc
  | given mark minus sign ds hmark hsign hds =>
    intro c hc
    rcases List.mem_append.1 hc with hc | hc
    · right
      rcases List.mem_cons.1 hc with rfl | hc
      · rcases hmark with rfl | rfl <;> simp
      · cases hsign <;> simp_all
    · exact figure_map ds c hc

theorem Spelled.figures {n : Numeral} (h : n.Spelled s) : ∀ c ∈ s, Figure c := by
  obtain ⟨power, hpower, rfl⟩ := h
  obtain ⟨d, ds, hd, -⟩ := exists_digits n.whole
  intro c hc
  rw [hd] at hc
  simp only [List.mem_append] at hc
  rcases hc with ((hc | hc) | hc) | hc
  · split at hc
    · obtain rfl := List.mem_singleton.1 hc
      exact .inr (by simp)
    · cases hc
  · exact figure_map (d :: ds) c hc
  · unfold fractionText at hc
    split at hc
    · cases hc
    · rcases List.mem_cons.1 hc with rfl | hc
      · exact .inr (by simp)
      · exact figure_map n.fraction c hc
  · exact hpower.figures c hc

/-- A spelling begins with a minus or a digit. -/
theorem Spelled.head {n : Numeral} (h : n.Spelled s) :
    ∃ c r, s = c :: r ∧ (c = '-' ∨ ∃ d : Digit, c = d.toChar) := by
  obtain ⟨power, -, rfl⟩ := h
  obtain ⟨d, ds, hd, -⟩ := exists_digits n.whole
  rw [hd]
  cases n.negative with
  | true => exact ⟨'-', _, rfl, .inl rfl⟩
  | false => exact ⟨d.toChar, _, rfl, .inr ⟨d, rfl⟩⟩

/-- What is written for a numeral is one of its spellings. -/
theorem spelled_render (n : Numeral) : n.Spelled n.render := by
  cases he : n.exponent with
  | none => exact ⟨[], he ▸ .absent, by rw [render, he]; rfl⟩
  | some e =>
    cases e with
    | ofNat m =>
      obtain ⟨d, ds, htext, hval⟩ := exists_digits m
      have h := PowerSpelled.given 'e' false ['+'] (d :: ds) (.inl rfl) .plus (by simp)
      rw [hval] at h
      exact ⟨_, he ▸ h, by simp only [render, he, htext]; rfl⟩
    | negSucc m =>
      obtain ⟨d, ds, htext, hval⟩ := exists_digits (m + 1)
      have h := PowerSpelled.given 'e' true ['-'] (d :: ds) (.inl rfl) .minus (by simp)
      rw [hval] at h
      exact ⟨_, he ▸ h, by simp only [render, he, htext]; rfl⟩

end Numeral

end UseGraph.Decimal
