import Mathlib.Order.Bounds.Basic
import UseGraph.Proofs.Numerals

/-!
# What a numeral is worth

The digits of a numeral count as one whole number below two to the sixty-four.
What has to be cut off the whole part is made up for by the power of ten, what
is cut off the fraction is lost. The number and its power are brought together
by one rounded product or quotient, or by several where the power lies below
those of doubles; a product that is not finite is worth nothing.
-/

set_option autoImplicit false

namespace UseGraph.Decimal

variable {n m : Nat} {ds es : List Digit}

def joined (n : Nat) (ds : List Digit) : Nat := n * 10 ^ ds.length + number ds

theorem joined_nil (n : Nat) : joined n [] = n := by
  rw [joined, List.length_nil, pow_zero, Nat.mul_one]
  rfl

theorem joined_cons (n : Nat) (d : Digit) (ds : List Digit) :
    joined n (d :: ds) = joined (10 * n + d.val) ds := by
  rw [joined, joined, number_cons, List.length_cons, pow_succ]
  ring

theorem joined_append (n : Nat) (ds es : List Digit) :
    joined n (ds ++ es) = joined (joined n ds) es := by
  induction ds generalizing n with
  | nil => rw [List.nil_append, joined_nil]
  | cons d ds ih => rw [List.cons_append, joined_cons, joined_cons, ih]

theorem le_joined (n : Nat) (ds : List Digit) : n ≤ joined n ds :=
  (Nat.le_mul_of_pos_right n (by positivity)).trans (Nat.le_add_right ..)

theorem joined_div (n : Nat) (ds : List Digit) : joined n ds / 10 ^ ds.length = n := by
  rw [joined, Nat.add_comm, Nat.add_mul_div_right _ _ (by positivity),
    Nat.div_eq_of_lt (number_lt ds), Nat.zero_add]

/-- The digits that are gathered, and that one more would have been too many. -/
theorem gather_eq (hn : n < 2 ^ 64) (ds : List Digit) :
    ∃ kept, ds = kept ++ (gather n ds).2 ∧ (gather n ds).1 = joined n kept ∧
      joined n kept < 2 ^ 64 ∧
      ∀ d ∈ (gather n ds).2.head?, 2 ^ 64 ≤ 10 * joined n kept + d.val := by
  induction ds generalizing n with
  | nil => exact ⟨[], rfl, (joined_nil n).symm, by rwa [joined_nil], by simp [gather]⟩
  | cons d ds ih =>
    rw [gather]
    split
    · rename_i hlt
      obtain ⟨kept, hds, hvalue, hbelow, hnext⟩ := ih hlt
      rw [← joined_cons] at hvalue hbelow hnext
      exact ⟨d :: kept, congrArg (d :: ·) hds, hvalue, hbelow, hnext⟩
    · rename_i hge
      refine ⟨[], rfl, (joined_nil n).symm, by rwa [joined_nil], ?_⟩
      intro e he
      obtain rfl := Option.some.inj he
      rw [joined_nil]
      exact Nat.le_of_not_lt hge

theorem isLeast_cut {rest : List Digit} (hbelow : m < 2 ^ 64)
    (hnext : ∀ d ∈ rest.head?, 2 ^ 64 ≤ 10 * m + d.val) :
    IsLeast {k | joined m rest / 10 ^ k < 2 ^ 64} rest.length := by
  refine ⟨(joined_div m rest).trans_lt hbelow, fun k hk => Nat.le_of_not_lt fun hlt => ?_⟩
  cases rest with
  | nil => cases hlt
  | cons d rest =>
    have hd : 2 ^ 64 ≤ 10 * m + d.val := hnext d rfl
    have hle : joined m (d :: rest) / 10 ^ rest.length ≤ joined m (d :: rest) / 10 ^ k :=
      Nat.div_le_div_left (Nat.pow_le_pow_right (by decide) (Nat.le_of_lt_succ hlt))
        (by positivity)
    rw [joined_cons, joined_div, ← joined_cons] at hle
    exact absurd hk (Nat.not_lt_of_le (hd.trans hle))

theorem isGreatest_kept {kept rest : List Digit} (hbelow : joined m kept < 2 ^ 64)
    (hnext : ∀ d ∈ rest.head?, 2 ^ 64 ≤ 10 * joined m kept + d.val) :
    IsGreatest {j | j ≤ (kept ++ rest).length ∧ joined m ((kept ++ rest).take j) < 2 ^ 64}
      kept.length := by
  refine ⟨⟨by simp, by rwa [List.take_left]⟩, fun j hj => Nat.le_of_not_lt fun hlt => ?_⟩
  obtain ⟨hlength, hj⟩ := hj
  cases rest with
  | nil => simp at hlength; omega
  | cons d rest =>
    have hd : 2 ^ 64 ≤ 10 * joined m kept + d.val := hnext d rfl
    have htake : (kept ++ d :: rest).take j =
        kept ++ d :: rest.take (j - kept.length - 1) := by
      rw [List.take_append, List.take_of_length_le hlt.le,
        show j - kept.length = j - kept.length - 1 + 1 by omega, List.take_succ_cons,
        Nat.add_sub_cancel]
    rw [htake, joined_append, joined_cons] at hj
    exact absurd hj (Nat.not_lt_of_le (hd.trans (le_joined ..)))

theorem joined_lastDigits (w n : Nat) : joined 0 (lastDigits w n) = n % 10 ^ w := by
  induction w generalizing n with
  | zero => rw [lastDigits, joined_nil, pow_zero, Nat.mod_one]
  | succ w ih =>
    rw [lastDigits, joined_append, ih, joined_cons, joined_nil, pow_succ', Nat.mod_mul,
      Nat.add_comm]
    rfl

namespace Numeral

variable {a : Numeral} {cut kept : Nat} {size x : Float} {p : Int}

/-- As few digits as can be are cut off the whole part, and as many as can be are kept of the
fraction. -/
structure Counts (a : Numeral) (cut kept : Nat) : Prop where
  fewest : IsLeast {k | a.whole / 10 ^ k < 2 ^ 64} cut
  most : IsGreatest {j | j ≤ a.fraction.length ∧
    joined (a.whole / 10 ^ cut) (a.fraction.take j) < 2 ^ 64} kept

/-- The size times ten to the power, by steps of at most ten to the three hundred and eighth. -/
inductive Scales : Float → Int → Float → Prop where
  | up {size : Float} {k : Nat} (hk : k ≤ 308)
      (hfinite : (size * Float.ofScientific 1 false k).isInf = false) :
      Scales size k (size * Float.ofScientific 1 false k)
  | down {size : Float} {k : Nat} (hpos : 0 < k) (hk : k ≤ 308) :
      Scales size (-k) (size / Float.ofScientific 1 false k)
  | further {size x : Float} {k : Nat} (hpos : 0 < k) (hsize : (size == 0) = false)
      (h : Scales (size / Float.ofScientific 1 false 308) (-k) x) : Scales size (-(308 + k)) x
  | zero {size : Float} {p : Int} (hp : 308 < p.natAbs) (hsize : (size == 0) = true) :
      Scales size p size

/-- The number that a numeral stands for: the digits that count, at their power of ten, with the
sign. -/
def Worth (a : Numeral) (x : Float) : Prop :=
  ∃ cut kept size, a.Counts cut kept ∧
    Scales (joined (a.whole / 10 ^ cut) (a.fraction.take kept)).toUInt64.toFloat
      (a.exponent.getD 0 + cut - kept) size ∧
    x = if a.negative then -size else size

theorem counts_of_gather (a : Numeral) : ∃ cut kept, a.Counts cut kept ∧
    a.scaled = ⟨joined (a.whole / 10 ^ cut) (a.fraction.take kept),
      a.exponent.getD 0 + cut - kept⟩ := by
  have hwhole : joined 0 a.wholeDigits = a.whole := by
    obtain ⟨d, ds, hdigits, hvalue⟩ := exists_digits a.whole
    have hlt := number_lt (d :: ds)
    rw [wholeDigits, joined_lastDigits, hdigits]
    rw [hvalue] at hlt
    exact Nat.mod_eq_of_lt (by simpa using hlt)
  obtain ⟨front, hfront, hvalue, hbelow, hnext⟩ := gather_eq (n := 0) (by decide) a.wholeDigits
  have hcut := isLeast_cut hbelow hnext
  rw [← joined_append, ← hfront, hwhole] at hcut
  have hquotient : joined 0 front = a.whole / 10 ^ (gather 0 a.wholeDigits).2.length := by
    rw [← hwhole, hfront, joined_append, ← hfront, joined_div]
  rw [hquotient] at hvalue hbelow
  obtain ⟨kept, hkept, hboth, hlow, hlast⟩ := gather_eq hbelow a.fraction
  have hmost := isGreatest_kept hlow hlast
  rw [← hkept] at hmost
  refine ⟨_, kept.length, ⟨hcut, hmost⟩, ?_⟩
  have htake : a.fraction.take kept.length = kept := by
    rw [hkept, List.take_left]
  have htaken : a.fraction.length -
      (gather (a.whole / 10 ^ (gather 0 a.wholeDigits).2.length) a.fraction).2.length =
        kept.length := by
    have hlength := congrArg List.length hkept
    rw [List.length_append] at hlength
    omega
  simp only [scaled, hvalue, hboth, htaken, htake]

theorem scale?_eq_some_iff :
    Scaled.scale? size p = some x ↔ Scales size p x := by
  have hreach : Scaled.reach = 308 := rfl
  constructor
  · intro h
    fun_induction Scaled.scale? size p with
    | case1 size p hp hneg =>
      obtain ⟨k, rfl⟩ := Int.eq_negSucc_of_lt_zero hneg
      obtain rfl := Option.some.inj h
      exact .down k.succ_pos hp
    | case2 => cases h
    | case3 size p hp hneg product hinf =>
      obtain ⟨k, rfl⟩ := Int.eq_ofNat_of_zero_le (Int.not_lt.1 hneg)
      obtain rfl := Option.some.inj h
      exact .up hp (Bool.eq_false_of_not_eq_true hinf)
    | case4 size p hp hzero =>
      obtain rfl := Option.some.inj h
      exact .zero (Nat.lt_of_not_le hp) hzero
    | case5 size p hp hzero hneg ih =>
      obtain ⟨k, hpos, rfl⟩ : ∃ k : Nat, 0 < k ∧ p = -(308 + k : Int) :=
        ⟨p.natAbs - 308, by omega, by omega⟩
      refine .further hpos (Bool.eq_false_of_not_eq_true hzero) ?_
      have hpower : -(308 + k : Int) + Scaled.reach = -k := by omega
      rw [← hpower]
      exact ih h
    | case6 => cases h
  · intro h
    induction h with
    | up hk hfinite =>
      rw [Scaled.scale?, if_pos (by exact hk), if_neg (by omega)]
      exact if_neg (Bool.eq_false_iff.1 hfinite)
    | down hpos hk =>
      rw [Scaled.scale?, Int.natAbs_neg, if_pos (by exact hk), if_pos (by omega)]
      rfl
    | @further size x k hpos hsize h ih =>
      have hpower : -(308 + k : Int) + Scaled.reach = -k := by omega
      rw [Scaled.scale?, if_neg (by omega), if_neg (Bool.eq_false_iff.1 hsize), if_pos (by omega),
        hpower]
      exact ih
    | zero hp hsize =>
      rw [Scaled.scale?, if_neg (by omega), if_pos hsize]

theorem Counts.unique {cut' kept' : Nat} (h : a.Counts cut kept) (h' : a.Counts cut' kept') :
    cut = cut' ∧ kept = kept' := by
  obtain rfl := h.fewest.unique h'.fewest
  exact ⟨rfl, h.most.unique h'.most⟩

/-- Digits whose number stays below the bound all count: the numeral stands for all of them and
the power of ten at which the last one is written. -/
theorem worth_iff_of_lt (hlt : joined a.whole a.fraction < 2 ^ 64) :
    a.Worth x ↔ ∃ size, Scales (joined a.whole a.fraction).toUInt64.toFloat
      (a.exponent.getD 0 - a.fraction.length) size ∧ x = if a.negative then -size else size := by
  have hall : ∀ {cut kept}, a.Counts cut kept → cut = 0 ∧ kept = a.fraction.length := by
    intro cut kept h
    have hcut : cut ≤ 0 := h.fewest.2 (by simpa using (le_joined a.whole a.fraction).trans_lt hlt)
    obtain rfl := Nat.le_zero.1 hcut
    have hkept : a.fraction.length ≤ kept := h.most.2 ⟨le_refl _, by simpa using hlt⟩
    exact ⟨rfl, h.most.1.1.antisymm hkept⟩
  constructor
  · rintro ⟨cut, kept, size, hcounts, hsize, hx⟩
    obtain ⟨rfl, rfl⟩ := hall hcounts
    exact ⟨size, by simpa using hsize, hx⟩
  · rintro ⟨size, hsize, hx⟩
    obtain ⟨cut, kept, hcounts, -⟩ := counts_of_gather a
    obtain ⟨rfl, rfl⟩ := hall hcounts
    exact ⟨0, _, size, hcounts, by simpa using hsize, hx⟩

theorem toFloat?_eq_some_iff : a.toFloat? = some x ↔ a.Worth x := by
  obtain ⟨cut, kept, hcounts, hscaled⟩ := counts_of_gather a
  rw [toFloat?, Scaled.toFloat?, hscaled, Option.map_eq_some_iff]
  constructor
  · rintro ⟨size, hsize, rfl⟩
    exact ⟨cut, kept, size, hcounts, scale?_eq_some_iff.1 hsize, rfl⟩
  · rintro ⟨cut', kept', size, hcounts', hsize, rfl⟩
    obtain ⟨rfl, rfl⟩ := hcounts.unique hcounts'
    exact ⟨size, scale?_eq_some_iff.2 hsize, rfl⟩

end Numeral

end UseGraph.Decimal
