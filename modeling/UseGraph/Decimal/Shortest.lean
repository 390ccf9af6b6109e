import UseGraph.Decimal.Numeral

/-!
# Doubles by their bits and as decimals

The bits give every double a place in one total order: negative numbers by
falling, positive ones by rising magnitude, the zeros apart, and the result of
an invalid operation below everything.

A double `m` times two to the power `q` owns the interval of reals that round
to it, which is half a step on either side, or a quarter below a power of two.
The shortest decimal in the interval lies on the coarsest grid of powers of
ten that meets it; of two neighbours there the nearer one is taken, and of two
equally near ones the even. Its digits are spread around a point while the
leading one stands between the fifth place after it and the sixteenth before
it; otherwise one digit stands before the point and a signed power of ten
follows.
-/

set_option autoImplicit false

namespace UseGraph.Decimal.Binary64

/-- The invalid result carries the sign bit; there is one such value. -/
def bits (x : Float) : UInt64 :=
  if x.isNaN then 0xfff8000000000000 else x.toBits

def negative (x : Float) : Bool := 0x8000000000000000 ≤ bits x

def rank (x : Float) : Nat :=
  let b := (bits x).toNat
  if Nat.pow 2 63 ≤ b then Nat.pow 2 64 - 1 - b else Nat.pow 2 63 + b

def magnitude (x : Float) : Nat × Int :=
  let b : Nat := (bits x).toNat % Nat.pow 2 63
  let e : Nat := b / Nat.pow 2 52
  let f : Nat := b % Nat.pow 2 52
  if e = 0 then (f, -1074) else (Nat.pow 2 52 + f, (e : Int) - 1075)

end UseGraph.Decimal.Binary64

namespace UseGraph.Decimal

/-- A grid against a number: `low`, `value` and `high` are four times the
ends of its interval and the number, and `unit` four grid steps, all in one
common unit. -/
structure Grid where
  low : Nat
  value : Nat
  high : Nat
  unit : Nat
  closed : Bool

def Grid.at (m : Nat) (q k : Int) : Grid :=
  let scale := Nat.pow 2 q.toNat * Nat.pow 10 (-k).toNat
  let below := if m = Nat.pow 2 52 ∧ -1074 < q then 1 else 2
  { low := (4 * m - below) * scale
    value := 4 * m * scale
    high := (4 * m + 2) * scale
    unit := 4 * Nat.pow 10 k.toNat * Nat.pow 2 (-q).toNat
    closed := m % 2 = 0 }

def Grid.owns (g : Grid) (n : Nat) : Bool :=
  if g.closed then g.low ≤ n * g.unit && n * g.unit ≤ g.high
  else g.low < n * g.unit && n * g.unit < g.high

def Grid.point? (g : Grid) : Option Nat :=
  let n := g.value / g.unit
  let past := g.value - n * g.unit
  let left := (n + 1) * g.unit - g.value
  match g.owns n, g.owns (n + 1) with
  | false, false => none
  | true, false => some n
  | false, true => some (n + 1)
  | true, true =>
    if past < left then some n
    else if left < past then some (n + 1)
    else some (if n % 2 = 0 then n else n + 1)

/-- The shortest decimal `n` times ten to the power `k`. Every positive
double meets one of the grids from the 309th power down to the -324th. -/
def shortest? (m : Nat) (q : Int) : Option (Nat × Int) :=
  (List.range 634).findSome? fun (i : Nat) =>
    ((Grid.at m q (309 - (i : Int))).point?).map fun n => (n, 309 - (i : Int))

structure Style where
  lowestPlain : Int
  highestPlain : Int

def style : Style := ⟨-5, 15⟩

def plain (negative : Bool) (n : Nat) (k : Int) : Numeral :=
  if 0 ≤ k then ⟨negative, n * Nat.pow 10 k.toNat, [Digit.zero], none⟩
  else
    let places := (-k).toNat
    ⟨negative, n / Nat.pow 10 places, lastDigits places n, none⟩

def scientific (negative : Bool) (n : Nat) (k : Int) : Numeral :=
  let places := (Nat.toDigits 10 n).length - 1
  ⟨negative, n / Nat.pow 10 places, lastDigits places n, some (k + places)⟩

def spread (s : Style) (negative : Bool) (n : Nat) (k : Int) : Numeral :=
  let leading := k + ((Nat.toDigits 10 n).length - 1 : Nat)
  if s.lowestPlain ≤ leading ∧ leading ≤ s.highestPlain then plain negative n k
  else scientific negative n k

def ofFloat? (x : Float) : Option Numeral :=
  let sign := Binary64.negative x
  let (m, q) := Binary64.magnitude x
  if !x.isFinite then none
  else if m = 0 then some ⟨sign, 0, [Digit.zero], none⟩
  else (shortest? m q).map fun (n, k) => spread style sign n k

end UseGraph.Decimal
