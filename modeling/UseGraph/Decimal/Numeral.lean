/-!
# Decimal numerals

A numeral as data formats write it: an optional minus, a whole part without
leading zeros, then possibly a fraction and a power of ten. Reading keeps every
digit. As a machine number, digits join a whole significand below two to the
sixty-four; from the first that would pass it, those of the whole part count
as zeros and those of the fraction not at all. The significand is rounded to a
double and so is every scaling of it, by powers of ten that are doubles
themselves, so the result need not be the nearest double. The rule settles it
to the last bit, and gives none beyond the finite range.
-/

set_option autoImplicit false

namespace UseGraph.Decimal

abbrev Digit := Fin 10

def Digit.zero : Digit := 0

def Digit.toChar (d : Digit) : Char := Nat.digitChar d.val

def digit? (c : Char) : Option Digit :=
  if h : 48 ≤ c.toNat ∧ c.toNat ≤ 57 then some ⟨c.toNat - 48, by omega⟩ else none

def digitRun : List Char → List Digit × List Char
  | [] => ([], [])
  | c :: r =>
    match digit? c with
    | none => ([], c :: r)
    | some d =>
      match digitRun r with
      | (ds, t) => (d :: ds, t)

def natOfDigits (ds : List Digit) : Nat :=
  ds.foldl (fun n d => 10 * n + d.val) 0

def lastDigits : Nat → Nat → List Digit
  | 0, _ => []
  | w + 1, n => lastDigits w (n / 10) ++ [Fin.ofNat 10 n]

structure Numeral where
  negative : Bool
  whole : Nat
  fraction : List Digit
  exponent : Option Int
  deriving DecidableEq, Repr

namespace Numeral

def ofNat (n : Nat) : Numeral := ⟨false, n, [], none⟩

def wholePart? (s : List Char) : Option (Nat × List Char) :=
  match digitRun s with
  | ([], _) => none
  | ([d], r) => some (d.val, r)
  | (d :: ds, r) => if d.val = 0 then none else some (natOfDigits (d :: ds), r)

def fractionPart? : List Char → Option (List Digit × List Char)
  | '.' :: s =>
    match digitRun s with
    | ([], _) => none
    | (ds, r) => some (ds, r)
  | s => some ([], s)

def signed : List Char → Bool × List Char
  | '-' :: r => (true, r)
  | '+' :: r => (false, r)
  | r => (false, r)

def exponentPart? : List Char → Option (Option Int)
  | [] => some none
  | c :: s =>
    if c = 'e' ∨ c = 'E' then
      match signed s, digitRun (signed s).2 with
      | _, ([], _) => none
      | (minus, _), (ds, []) =>
        some (some (if minus then -(natOfDigits ds : Int) else natOfDigits ds))
      | _, _ => none
    else none

def unsigned? (negative : Bool) (s : List Char) : Option Numeral := do
  let (whole, s) ← wholePart? s
  let (fraction, s) ← fractionPart? s
  let exponent ← exponentPart? s
  return ⟨negative, whole, fraction, exponent⟩

def read? : List Char → Option Numeral
  | '-' :: s => unsigned? true s
  | s => unsigned? false s

def render (n : Numeral) : List Char :=
  (if n.negative then ['-'] else [])
    ++ Nat.toDigits 10 n.whole
    ++ (if n.fraction.isEmpty then [] else '.' :: n.fraction.map Digit.toChar)
    ++ match n.exponent with
      | none => []
      | some (.ofNat e) => 'e' :: '+' :: Nat.toDigits 10 e
      | some (.negSucc e) => 'e' :: '-' :: Nat.toDigits 10 (e + 1)

def nat? (n : Numeral) : Option Nat :=
  if n.negative || !n.fraction.isEmpty || n.exponent.isSome then none else some n.whole

end Numeral

structure Scaled where
  significand : Nat
  power : Int
  deriving DecidableEq, Repr

def gather (n : Nat) : List Digit → Nat × List Digit
  | [] => (n, [])
  | d :: ds => if 10 * n + d.val < UInt64.size then gather (10 * n + d.val) ds else (n, d :: ds)

namespace Scaled

def reach : Nat := 308

def powerOfTen (k : Nat) : Float := Float.ofScientific 1 false k

def scale? (size : Float) (power : Int) : Option Float :=
  if power.natAbs ≤ reach then
    if power < 0 then some (size / powerOfTen power.natAbs)
    else
      let product := size * powerOfTen power.natAbs
      if product.isInf then none else some product
  else if size == 0 then some size
  else if power < 0 then scale? (size / powerOfTen reach) (power + reach)
  else none
termination_by power.natAbs
decreasing_by simp only [reach] at *; omega

def toFloat? (s : Scaled) : Option Float :=
  scale? s.significand.toUInt64.toFloat s.power

end Scaled

namespace Numeral

def wholeDigits (n : Numeral) : List Digit :=
  lastDigits (Nat.toDigits 10 n.whole).length n.whole

def scaled (n : Numeral) : Scaled :=
  let whole := gather 0 n.wholeDigits
  let both := gather whole.1 n.fraction
  let taken := n.fraction.length - both.2.length
  { significand := both.1
    power := n.exponent.getD 0 + whole.2.length - taken }

def toFloat? (n : Numeral) : Option Float :=
  n.scaled.toFloat?.map fun size => if n.negative then -size else size

end Numeral

end UseGraph.Decimal
