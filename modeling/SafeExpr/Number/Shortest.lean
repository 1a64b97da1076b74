/-
  SafeExpr/Number/Shortest.lean
  =============================
  **The shortest decimal that reads back as a given double.**

  Around a positive double `m · 2^q` lies the interval of the reals that round to it;
  the ends belong to it exactly when `m` is even.  Among the decimals `c · 10^k` in
  that interval, `shortest` finds one whose `c` has the fewest digits, and among
  those the nearest to the double.

  On the grid of the decimals with `n` digits only the two neighbours of the value
  need a test: if any point of a grid lies in the interval, so does one of them.  The
  first grid with a hit, for `n = 1, 2, … 17`, therefore decides.  All arithmetic is
  on natural numbers.
-/
import SafeExpr.Number.Double

namespace SafeExpr

/-- The number `digits · 10^exponent`. -/
structure Decimal where
  digits : Nat
  exponent : Int
deriving DecidableEq, Repr

namespace Decimal

/-- The decimal digits of `n`, most significant first. -/
def digitChars (n : Nat) : List Char := Nat.toDigits 10 n

/-- Drops the zeros at the end of `digits`. -/
def trim : Nat → Decimal → Decimal
  | 0, d => d
  | fuel + 1, d =>
    if d.digits % 10 = 0 && d.digits != 0 then trim fuel ⟨d.digits / 10, d.exponent + 1⟩ else d

end Decimal

namespace Double

/-- Which neighbour is taken when a double lies exactly halfway between two decimals
    of the least length. -/
inductive Tie where
  | away | toEven
deriving DecidableEq, Repr

/-- The interval of a positive double, in quarters of `2^q`: from `low` over the value
    itself to `high`.  Below a power of two the doubles are twice as dense. -/
structure Rounding where
  low : Nat
  value : Nat
  high : Nat
  closed : Bool
deriving Repr

def rounding (x : Double) : Rounding :=
  let m := x.mantissa
  let gap := if m = Nat.pow 2 52 && x.exponent != -1074 then 1 else 2
  { low := 4 * m - gap, value := 4 * m, high := 4 * m + 2, closed := m % 2 = 0 }

/-- Is `c` (in the unit of the interval's ends times `scale`) inside? -/
def Rounding.holds (r : Rounding) (scale c : Nat) : Bool :=
  if r.closed then r.low * scale ≤ c && c ≤ r.high * scale
  else r.low * scale < c && c < r.high * scale

/-- The exponent `p` with `10^p ≤ n / d < 10^(p + 1)`, corrected from an estimate by
    the binary logarithms. -/
def decimalExponent (n d : Nat) : Int :=
  let estimate : Int := ((n.log2 : Int) - d.log2) * 30103 / 100000
  let atLeast (p : Int) : Bool :=
    if 0 ≤ p then d * Nat.pow 10 p.toNat ≤ n else d ≤ n * Nat.pow 10 (-p).toNat
  if atLeast (estimate + 1) then estimate + 1
  else if atLeast estimate then estimate
  else estimate - 1

/-- The decimal of exponent `k` next to the value that lies in the interval, the nearer
    one of two.  Lengths are multiples of `2^(q-2)`, brought to integers by `up` on the
    binary and `unit` on the decimal side. -/
def onGrid (r : Rounding) (tie : Tie) (up unit : Nat) : Option Nat :=
  let c := r.value * up / unit
  let left := r.value * up % unit
  match r.holds up (c * unit), r.holds up ((c + 1) * unit) with
  | true, false => some c
  | false, true => some (c + 1)
  | false, false => none
  | true, true =>
    if 2 * left < unit then some c
    else if unit < 2 * left then some (c + 1)
    else match tie with
      | .away => some (c + 1)
      | .toEven => some (if c % 2 = 0 then c else c + 1)

/-- Tries the grids of `n, n + 1, …` digits, `fuel` of them. -/
def searchGrids (x : Double) (tie : Tie) (top : Int) : Nat → Nat → Decimal
  | 0, _ => ⟨0, 0⟩
  | fuel + 1, n =>
    let k : Int := top + 1 - n
    let q := x.exponent - 2
    let up := Nat.pow 2 q.toNat * Nat.pow 10 (-k).toNat
    let unit := Nat.pow 10 k.toNat * Nat.pow 2 (-q).toNat
    match onGrid x.rounding tie up unit with
    | some c => ⟨c, k⟩
    | none => searchGrids x tie top fuel (n + 1)

/-- The shortest decimal for the absolute value of a finite double; zero is `0 · 10^0`. -/
def shortest (tie : Tie) (x : Double) : Decimal :=
  if x.mantissa = 0 then ⟨0, 0⟩
  else
    let top :=
      decimalExponent (x.mantissa * Nat.pow 2 x.exponent.toNat) (Nat.pow 2 (-x.exponent).toNat)
    Decimal.trim 17 (searchGrids x tie top 17 1)

end Double

end SafeExpr
