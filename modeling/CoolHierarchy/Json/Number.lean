import CoolHierarchy.Digits

/-!
# Number literals

A number is kept as it is written: sign, whole part, fraction and exponent. Two readings are taken
of it, both exact: the natural number that a plain literal stands for, and whether the value lies
in the range of binary floating-point numbers of double precision.
-/

namespace CoolHierarchy

/-- A number literal. The fraction is its list of digits. -/
structure NumberLiteral where
  negative : Bool := false
  whole : Nat
  fraction : Option (List Char) := none
  exponent : Option Int := none
deriving DecidableEq, Repr, Inhabited

namespace NumberLiteral

def ofNat (n : Nat) : NumberLiteral := { whole := n }

/-- The value of a literal without sign, fraction and exponent. -/
def toNat? (n : NumberLiteral) : Option Nat :=
  if n.negative || n.fraction.isSome || n.exponent.isSome then none else some n.whole

@[simp] theorem toNat?_ofNat (n : Nat) : (ofNat n).toNat? = some n := rfl

/-! ## Reading -/

/-- Splits off a run of digits, which must not be empty. -/
def digits? (cs : List Char) : Option (List Char × List Char) :=
  match cs.takeWhile Char.isDigit with
  | [] => none
  | ds => some (ds, cs.dropWhile Char.isDigit)

/-- Splits off a whole part, which has no needless zeros in front. -/
def whole? (cs : List Char) : Option (Nat × List Char) := do
  let (ds, rest) ← digits? cs
  if ds.length > 1 && ds.head? == some '0' then none else some (Digits.decimal ds, rest)

/-- Splits off a fraction if a point announces one. -/
def fraction? : List Char → Option (Option (List Char) × List Char)
  | '.' :: cs => do
    let (ds, rest) ← digits? cs
    some (some ds, rest)
  | cs => some (none, cs)

/-- Splits off a sign; without one it is positive. -/
def takeSign : List Char → Bool × List Char
  | '-' :: cs => (true, cs)
  | '+' :: cs => (false, cs)
  | cs => (false, cs)

/-- Splits off an exponent if a letter announces one. -/
def exponent? : List Char → Option (Option Int × List Char)
  | [] => some (none, [])
  | c :: cs =>
    if c == 'e' || c == 'E' then do
      let (negative, cs) := takeSign cs
      let (ds, rest) ← digits? cs
      let n : Int := Digits.decimal ds
      some (some (if negative then -n else n), rest)
    else some (none, c :: cs)

/-- Splits a literal off the front of a text. -/
def scan? (cs : List Char) : Option (NumberLiteral × List Char) := do
  let (negative, cs) := match cs with
    | '-' :: cs => (true, cs)
    | cs => (false, cs)
  let (whole, cs) ← whole? cs
  let (fraction, cs) ← fraction? cs
  let (exponent, cs) ← exponent? cs
  some ({ negative, whole, fraction, exponent }, cs)

/-! ## Printing -/

/-- The shortest spelling of a literal. -/
def text (n : NumberLiteral) : List Char :=
  (if n.negative then ['-'] else [])
    ++ Nat.toDigits 10 n.whole
    ++ (match n.fraction with
        | some ds => '.' :: ds
        | none => [])
    ++ (match n.exponent with
        | some (.ofNat e) => 'e' :: Nat.toDigits 10 e
        | some (.negSucc e) => 'e' :: '-' :: Nat.toDigits 10 (e + 1)
        | none => [])

/-! ## Range -/

/-- Rounds to 53 significant bits; a tie goes to the even neighbour. -/
def round53 (n : Nat) : Nat :=
  let shift := Nat.log2 n + 1 - 53
  let unit := Nat.pow 2 shift
  let q := n / unit
  let r := n % unit
  let up := 2 * r > unit || (2 * r == unit && q % 2 == 1)
  (if up then q + 1 else q) * unit

/-- Extends a significand by digits for as long as it fits into 64 bits. Returns it with the
number of digits that it took up. -/
def takeSignificand : Nat → List Char → Nat × Nat
  | s, [] => (s, 0)
  | s, c :: cs =>
    let s' := 10 * s + (c.toNat - 48)
    if s' < UInt64.size then
      let (s, n) := takeSignificand s' cs
      (s, n + 1)
    else (s, 0)

/-- Whether a literal has a finite value. The value is computed from a significand of 64 bits and
a power of ten, each rounded to double precision before they are multiplied; it is zero for a zero
significand. -/
def isFinite (n : NumberLiteral) : Bool :=
  let digits := Nat.toDigits 10 n.whole
  let (s, taken) := takeSignificand 0 digits
  let dropped := digits.length - taken
  let (s, fractionTaken) := takeSignificand s (n.fraction.getD [])
  let exponent : Int := n.exponent.getD 0 + dropped - fractionTaken
  s == 0 || exponent < 0 ||
    (exponent ≤ 308 && round53 (round53 s * round53 (Nat.pow 10 exponent.toNat)) < Nat.pow 2 1024)

end NumberLiteral

end CoolHierarchy
