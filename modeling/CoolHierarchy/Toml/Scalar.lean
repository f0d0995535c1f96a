import CoolHierarchy.Toml.Text

/-!
# TOML numbers, truth values and points in time

A scalar that is not quoted is a run of characters, which is read as a whole by the first grammar
that it fits. Integers have 64 bits. A float is refused when it lies above the range of double
precision; below that range it is not.
-/

namespace CoolHierarchy.Toml.Reader

/-- A digit and more digits after it, in groups parted by single underscores. Gives the digits. -/
def digitGroups (isDigit : Char → Bool) : Reader (List Char) := do
  let groups ← separatedBy
    (do
      match ← takeWhile isDigit with
      | [] => failure
      | ds => return ds)
    (char '_')
  return groups.flatten

/-- A sign; `true` stands for minus. -/
def sign : Reader Bool :=
  (do char '-'; return true) <|> (do char '+'; return false) <|> return false

def decimalDigits : Reader (List Char) := do
  let ds ← digitGroups Char.isDigit
  if ds.length > 1 && ds.head? == some '0' then failure else return ds

/-! ## Integers -/

def inRange (n : Int) : Bool := Int64.minValue.toInt ≤ n && n ≤ Int64.maxValue.toInt

def checked (n : Int) : Reader Int :=
  if inRange n then return n else failure

/-- An integer with a base of its own, which has no sign. -/
def basedInteger (mark : Char) (base : Nat) : Reader Int := do
  char '0'
  char mark
  match Digits.toNat? base (← digitGroups (Digits.isDigitOf base)) with
  | some n => checked n
  | none => failure

def decimalInteger : Reader Int := do
  let negative ← sign
  let n : Int := Digits.decimal (← decimalDigits)
  checked (if negative then -n else n)

def integer : Reader Int :=
  basedInteger 'x' 16 <|> basedInteger 'o' 8 <|> basedInteger 'b' 2 <|> decimalInteger

/-! ## Floats -/

/-- The least number that rounds to infinity in double precision. -/
def overflowBound : Nat := Nat.pow 2 1024 - Nat.pow 2 970

/-- Whether `mantissa · 10 ^ exponent` rounds to infinity. A glance at the number of digits settles
all but the numbers near the bound, which has 309 digits. -/
def overflows (mantissa : Nat) (exponent : Int) : Bool :=
  let magnitude : Int := (Nat.toDigits 10 mantissa).length + exponent
  if mantissa == 0 || magnitude < 309 then false
  else if magnitude > 309 then true
  else if exponent ≥ 0 then mantissa * Nat.pow 10 exponent.toNat ≥ overflowBound
  else mantissa ≥ overflowBound * Nat.pow 10 (-exponent).toNat

def fraction : Reader (List Char) := do
  char '.'
  digitGroups Char.isDigit

def exponent : Reader Int := do
  discard (charWhere fun c => c == 'e' || c == 'E')
  let negative ← sign
  let n : Int := Digits.decimal (← digitGroups Char.isDigit)
  return if negative then -n else n

def decimalFloat : Reader Unit := do
  let negative ← sign
  let whole ← decimalDigits
  let frac ← optional fraction
  let exp ← optional exponent
  if frac.isNone && exp.isNone then failure
  let frac := frac.getD []
  let tooLarge := overflows (Digits.decimal (whole ++ frac)) (exp.getD 0 - frac.length)
  if tooLarge && !negative then failure

def float : Reader Unit :=
  decimalFloat <|> (do discard sign; text ['i', 'n', 'f'] <|> text ['n', 'a', 'n'])

/-! ## Points in time -/

/-- A number of exactly so many digits that lies between two bounds. -/
def fixedNumber (digits low high : Nat) : Reader Nat := do
  let cs ← rest
  let ds := cs.take digits
  if ds.length == digits && ds.all Char.isDigit then
    set (cs.drop digits)
    let n := Digits.decimal ds
    if low ≤ n && n ≤ high then return n else failure
  else failure

def isLeapYear (year : Nat) : Bool :=
  year % 4 == 0 && (year % 100 != 0 || year % 400 == 0)

def daysInMonth (year month : Nat) : Nat :=
  if month == 2 then (if isLeapYear year then 29 else 28)
  else if month == 4 || month == 6 || month == 9 || month == 11 then 30
  else 31

def date : Reader Unit := do
  let year ← fixedNumber 4 0 9999
  char '-'
  let month ← fixedNumber 2 1 12
  char '-'
  discard (fixedNumber 2 1 (daysInMonth year month))

/-- A time of day; a leap second is the sixtieth. -/
def time : Reader Unit := do
  discard (fixedNumber 2 0 23)
  char ':'
  discard (fixedNumber 2 0 59)
  char ':'
  discard (fixedNumber 2 0 60)
  discard (optional (do
    char '.'
    match ← takeWhile Char.isDigit with
    | [] => failure
    | _ => return ()))

def timeOffset : Reader Unit :=
  char 'Z' <|> char 'z' <|> (do
    discard (charWhere fun c => c == '+' || c == '-')
    discard (fixedNumber 2 0 23)
    char ':'
    discard (fixedNumber 2 0 59))

def datetime : Reader Unit :=
  (do
    date
    discard (optional (do
      discard (charWhere fun c => c == 'T' || c == 't' || c == ' ')
      time
      discard (optional timeOffset))))
  <|> time

/-! ## Scalars -/

/-- Runs a reader and gives the text that it took. -/
def textOf (r : Reader Unit) : Reader String := do
  let before ← rest
  r
  return String.ofList (before.take (before.length - (← rest).length))

/-- What may not follow a scalar directly: it would have been part of it. -/
def isScalarChar (c : Char) : Bool :=
  c.isAlphanum || c == '_' || c == '-' || c == '+' || c == '.' || c == ':'

/-- A scalar must end where it ends. -/
def delimited (r : Reader α) : Reader α := do
  let a ← r
  match ← rest with
  | c :: _ => if isScalarChar c then failure else return a
  | [] => return a

def scalar : Reader Toml :=
  (do return .string (← string))
  <|> delimited (do return .datetime (← textOf datetime))
  <|> delimited (do return .float (← textOf float))
  <|> delimited (do return .integer (← integer))
  <|> delimited (do text ['t', 'r', 'u', 'e']; return .boolean true)
  <|> delimited (do text ['f', 'a', 'l', 's', 'e']; return .boolean false)

end CoolHierarchy.Toml.Reader
