/-!
# Numbers written in digits

Digits up to sixteen and the numbers that rows of them stand for, the first digit counting most.
-/

namespace CoolHierarchy.Digits

/-- The number that a decimal row stands for. -/
def decimal (ds : List Char) : Nat := Nat.ofDigitChars 10 ds 0

theorem decimal_toDigits (n : Nat) : decimal (Nat.toDigits 10 n) = n :=
  Nat.ofDigitChars_toDigits (by decide) (by decide)

/-- The value of a digit, in capitals or not. -/
def value? (c : Char) : Option Nat :=
  if '0' ≤ c && c ≤ '9' then some (c.toNat - 48)
  else if 'a' ≤ c && c ≤ 'f' then some (c.toNat - 87)
  else if 'A' ≤ c && c ≤ 'F' then some (c.toNat - 55)
  else none

def ofValue (n : Nat) : Char :=
  if n < 10 then Char.ofNat (48 + n) else Char.ofNat (87 + n)

theorem value?_ofValue {n : Nat} (h : n < 16) : value? (ofValue n) = some n := by
  have hall : ∀ m : Fin 16, value? (ofValue m) = some m.val := by decide
  exact hall ⟨n, h⟩

/-- The number that a row stands for, if all of it is digits of the base. -/
def toNat? (base : Nat) (ds : List Char) : Option Nat :=
  ds.foldlM (fun n c =>
    match value? c with
    | some d => if d < base then some (base * n + d) else none
    | none => none) 0

def isDigitOf (base : Nat) (c : Char) : Bool :=
  (value? c).any (· < base)

end CoolHierarchy.Digits
