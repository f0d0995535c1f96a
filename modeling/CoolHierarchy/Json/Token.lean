import CoolHierarchy.Json.Basic
import CoolHierarchy.Json.Text

/-!
# Tokens of a JSON text

A text is cut into marks, words, numbers and quoted texts; blanks between them carry no meaning.
Every token takes at least one character, so cutting comes to an end.
-/

namespace CoolHierarchy.Json

inductive Token where
  | openArray
  | closeArray
  | openObject
  | closeObject
  | colon
  | comma
  | null
  | bool (b : Bool)
  | number (n : NumberLiteral)
  | string (text? : Option String)
deriving DecidableEq, Repr, Inhabited

namespace Token

/-- Blanks between tokens: space, tab, line feed and carriage return. -/
def isBlank (c : Char) : Bool :=
  c == ' ' || c == '\t' || c == '\n' || c == '\r'

/-- The token of a single character. -/
def mark? : Char → Option Token
  | '[' => some openArray
  | ']' => some closeArray
  | '\x7b' => some openObject
  | '\x7d' => some closeObject
  | ':' => some colon
  | ',' => some comma
  | _ => none

def words : List (List Char × Token) :=
  [(['n', 'u', 'l', 'l'], null),
   (['t', 'r', 'u', 'e'], bool true),
   (['f', 'a', 'l', 's', 'e'], bool false)]

/-- Splits a word off the front of a text. -/
def word? (cs : List Char) : Option (Token × List Char) :=
  (words.find? fun (word, _) => word.isPrefixOf cs).map fun (word, t) => (t, cs.drop word.length)

/-- Splits a token off the front of a text that starts with no blank. -/
def next? : List Char → Option (Token × List Char)
  | [] => none
  | c :: rest =>
    match mark? c with
    | some t => some (t, rest)
    | none =>
      if c == '"' then (scanText? rest).map fun (text?, rest) => (string text?, rest)
      else if c == '-' || c.isDigit then
        (NumberLiteral.scan? (c :: rest)).map fun (n, rest) => (number n, rest)
      else word? (c :: rest)

def text : Token → List Char
  | openArray => ['[']
  | closeArray => [']']
  | openObject => ['\x7b']
  | closeObject => ['\x7d']
  | colon => [':']
  | comma => [',']
  | null => ['n', 'u', 'l', 'l']
  | bool true => ['t', 'r', 'u', 'e']
  | bool false => ['f', 'a', 'l', 's', 'e']
  | number n => n.text
  | string text? => quote text?

end Token

/-! ## Every token is shorter than the text it is cut from -/

theorem scanPieces_length {done : List Piece} {cs : List Char} {ps : List Piece} {rest : List Char}
    (h : scanPieces done cs = some (ps, rest)) : rest.length < cs.length := by
  fun_induction scanPieces done cs with
  | case1 => simp at h
  | case2 done r =>
    simp only [Option.some.injEq, Prod.mk.injEq] at h
    simp [h.2]
  | case3 done a b c d r u _ ih =>
    have := ih h
    simp only [List.length_cons]
    omega
  | case4 => simp at h
  | case5 done e r _ c _ ih =>
    have := ih h
    simp only [List.length_cons]
    omega
  | case6 => simp at h
  | case7 => simp at h
  | case8 done c r _ _ _ _ ih =>
    have := ih h
    simp only [List.length_cons]
    omega

theorem scanText?_length {cs : List Char} {text? : Option String} {rest : List Char}
    (h : scanText? cs = some (text?, rest)) : rest.length < cs.length := by
  simp only [scanText?, Option.bind_eq_bind, Option.bind_eq_some_iff, Option.some.injEq,
    Prod.mk.injEq] at h
  obtain ⟨⟨ps, r⟩, hs, -, rfl⟩ := h
  exact scanPieces_length hs

end CoolHierarchy.Json

namespace CoolHierarchy.NumberLiteral

theorem digits?_length {cs ds rest : List Char} (h : digits? cs = some (ds, rest)) :
    rest.length < cs.length := by
  have hsplit := congrArg List.length (List.takeWhile_append_dropWhile (p := Char.isDigit) (l := cs))
  unfold digits? at h
  split at h
  · simp at h
  · rename_i hne
    simp only [Option.some.injEq, Prod.mk.injEq] at h
    have hpos : 0 < (cs.takeWhile Char.isDigit).length := List.length_pos_iff.2 hne
    rw [List.length_append] at hsplit
    rw [← h.2]
    omega

theorem whole?_length {cs : List Char} {n : Nat} {rest : List Char}
    (h : whole? cs = some (n, rest)) : rest.length < cs.length := by
  simp only [whole?, Option.bind_eq_bind, Option.bind_eq_some_iff] at h
  obtain ⟨⟨ds, r⟩, hd, h⟩ := h
  split at h
  · simp at h
  · simp only [Option.some.injEq, Prod.mk.injEq] at h
    exact h.2 ▸ digits?_length hd

theorem fraction?_length {cs : List Char} {f : Option (List Char)} {rest : List Char}
    (h : fraction? cs = some (f, rest)) : rest.length ≤ cs.length := by
  unfold fraction? at h
  split at h
  · simp only [Option.bind_eq_bind, Option.bind_eq_some_iff, Option.some.injEq,
      Prod.mk.injEq] at h
    obtain ⟨⟨ds, r⟩, hd, -, rfl⟩ := h
    have := digits?_length hd
    simp only [List.length_cons]
    omega
  · simp only [Option.some.injEq, Prod.mk.injEq] at h
    exact Nat.le_of_eq (congrArg _ h.2.symm)

theorem takeSign_length (cs : List Char) : (takeSign cs).2.length ≤ cs.length := by
  unfold takeSign
  split <;> simp

theorem exponent?_length {cs : List Char} {e : Option Int} {rest : List Char}
    (h : exponent? cs = some (e, rest)) : rest.length ≤ cs.length := by
  unfold exponent? at h
  split at h
  · simp only [Option.some.injEq, Prod.mk.injEq] at h
    simp [← h.2]
  · rename_i c cs
    split at h
    · simp only [Option.bind_eq_bind, Option.bind_eq_some_iff, Option.some.injEq,
        Prod.mk.injEq] at h
      obtain ⟨⟨ds, r⟩, hd, -, rfl⟩ := h
      have h₁ := digits?_length hd
      have h₂ := takeSign_length cs
      simp only [List.length_cons]
      omega
    · simp only [Option.some.injEq, Prod.mk.injEq] at h
      exact Nat.le_of_eq (congrArg _ h.2.symm)

theorem scan?_length {cs : List Char} {n : NumberLiteral} {rest : List Char}
    (h : scan? cs = some (n, rest)) : rest.length < cs.length := by
  unfold scan? at h
  split at h
  rename_i negative tail hsign
  have hlen : tail.length ≤ cs.length := by
    split at hsign
    · simp only [Prod.mk.injEq] at hsign
      simp [← hsign.2]
    · simp only [Prod.mk.injEq] at hsign
      exact Nat.le_of_eq (congrArg _ hsign.2.symm)
  simp only [Option.bind_eq_bind, Option.bind_eq_some_iff, Option.some.injEq, Prod.mk.injEq] at h
  obtain ⟨⟨w, r₁⟩, hw, ⟨f, r₂⟩, hf, ⟨e, r₃⟩, he, -, rfl⟩ := h
  have h₁ := whole?_length hw
  have h₂ := fraction?_length hf
  have h₃ := exponent?_length he
  simp only at h₂ h₃ ⊢
  omega

end CoolHierarchy.NumberLiteral

namespace CoolHierarchy.Json.Token

theorem word?_length {cs : List Char} {t : Token} {rest : List Char}
    (h : word? cs = some (t, rest)) : rest.length < cs.length := by
  simp only [word?, Option.map_eq_some_iff, Prod.mk.injEq] at h
  obtain ⟨⟨word, u⟩, hfind, -, rfl⟩ := h
  have hle : word.length ≤ cs.length := by
    have hword := List.find?_some hfind
    exact (List.isPrefixOf_iff_prefix.1 hword).length_le
  have hpos : 0 < word.length := by
    have hmem := List.mem_of_find?_eq_some hfind
    simp only [words, List.mem_cons, Prod.mk.injEq, List.not_mem_nil, or_false] at hmem
    rcases hmem with h | h | h <;> simp [h.1]
  simp only [List.length_drop, gt_iff_lt]
  omega

theorem next?_length {cs : List Char} {t : Token} {rest : List Char}
    (h : next? cs = some (t, rest)) : rest.length < cs.length := by
  unfold next? at h
  split at h
  · simp at h
  · rename_i c r
    split at h
    · simp only [Option.some.injEq, Prod.mk.injEq] at h
      simp [← h.2]
    · split at h
      · simp only [Option.map_eq_some_iff, Prod.mk.injEq] at h
        obtain ⟨⟨s, r'⟩, hs, -, rfl⟩ := h
        have := scanText?_length hs
        simp only [List.length_cons]
        omega
      · split at h
        · simp only [Option.map_eq_some_iff, Prod.mk.injEq] at h
          obtain ⟨⟨n, r'⟩, hn, -, rfl⟩ := h
          exact NumberLiteral.scan?_length hn
        · exact word?_length h

/-- Cuts a text into tokens. `done` holds the tokens before, last first. -/
def scan (done : List Token) (cs : List Char) : Option (List Token) :=
  match _hcs : cs.dropWhile isBlank with
  | [] => some done.reverse
  | c :: r =>
    match _hnext : next? (c :: r) with
    | none => none
    | some (t, rest) => scan (t :: done) rest
termination_by cs.length
decreasing_by
  have h₁ := next?_length _hnext
  have h₂ := (List.dropWhile_sublist (l := cs) isBlank).length_le
  rw [_hcs] at h₂
  omega

def ofText? (text : String) : Option (List Token) :=
  scan [] text.toList

end CoolHierarchy.Json.Token
