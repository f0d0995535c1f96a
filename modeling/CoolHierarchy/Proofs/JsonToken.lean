import CoolHierarchy.Json.Token
import Mathlib.Data.List.Basic

/-!
# Tokens and their texts

A token is read back from the front of any text that starts with its own text. Only a number needs
more: the character after it must not carry it on. A text that is made of the texts of tokens is
therefore cut into just these tokens, when no two numbers meet in it.

* `NumberLiteral.scan?_text_append`, `Json.scanText?_quote_append`, `Json.Token.next?_text_append`:
  one token is read back.
* `Json.Token.scan_flatMap_text`: a row of tokens is read back.
-/

namespace CoolHierarchy

namespace NumberLiteral

variable {n : NumberLiteral} {ds rest : List Char}

/-- Every fraction that is written has digits, and nothing else. -/
def Readable (n : NumberLiteral) : Prop :=
  ∀ ds ∈ n.fraction, ds ≠ [] ∧ ∀ c ∈ ds, c.isDigit

instance (n : NumberLiteral) : Decidable n.Readable :=
  inferInstanceAs (Decidable (∀ ds ∈ n.fraction, ds ≠ [] ∧ ∀ c ∈ ds, c.isDigit))

/-- Whether a number that stands before a character goes on with it. -/
def carriesOn (c : Char) : Bool :=
  c.isDigit || c == '.' || c == 'e' || c == 'E'

/-- No number goes on with what a text starts with. -/
def Ended (rest : List Char) : Prop :=
  ∀ c ∈ rest.head?, carriesOn c = false

theorem readable_ofNat (k : Nat) : (ofNat k).Readable := by
  intro ds h
  cases h

/-! ## Digits -/

theorem digits?_append (hne : ds ≠ []) (hds : ∀ c ∈ ds, c.isDigit)
    (hrest : ∀ c ∈ rest.head?, c.isDigit = false) : digits? (ds ++ rest) = some (ds, rest) := by
  have htake : rest.takeWhile Char.isDigit = [] := by
    cases rest with
    | nil => rfl
    | cons c rest => simp [hrest c rfl]
  have hdrop : rest.dropWhile Char.isDigit = rest := by
    cases rest with
    | nil => rfl
    | cons c rest => simp [hrest c rfl]
  rw [digits?, List.takeWhile_append_of_pos hds, List.dropWhile_append_of_pos hds, htake, hdrop,
    List.append_nil]
  cases ds with
  | nil => exact absurd rfl hne
  | cons d ds => rfl

/-- A number in digits starts with a zero only if it is zero. -/
theorem head?_toDigits_ne_zero {k : Nat} (h : 0 < k) :
    (Nat.toDigits 10 k).head? ≠ some '0' := by
  induction k using Nat.strongRecOn with
  | ind k ih =>
    rcases Nat.lt_or_ge k 10 with hlt | hge
    · have hall : ∀ m : Fin 10, 0 < m.val → some m.val.digitChar ≠ some '0' := by decide
      rw [Nat.toDigits_of_lt_base hlt]
      exact hall ⟨k, hlt⟩ h
    · rw [Nat.toDigits_of_base_le (by decide) hge,
        List.head?_append_of_ne_nil _ Nat.toDigits_ne_nil]
      exact ih (k / 10) (Nat.div_lt_self h (by decide)) (Nat.div_pos hge (by decide))

theorem digits?_toDigits_append (k : Nat) (hrest : ∀ c ∈ rest.head?, c.isDigit = false) :
    digits? (Nat.toDigits 10 k ++ rest) = some (Nat.toDigits 10 k, rest) :=
  digits?_append Nat.toDigits_ne_nil
    (fun _ hc => Nat.isDigit_of_mem_toDigits (by decide) (by decide) hc) hrest

/-! ## Parts of a literal -/

theorem whole?_toDigits_append (k : Nat) (hrest : ∀ c ∈ rest.head?, c.isDigit = false) :
    whole? (Nat.toDigits 10 k ++ rest) = some (k, rest) := by
  have hzeros : ¬ ((Nat.toDigits 10 k).length > 1 ∧ (Nat.toDigits 10 k).head? = some '0') := by
    rintro ⟨hlength, hhead⟩
    rcases Nat.eq_zero_or_pos k with rfl | hpos
    · simp at hlength
    · exact head?_toDigits_ne_zero hpos hhead
  rw [whole?, digits?_toDigits_append k hrest]
  simp only [Option.bind_eq_bind, Option.bind_some, Digits.decimal_toDigits]
  rw [if_neg (by simpa using hzeros)]

def fractionText : Option (List Char) → List Char
  | some ds => '.' :: ds
  | none => []

def exponentText : Option Int → List Char
  | some (.ofNat e) => 'e' :: Nat.toDigits 10 e
  | some (.negSucc e) => 'e' :: '-' :: Nat.toDigits 10 (e + 1)
  | none => []

theorem text_eq (n : NumberLiteral) : n.text =
    (if n.negative then ['-'] else [])
      ++ Nat.toDigits 10 n.whole ++ fractionText n.fraction ++ exponentText n.exponent := by
  obtain ⟨negative, whole, fraction, exponent⟩ := n
  rcases fraction with _ | ds <;> rcases exponent with _ | e | e <;> rfl

theorem fraction?_append {fraction : Option (List Char)}
    (hds : ∀ ds ∈ fraction, ds ≠ [] ∧ ∀ c ∈ ds, c.isDigit)
    (hrest : ∀ c ∈ rest.head?, c.isDigit = false ∧ c ≠ '.') :
    fraction? (fractionText fraction ++ rest) = some (fraction, rest) := by
  cases fraction with
  | none =>
    cases rest with
    | nil => rfl
    | cons c rest =>
      have hpoint := (hrest c rfl).2
      simp [fractionText, fraction?, hpoint]
  | some ds =>
    obtain ⟨hne, hdigits⟩ := hds ds rfl
    have hread := digits?_append hne hdigits fun c hc => (hrest c hc).1
    simp [fractionText, fraction?, hread]

theorem exists_toDigits_eq_cons (k : Nat) : ∃ d ds, Nat.toDigits 10 k = d :: ds ∧ d.isDigit := by
  cases h : Nat.toDigits 10 k with
  | nil => exact absurd h Nat.toDigits_ne_nil
  | cons d ds =>
    have hd : d ∈ Nat.toDigits 10 k := h ▸ List.mem_cons_self
    exact ⟨d, ds, rfl, Nat.isDigit_of_mem_toDigits (by decide) (by decide) hd⟩

theorem toDigits_append_ne_cons (k : Nat) {c : Char} {cs : List Char} (hc : c.isDigit = false) :
    Nat.toDigits 10 k ++ rest ≠ c :: cs := by
  intro h
  obtain ⟨d, ds, hdigits, hd⟩ := exists_toDigits_eq_cons k
  rw [hdigits, List.cons_append, List.cons.injEq] at h
  rw [h.1, hc] at hd
  cases hd

theorem takeSign_toDigits_append (k : Nat) :
    takeSign (Nat.toDigits 10 k ++ rest) = (false, Nat.toDigits 10 k ++ rest) := by
  rw [takeSign]
  · exact fun _ => toDigits_append_ne_cons k (by decide)
  · exact fun _ => toDigits_append_ne_cons k (by decide)

theorem exponent?_append (exponent : Option Int) (hrest : Ended rest) :
    exponent? (exponentText exponent ++ rest) = some (exponent, rest) := by
  have hdigit : ∀ c ∈ rest.head?, c.isDigit = false := by
    intro c hc
    have hended := hrest c hc
    simp only [carriesOn, Bool.or_eq_false_iff] at hended
    exact hended.1.1.1
  rcases exponent with _ | e | e
  · cases rest with
    | nil => rfl
    | cons c rest =>
      have hended := hrest c rfl
      simp only [carriesOn, Bool.or_eq_false_iff] at hended
      simp [exponentText, exponent?, hended.1.2, hended.2]
  · simp [exponentText, exponent?, takeSign_toDigits_append, digits?_toDigits_append e hdigit,
      Digits.decimal_toDigits]
  · simp [exponentText, exponent?, takeSign, digits?_toDigits_append (e + 1) hdigit,
      Digits.decimal_toDigits, Int.negSucc_eq]

/-! ## A literal -/

theorem head_exponentText_append (exponent : Option Int) (hrest : Ended rest) :
    ∀ c ∈ (exponentText exponent ++ rest).head?, c.isDigit = false ∧ c ≠ '.' := by
  rcases exponent with _ | e | e
  · intro c hc
    have hended := hrest c hc
    simp only [carriesOn, Bool.or_eq_false_iff, beq_eq_false_iff_ne] at hended
    exact ⟨hended.1.1.1, hended.1.1.2⟩
  · rintro c ⟨⟩
    decide
  · rintro c ⟨⟩
    decide

theorem head_fractionText_append (fraction : Option (List Char))
    (hrest : ∀ c ∈ rest.head?, c.isDigit = false ∧ c ≠ '.') :
    ∀ c ∈ (fractionText fraction ++ rest).head?, c.isDigit = false := by
  cases fraction with
  | none => exact fun c hc => (hrest c hc).1
  | some ds =>
    rintro c ⟨⟩
    decide

theorem exists_text_eq_cons (n : NumberLiteral) :
    ∃ c cs, n.text = c :: cs ∧ (c = '-' ∨ c.isDigit) := by
  rw [text_eq]
  cases n.negative with
  | true => exact ⟨'-', _, rfl, .inl rfl⟩
  | false =>
    obtain ⟨d, ds, hdigits, hd⟩ := exists_toDigits_eq_cons n.whole
    exact ⟨d, _, by rw [hdigits]; rfl, .inr hd⟩

theorem scan?_text_append (hn : n.Readable) (hrest : Ended rest) :
    scan? (n.text ++ rest) = some (n, rest) := by
  have hexponent := exponent?_append n.exponent hrest
  have hheadExponent := head_exponentText_append n.exponent hrest
  have hfraction := fraction?_append hn hheadExponent
  have hwhole := whole?_toDigits_append n.whole
    (head_fractionText_append n.fraction hheadExponent)
  rw [text_eq]
  obtain ⟨negative, whole, fraction, exponent⟩ := n
  cases negative with
  | true =>
    simp only [scan?, if_pos, List.cons_append, List.nil_append, List.append_assoc]
    simp only [hwhole, hfraction, hexponent, Option.bind_eq_bind, Option.bind_some]
  | false =>
    simp only [scan?, Bool.false_eq_true, if_false, List.nil_append, List.append_assoc]
    split
    · rename_i heq
      exact absurd heq (toDigits_append_ne_cons whole (by decide))
    · simp only [hwhole, hfraction, hexponent, Option.bind_eq_bind, Option.bind_some]

end NumberLiteral

namespace Json

variable {rest : List Char}

/-! ## Quoted text -/

/-- A piece that stands for a character: the character itself, or its code unit if it is a control
character. -/
inductive Piece.Names : Piece → Char → Prop where
  | char (c : Char) : Names (.char c) c
  | unit {c : Char} (h : c < ' ') : Names (.unit c.toNat) c

theorem toNat?_controlDigits {c : Char} (h : c < ' ') :
    Digits.toNat? 16 ['0', '0', Digits.ofValue (c.toNat / 16), Digits.ofValue (c.toNat % 16)]
      = some c.toNat := by
  have hlt : c.toNat < 32 := h
  have hzero : Digits.value? '0' = some 0 := by decide
  have hhigh : Digits.value? (Digits.ofValue (c.toNat / 16)) = some (c.toNat / 16) :=
    Digits.value?_ofValue (by omega)
  have hlow : Digits.value? (Digits.ofValue (c.toNat % 16)) = some (c.toNat % 16) :=
    Digits.value?_ofValue (by omega)
  have hdiv : c.toNat / 16 < 16 := by omega
  have hmod : c.toNat % 16 < 16 := by omega
  simp only [Digits.toNat?, List.foldlM_cons, List.foldlM_nil, hzero, hhigh, hlow,
    Option.bind_eq_bind, Option.bind_some, hdiv, hmod, if_pos, Nat.zero_lt_succ, Option.pure_def, Option.some.injEq]
  omega

/-- What is written for a character is read as one piece that names it. -/
theorem scanPieces_escape_append (c : Char) : ∃ p, Piece.Names p c ∧
    ∀ done rest, scanPieces done (escape c ++ rest) = scanPieces (p :: done) rest := by
  by_cases hshort : c ∈ ['"', '\\', '\x08', '\x0c', '\n', '\r', '\t']
  · refine ⟨.char c, .char c, fun done rest => ?_⟩
    simp only [List.mem_cons, List.not_mem_nil, or_false] at hshort
    rcases hshort with rfl | rfl | rfl | rfl | rfl | rfl | rfl <;> rfl
  · simp only [List.mem_cons, List.not_mem_nil, or_false, not_or] at hshort
    obtain ⟨hquote, hbackslash, hb, hf, hn, hr, ht⟩ := hshort
    by_cases hcontrol : c < ' '
    · refine ⟨.unit c.toNat, .unit hcontrol, fun done rest => ?_⟩
      simp only [escape, hquote, hbackslash, hb, hf, hn, hr, ht, hcontrol, beq_iff_eq, if_true,
        if_false, List.cons_append, List.nil_append]
      rw [scanPieces, toNat?_controlDigits hcontrol]
    · refine ⟨.char c, .char c, fun done rest => ?_⟩
      simp only [escape, hquote, hbackslash, hb, hf, hn, hr, ht, hcontrol, beq_iff_eq, if_false,
        List.cons_append, List.nil_append]
      rw [scanPieces, if_neg (by simp [hbackslash, hcontrol])]
      · exact hquote
      · exact fun _ _ _ _ _ h => absurd h hbackslash
      · exact fun _ _ h => absurd h hbackslash

theorem scanPieces_escaped_append (cs : List Char) (done : List Piece) (rest : List Char) :
    ∃ ps, List.Forall₂ Piece.Names ps cs ∧
      scanPieces done (cs.flatMap escape ++ '"' :: rest) = some (done.reverse ++ ps, rest) := by
  induction cs generalizing done with
  | nil => exact ⟨[], .nil, by simp [scanPieces]⟩
  | cons c cs ih =>
    obtain ⟨p, hp, hscan⟩ := scanPieces_escape_append c
    obtain ⟨ps, hps, hrest⟩ := ih (p :: done)
    refine ⟨p :: ps, .cons hp hps, ?_⟩
    rw [List.flatMap_cons, List.append_assoc, hscan, hrest, List.reverse_cons, List.append_assoc,
      List.singleton_append]

/-- Control characters are far from the surrogates, so no piece waits for a second half. -/
theorem assemble_of_names {ps : List Piece} {cs : List Char} (h : List.Forall₂ Piece.Names ps cs)
    (done : List Char) : assemble done ps = some (done.reverse ++ cs) := by
  induction h generalizing done with
  | nil => simp [assemble]
  | @cons p c ps cs hp hps ih =>
    have hstep : assemble done (p :: ps) = assemble (c :: done) ps := by
      cases hp with
      | char => rw [assemble]
      | unit hcontrol =>
        have hlt : c.toNat < 32 := hcontrol
        have hhigh : isHighSurrogate c.toNat = false := by simp [isHighSurrogate]; omega
        have hlow : isLowSurrogate c.toNat = false := by simp [isLowSurrogate]; omega
        rcases ps with _ | ⟨q | u, ps⟩ <;> simp [assemble, hhigh, hlow, Char.ofNat_toNat]
    rw [hstep, ih, List.reverse_cons, List.append_assoc, List.singleton_append]

theorem scanText?_quote_append (text? : Option String) (rest : List Char) :
    ∃ cs, quote text? = '"' :: cs ∧ scanText? (cs ++ rest) = some (text?, rest) := by
  cases text? with
  | none => exact ⟨_, rfl, rfl⟩
  | some s =>
    refine ⟨s.toList.flatMap escape ++ ['"'], rfl, ?_⟩
    obtain ⟨ps, hps, hscan⟩ := scanPieces_escaped_append s.toList [] rest
    rw [List.append_assoc, List.singleton_append, scanText?, hscan]
    simp [assemble_of_names hps]

/-! ## One token -/

namespace Token

variable {t u : Token}

def Readable : Token → Prop
  | number n => n.Readable
  | _ => True

instance : (t : Token) → Decidable t.Readable
  | number n => inferInstanceAs (Decidable n.Readable)
  | openArray | closeArray | openObject | closeObject | colon | comma | null | bool _ | string _ =>
    .isTrue trivial

def isNumber : Token → Bool
  | number _ => true
  | _ => false

theorem mark?_of_isDigit {c : Char} (h : c.isDigit) : mark? c = none := by
  rw [mark?] <;> rintro rfl <;> revert h <;> decide

theorem next?_text_append (ht : t.Readable) (hrest : t.isNumber → NumberLiteral.Ended rest) :
    next? (t.text ++ rest) = some (t, rest) := by
  cases t with
  | number n =>
    obtain ⟨c, cs, htext, hc⟩ := n.exists_text_eq_cons
    have hscan := NumberLiteral.scan?_text_append ht (hrest rfl)
    have hmark : mark? c = none := by
      rcases hc with rfl | hc
      · rfl
      · exact mark?_of_isDigit hc
    have hquote : c ≠ '"' := by
      rintro rfl
      revert hc
      decide
    rw [htext, List.cons_append] at hscan
    rw [text, htext, List.cons_append, next?, hmark]
    simp only [beq_iff_eq, hquote, if_false, hscan, Option.map_some]
    rw [if_pos (by simpa using hc)]
  | string text? =>
    obtain ⟨cs, hquote, hscan⟩ := scanText?_quote_append text? rest
    rw [text, hquote, List.cons_append, next?]
    simp [mark?, hscan]
  | bool b => cases b <;> rfl
  | _ => rfl

/-! ## A row of tokens -/

/-- A token starts with no blank, and only a number can be taken for more of a number. -/
theorem exists_text_eq_cons (t : Token) : ∃ c cs, t.text = c :: cs ∧ isBlank c = false ∧
    (t.isNumber = false → NumberLiteral.carriesOn c = false) := by
  cases t with
  | number n =>
    obtain ⟨c, cs, htext, hc⟩ := n.exists_text_eq_cons
    refine ⟨c, cs, htext, ?_, by rintro ⟨⟩⟩
    rw [← Bool.not_eq_true, isBlank]
    intro h
    simp only [Bool.or_eq_true, beq_iff_eq] at h
    rcases h with ((rfl | rfl) | rfl) | rfl <;> revert hc <;> decide
  | string text? =>
    obtain ⟨cs, hquote, -⟩ := scanText?_quote_append text? []
    exact ⟨'"', cs, hquote, by decide, fun _ => by decide⟩
  | bool b => cases b <;> exact ⟨_, _, rfl, by decide, fun _ => by decide⟩
  | _ => exact ⟨_, _, rfl, by decide, fun _ => by decide⟩

theorem ended_text_append (h : u.isNumber = false) : NumberLiteral.Ended (u.text ++ rest) := by
  obtain ⟨c, cs, htext, -, hcarries⟩ := u.exists_text_eq_cons
  rw [htext]
  rintro d ⟨⟩
  exact hcarries h

theorem scan_text_append (done : List Token) (ht : t.Readable)
    (hrest : t.isNumber → NumberLiteral.Ended rest) :
    scan done (t.text ++ rest) = scan (t :: done) rest := by
  have hnext := next?_text_append ht hrest
  obtain ⟨c, cs, htext, hblank, -⟩ := t.exists_text_eq_cons
  have hdrop : (t.text ++ rest).dropWhile isBlank = t.text ++ rest := by
    rw [htext, List.cons_append, List.dropWhile_cons_of_neg (by simp [hblank])]
  rw [scan]
  split
  · rename_i hnil
    rw [hdrop, htext] at hnil
    cases hnil
  · rename_i c' r hcons
    rw [hdrop] at hcons
    rw [hcons] at hnext
    split
    · rename_i hnone
      rw [hnext] at hnone
      cases hnone
    · rename_i hsome
      rw [hnext] at hsome
      cases hsome
      rfl

/-- No two numbers stand side by side. -/
def Apart (ts : List Token) : Prop :=
  ts.IsChain fun t u => t.isNumber → u.isNumber = false

theorem scan_flatMap_text {ts : List Token} (hreadable : ∀ t ∈ ts, t.Readable) (hapart : Apart ts)
    (done : List Token) : scan done (ts.flatMap text) = some (done.reverse ++ ts) := by
  induction ts generalizing done with
  | nil =>
    rw [List.flatMap_nil, scan]
    simp
  | cons t ts ih =>
    have hended : t.isNumber → NumberLiteral.Ended (ts.flatMap text) := by
      intro hnumber
      cases ts with
      | nil =>
        rintro c ⟨⟩
      | cons u us => exact ended_text_append ((List.isChain_cons_cons.1 hapart).1 hnumber)
    rw [List.flatMap_cons, scan_text_append done (hreadable t List.mem_cons_self) hended,
      ih (fun u hu => hreadable u (List.mem_cons_of_mem t hu)) hapart.of_cons (t :: done),
      List.reverse_cons, List.append_assoc, List.singleton_append]

end Token

end Json

end CoolHierarchy
