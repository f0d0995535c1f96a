import CoolHierarchy.Json.Parser
import CoolHierarchy.Json.Printer
import CoolHierarchy.Proofs.JsonToken

/-!
# A printed value is read back

What a reader of tokens does with the tokens of a value is one statement for a value at any place:
it ends where the value is complete and all that was open before is open still. The same holds for
the items of an array and the members of an object that are not read yet.

* `ofTokens?_tokens`: the tokens of a value stand for the value.
* `ofText?_render`: so does its text, if its fractions have digits.
-/

namespace CoolHierarchy.Json

variable {v : Json} {ts rest : List Token}

/-! ## Reading the tokens of a value -/

open Expectation

/-- A value never starts with the end of an array, so the place of a first item is a place of any
value. -/
theorem foldlM_firstItem_tokens (v : Json) (frames : List Frame) (rest : List Token) :
    (v.tokens ++ rest).foldlM step (firstItem frames) =
      (v.tokens ++ rest).foldlM step (value (.array [] :: frames)) := by
  rcases v with _ | b | n | text? | (_ | ⟨v, items⟩) | (_ | ⟨⟨key, v⟩, members⟩) <;> rfl

mutual

theorem foldlM_value_tokens : ∀ (v : Json) (frames : List Frame) (rest : List Token),
    (v.tokens ++ rest).foldlM step (value frames) = rest.foldlM step (after v frames)
  | .null, _, _ => rfl
  | .bool _, _, _ => rfl
  | .number _, _, _ => rfl
  | .string _, _, _ => rfl
  | .array [], _, _ => rfl
  | .array (v :: items), frames, rest => by
    have hopen : ((Json.array (v :: items)).tokens ++ rest).foldlM step (value frames)
        = (v.tokens ++ (moreItems items ++ rest)).foldlM step (firstItem frames) := by
      rw [tokens, List.cons_append, List.append_assoc]
      rfl
    rw [hopen, foldlM_firstItem_tokens, foldlM_value_tokens v, foldlM_after_moreItems items]
    rfl
  | .object [], _, _ => rfl
  | .object ((key, v) :: members), frames, rest => by
    have hopen : ((Json.object ((key, v) :: members)).tokens ++ rest).foldlM step (value frames)
        = (v.tokens ++ (moreMembers members ++ rest)).foldlM step
          (value (.member [] key :: frames)) := by
      rw [tokens, List.cons_append, List.cons_append, List.cons_append, List.append_assoc]
      rfl
    rw [hopen, foldlM_value_tokens v, foldlM_after_moreMembers members]
    rfl

theorem foldlM_after_moreItems : ∀ (items : List Json) (v : Json) (before : List Json)
    (frames : List Frame) (rest : List Token),
    (moreItems items ++ rest).foldlM step (after v (.array before :: frames))
      = rest.foldlM step (after (.array (before.reverse ++ v :: items)) frames)
  | [], v, before, frames, rest => by
    rw [← List.reverse_cons]
    rfl
  | w :: items, v, before, frames, rest => by
    have hcomma : (moreItems (w :: items) ++ rest).foldlM step (after v (.array before :: frames))
        = (w.tokens ++ (moreItems items ++ rest)).foldlM step
          (value (.array (v :: before) :: frames)) := by
      rw [moreItems, List.cons_append, List.append_assoc]
      rfl
    rw [hcomma, foldlM_value_tokens w, foldlM_after_moreItems items, List.reverse_cons,
      List.append_assoc, List.singleton_append]

theorem foldlM_after_moreMembers : ∀ (members : List (Option String × Json)) (v : Json)
    (before : List (Option String × Json)) (key : Option String) (frames : List Frame)
    (rest : List Token),
    (moreMembers members ++ rest).foldlM step (after v (.member before key :: frames))
      = rest.foldlM step (after (.object (before.reverse ++ (key, v) :: members)) frames)
  | [], v, before, key, frames, rest => by
    rw [← List.reverse_cons]
    rfl
  | (next, w) :: members, v, before, key, frames, rest => by
    have hcomma : (moreMembers ((next, w) :: members) ++ rest).foldlM step
          (after v (.member before key :: frames))
        = (w.tokens ++ (moreMembers members ++ rest)).foldlM step
          (value (.member ((key, v) :: before) next :: frames)) := by
      rw [moreMembers, List.cons_append, List.cons_append, List.cons_append, List.append_assoc]
      rfl
    rw [hcomma, foldlM_value_tokens w, foldlM_after_moreMembers members, List.reverse_cons,
      List.append_assoc, List.singleton_append]

end

theorem ofTokens?_tokens (v : Json) : ofTokens? v.tokens = some v := by
  have hrun := foldlM_value_tokens v [] []
  rw [List.append_nil] at hrun
  rw [ofTokens?, hrun]
  rfl

/-! ## Reading the text of a value -/

/-- Some token ends or parts every value, so its numbers stand apart. -/
theorem isNumber_of_head?_moreItems {items : List Json} :
    ∀ t ∈ (moreItems items ++ rest).head?, t.isNumber = false := by
  cases items <;> (rintro t ⟨⟩; rfl)

theorem isNumber_of_head?_moreMembers {members : List (Option String × Json)} :
    ∀ t ∈ (moreMembers members ++ rest).head?, t.isNumber = false := by
  rcases members with _ | ⟨⟨key, v⟩, members⟩ <;> (rintro t ⟨⟩; rfl)

theorem apart_cons {t : Token} (h : Token.Apart ts)
    (hhead : t.isNumber → ∀ u ∈ ts.head?, u.isNumber = false) : Token.Apart (t :: ts) := by
  cases ts with
  | nil => exact List.IsChain.singleton t
  | cons u us => exact List.isChain_cons_cons.2 ⟨fun ht => hhead ht u rfl, h⟩

/-- A token that is no number stands apart from anything. -/
theorem apart_mark_cons {t : Token} (ht : t.isNumber = false) (h : Token.Apart ts) :
    Token.Apart (t :: ts) :=
  apart_cons h fun hnumber => by rw [ht] at hnumber; cases hnumber

mutual

theorem apart_tokens_append : ∀ (v : Json) {rest : List Token}, Token.Apart rest →
    (∀ t ∈ rest.head?, t.isNumber = false) → Token.Apart (v.tokens ++ rest)
  | .null, _, h, _ => apart_mark_cons rfl h
  | .bool _, _, h, _ => apart_mark_cons rfl h
  | .number _, _, h, hhead => apart_cons h fun _ => hhead
  | .string _, _, h, _ => apart_mark_cons rfl h
  | .array [], _, h, _ => apart_mark_cons rfl (apart_mark_cons rfl h)
  | .array (v :: items), rest, h, _ => by
    rw [tokens, List.cons_append, List.append_assoc]
    exact apart_mark_cons rfl
      (apart_tokens_append v (apart_moreItems_append items h) isNumber_of_head?_moreItems)
  | .object [], _, h, _ => apart_mark_cons rfl (apart_mark_cons rfl h)
  | .object ((_, v) :: members), rest, h, _ => by
    rw [tokens, List.cons_append, List.cons_append, List.cons_append, List.append_assoc]
    exact apart_mark_cons rfl (apart_mark_cons rfl (apart_mark_cons rfl
      (apart_tokens_append v (apart_moreMembers_append members h) isNumber_of_head?_moreMembers)))

theorem apart_moreItems_append : ∀ (items : List Json) {rest : List Token}, Token.Apart rest →
    Token.Apart (moreItems items ++ rest)
  | [], _, h => apart_mark_cons rfl h
  | v :: items, rest, h => by
    rw [moreItems, List.cons_append, List.append_assoc]
    exact apart_mark_cons rfl
      (apart_tokens_append v (apart_moreItems_append items h) isNumber_of_head?_moreItems)

theorem apart_moreMembers_append : ∀ (members : List (Option String × Json)) {rest : List Token},
    Token.Apart rest → Token.Apart (moreMembers members ++ rest)
  | [], _, h => apart_mark_cons rfl h
  | (_, v) :: members, rest, h => by
    rw [moreMembers, List.cons_append, List.cons_append, List.cons_append, List.append_assoc]
    exact apart_mark_cons rfl (apart_mark_cons rfl (apart_mark_cons rfl
      (apart_tokens_append v (apart_moreMembers_append members h) isNumber_of_head?_moreMembers)))

end

/-- Every fraction in a value has digits. -/
def Readable (v : Json) : Prop :=
  ∀ t ∈ v.tokens, t.Readable

instance (v : Json) : Decidable v.Readable :=
  inferInstanceAs (Decidable (∀ t ∈ v.tokens, t.Readable))

theorem ofText?_render (h : v.Readable) : Json.ofText? v.render = some v := by
  have hapart : Token.Apart v.tokens := by
    have happend : Token.Apart (v.tokens ++ []) :=
      apart_tokens_append v List.IsChain.nil (by rintro t ⟨⟩)
    rwa [List.append_nil] at happend
  rw [Json.ofText?, Token.ofText?, render, String.toList_ofList, Token.scan_flatMap_text h hapart]
  exact ofTokens?_tokens v

/-! ## Values without fractions -/

theorem readable_null : Json.null.Readable := by
  intro t ht
  cases List.mem_singleton.1 ht
  trivial

theorem readable_ofString (s : String) : (ofString s).Readable := by
  intro t ht
  cases List.mem_singleton.1 ht
  trivial

theorem readable_ofNat (n : Nat) : (ofNat n).Readable := by
  intro t ht
  cases List.mem_singleton.1 ht
  exact NumberLiteral.readable_ofNat n

theorem readable_ofOption {α : Type} {f : α → Json} (hf : ∀ a, (f a).Readable) (x : Option α) :
    (ofOption f x).Readable := by
  cases x with
  | none => exact readable_null
  | some a => exact hf a

theorem readable_of_mem_moreItems {items : List Json} (h : ∀ v ∈ items, v.Readable) :
    ∀ t ∈ moreItems items, t.Readable := by
  induction items with
  | nil =>
    intro t ht
    cases List.mem_singleton.1 ht
    trivial
  | cons v items ih =>
    intro t ht
    rw [moreItems, List.mem_cons, List.mem_append] at ht
    rcases ht with rfl | ht | ht
    · trivial
    · exact h v List.mem_cons_self t ht
    · exact ih (fun w hw => h w (List.mem_cons_of_mem v hw)) t ht

theorem readable_of_mem_moreMembers {members : List (Option String × Json)}
    (h : ∀ m ∈ members, m.2.Readable) : ∀ t ∈ moreMembers members, t.Readable := by
  induction members with
  | nil =>
    intro t ht
    cases List.mem_singleton.1 ht
    trivial
  | cons m members ih =>
    intro t ht
    rw [moreMembers, List.mem_cons, List.mem_cons, List.mem_cons, List.mem_append] at ht
    rcases ht with rfl | rfl | rfl | ht | ht
    · trivial
    · trivial
    · trivial
    · exact h m List.mem_cons_self t ht
    · exact ih (fun w hw => h w (List.mem_cons_of_mem m hw)) t ht

theorem readable_array {items : List Json} (h : ∀ v ∈ items, v.Readable) :
    (Json.array items).Readable := by
  have hitems := readable_of_mem_moreItems h
  intro t ht
  cases items with
  | nil =>
    simp only [tokens, List.mem_cons, List.not_mem_nil, or_false] at ht
    rcases ht with rfl | rfl <;> trivial
  | cons v items =>
    rw [tokens, List.mem_cons] at ht
    rcases ht with rfl | ht
    · trivial
    · exact hitems t (by rw [moreItems]; exact List.mem_cons_of_mem _ ht)

theorem readable_object {members : List (Option String × Json)}
    (h : ∀ m ∈ members, m.2.Readable) : (Json.object members).Readable := by
  have hmembers := readable_of_mem_moreMembers h
  intro t ht
  cases members with
  | nil =>
    simp only [tokens, List.mem_cons, List.not_mem_nil, or_false] at ht
    rcases ht with rfl | rfl <;> trivial
  | cons m members =>
    rw [tokens, List.mem_cons] at ht
    rcases ht with rfl | ht
    · trivial
    · exact hmembers t (by rw [moreMembers]; exact List.mem_cons_of_mem _ ht)

theorem readable_ofMembers {members : List (String × Json)}
    (h : members.Forall fun m => m.2.Readable) : (ofMembers members).Readable := by
  rw [List.forall_iff_forall_mem] at h
  refine readable_object fun m hm => ?_
  obtain ⟨⟨key, v⟩, hmem, rfl⟩ := List.mem_map.1 hm
  exact h (key, v) hmem

end CoolHierarchy.Json
