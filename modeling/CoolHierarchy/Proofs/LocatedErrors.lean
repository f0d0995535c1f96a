import CoolHierarchy.Hierarchy.Error
import CoolHierarchy.Report.Located

/-!
# Errors next to their source

An error can be shown by itself, with a label for its span, or as a notice beside a source text,
where a label that does not lie in the text is left out. Both show the same (`located_agrees`): what
differs is the text of the label, and that the label is there (`label?_notice`).
-/

namespace CoolHierarchy

namespace Label

/-- The byte after the last one that a label covers. -/
def stop (l : Label) : Nat :=
  l.offset + l.length

/-- A label for a span with bytes in it covers these bytes. -/
theorem stop_ofSpan {s : Span} (h : s.isEmpty = false) (text : String) :
    (ofSpan s text).stop = s.stop.toNat :=
  Span.start_add_length h

theorem length_ofSpan_pos {s : Span} (h : s.isEmpty = false) (text : String) :
    0 < (ofSpan s text).length := by
  have hlength : s.length ≠ 0 := by simpa [Span.isEmpty] using h
  exact Nat.pos_of_ne_zero hlength

end Label

namespace HierarchyError

variable {e : HierarchyError} {l : Label}

/-- The notice that is shown for an error beside a source text. -/
def notice (e : HierarchyError) (sourceName sourceText : String) : Notice :=
  .ofDiagnostic e.toDiagnostic sourceName sourceText

theorem label?_eq_some_iff :
    e.label? = some l ↔ e.span.isEmpty = false ∧ l = .ofSpan e.span "here" := by
  rw [label?]
  cases e.span.isEmpty <;> simp [eq_comm]

theorem label?_eq_none_iff : e.label? = none ↔ e.span.stop.toNat ≤ e.span.start.toNat := by
  rw [label?, ← Span.isEmpty_iff]
  cases e.span.isEmpty <;> simp

/-- Beside a source text an error has its own label, under another text, if that ends in the
source. -/
theorem label?_notice (e : HierarchyError) (sourceName sourceText : String) :
    (e.notice sourceName sourceText).label? =
      (e.label?.filter fun l => l.stop ≤ sourceText.utf8ByteSize).map fun l =>
        { l with text := "error here" } := by
  rw [Notice.label?, label?]
  show (if (!e.span.isEmpty && decide (e.span.stop.toNat ≤ sourceText.utf8ByteSize)) = true
    then some e.span else none).map (fun span => Label.ofSpan span "error here") = _
  cases hempty : e.span.isEmpty with
  | true => rfl
  | false =>
    simp only [Bool.not_false, Bool.true_and, Bool.false_eq_true, if_false, Option.filter_some,
      Label.stop_ofSpan hempty]
    split <;> rfl

theorem label?_notice_eq_some_iff {sourceName sourceText : String} :
    (e.notice sourceName sourceText).label? = some l ↔ ∃ own, e.label? = some own ∧
      e.span.stop.toNat ≤ sourceText.utf8ByteSize ∧ l = { own with text := "error here" } := by
  rw [label?_notice, Option.map_eq_some_iff]
  constructor
  · rintro ⟨own, hown, rfl⟩
    obtain ⟨hown, hstop⟩ := Option.filter_eq_some_iff.1 hown
    obtain ⟨hempty, rfl⟩ := label?_eq_some_iff.1 hown
    rw [decide_eq_true_iff, Label.stop_ofSpan hempty] at hstop
    exact ⟨_, hown, hstop, rfl⟩
  · rintro ⟨own, hown, hstop, rfl⟩
    obtain ⟨hempty, rfl⟩ := label?_eq_some_iff.1 hown
    refine ⟨_, Option.filter_eq_some_iff.2 ⟨hown, ?_⟩, rfl⟩
    rw [decide_eq_true_iff, Label.stop_ofSpan hempty]
    exact hstop

end HierarchyError

/-- The notice for an error beside any source text shows what the error shows by itself: its code,
its help and its message, as an error. All that is copied from the diagnostic of the error. The
notice has a label when the error has one and its span ends in the source. That label covers the
same bytes, at least one and none but bytes of the source. Neither has a label for a span without
bytes, be it empty or inverted. -/
theorem located_agrees (e : HierarchyError) (sourceName sourceText : String) :
    let d : LocatedDiagnostic := { diagnostic := e.toDiagnostic, sourceName, sourceText }
    let n := d.notice
    n.shownCode = e.code ∧ n.code = some e.code ∧ n.help? = e.hint? ∧
    n.shownMessage = e.message ∧ n.shownSeverity = .error ∧
    n.code = d.diagnostic.code ∧ n.hint = d.diagnostic.hint ∧
    n.message = d.diagnostic.message ∧ n.severity = d.diagnostic.severity ∧
    n.sourceName = sourceName ∧ n.sourceText = sourceText ∧
    (n.label?.isSome = true ↔
      e.label?.isSome = true ∧ e.span.stop.toNat ≤ sourceText.utf8ByteSize) ∧
    (∀ l, n.label? = some l → ∃ own, e.label? = some own ∧ l.offset = own.offset ∧
      l.length = own.length ∧ 1 ≤ l.length ∧ l.offset + l.length = e.span.stop.toNat ∧
      l.offset + l.length ≤ sourceText.utf8ByteSize ∧
      (sourceText.toUTF8.extract l.offset (l.offset + l.length)).size = l.length) ∧
    (e.label? = none ↔ e.span.stop.toNat ≤ e.span.start.toNat) ∧
    (e.label? = none → n.label? = none) := by
  intro d n
  have hn : n = e.notice sourceName sourceText := rfl
  refine ⟨rfl, rfl, rfl, rfl, rfl, rfl, rfl, rfl, rfl, rfl, rfl, ?_, ?_,
    HierarchyError.label?_eq_none_iff, ?_⟩
  · simp only [hn, Option.isSome_iff_exists]
    constructor
    · rintro ⟨l, hl⟩
      obtain ⟨own, hown, hstop, _⟩ := HierarchyError.label?_notice_eq_some_iff.1 hl
      exact ⟨⟨own, hown⟩, hstop⟩
    · rintro ⟨⟨own, hown⟩, hstop⟩
      exact ⟨_, HierarchyError.label?_notice_eq_some_iff.2 ⟨own, hown, hstop, rfl⟩⟩
  · intro l hl
    rw [hn] at hl
    obtain ⟨own, hown, hstop, rfl⟩ := HierarchyError.label?_notice_eq_some_iff.1 hl
    obtain ⟨hempty, rfl⟩ := HierarchyError.label?_eq_some_iff.1 hown
    have hend : e.span.start.toNat + e.span.length = e.span.stop.toNat :=
      Span.start_add_length hempty
    refine ⟨_, hown, rfl, rfl, Label.length_ofSpan_pos hempty "here", hend,
      hend ▸ hstop, ?_⟩
    show (sourceText.toUTF8.extract e.span.start.toNat (e.span.start.toNat + e.span.length)).size =
      e.span.length
    have hsize : sourceText.toUTF8.size = sourceText.utf8ByteSize := rfl
    rw [ByteArray.size_extract, hsize]
    omega
  · intro hnone
    rw [hn, HierarchyError.label?_notice, hnone]
    rfl

end CoolHierarchy
