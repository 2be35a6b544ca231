import Unguard.Proofs.Interning
import Unguard.Proofs.Refusing

/-!
# Constants that are read again

A constant that was read becomes an attribute, the attribute is written, and what is written ought to
be read as the same attribute.  It is, for integers over the whole unsigned range, floats with
exponents, strings with unknown escapes and lists of any nesting, as long as every float is finite
(`Literal.ofText_attributeText`).

A float may be too large to be finite, as `1.0e999` is.  It is read as an infinity and written as a
word that is no constant (`Literal.not_ofText_infinity`).
-/

namespace Unguard.Text

open TypeTable

/-- The text of an attribute. -/
def attributeText (t : TypeTable) (a : Attribute) : Except Fault String := do
  let l ← outlineAttribute t a
  return l.text

theorem attributeText_intern {t : TypeTable} (ht : t.Closed) (l : Literal) :
    attributeText (l.intern t).2 (l.intern t).1 = .ok l.text := by
  rw [attributeText, outlineAttribute_intern ht]
  rfl

/-- What the reader gave and where it stopped. -/
def Outcome.done? {α : Type} : Outcome α → Option (α × Cursor)
  | .done value next => some (value, next)
  | .failed _ => none

theorem Outcome.done?_eq_some_iff {α : Type} {o : Outcome α} {p : α × Cursor} :
    o.done? = some p ↔ o = .done p.1 p.2 := by
  cases o with
  | done value next =>
    constructor
    · intro h
      obtain rfl := Option.some.inj h
      rfl
    · intro h
      cases h
      rfl
  | failed stop => exact iff_of_false (by intro h; cases h) (by intro h; cases h)

namespace Literal

/-- Reads a constant at the beginning of a text. -/
def ofText (text : String) : Outcome Literal :=
  Reader.literal (text.toList.length + 1) (.ofString text)

/-- A constant with finite floats is read from its text, to the end. -/
theorem reads_written {l : Literal} (hnamed : l.Named) (hfinite : l.Finite) :
    ∃ stop, ofText l.text = .done l ⟨[], stop⟩ := by
  have hback := Reader.readsBack_literal hnamed hfinite (Nat.le_succ _)
  obtain ⟨l', stop, hdone, rfl⟩ := hback.reads [] rfl 0
  rw [List.append_nil] at hdone
  exact ⟨stop, hdone⟩

/-- A constant with another float is refused. -/
theorem ofText_text_of_not_finite {l : Literal} (hnamed : l.Named) (hfinite : ¬l.Finite) :
    ∃ stop, ofText l.text = .failed stop := by
  have hrejects := Reader.rejects_literal hnamed hfinite (Nat.le_succ _)
  obtain ⟨stop, hfailed⟩ := hrejects.refuses [] rfl 0
  rw [List.append_nil] at hfailed
  exact ⟨stop, hfailed⟩

/-- **Constants are read again.**  Let a constant be read, at any place and with any nesting, and be made
an attribute.  The attribute can be written.  The text is read to its end and gives the same attribute,
without a new type, exactly if the floats in the constant are finite; if one is not, nothing can be read
from the text. -/
theorem ofText_attributeText (depth : Nat) (cursor next : Cursor) (l : Literal) (t : TypeTable)
    (h : Reader.literal depth cursor = .done l next) (ht : t.Closed) :
    ∃ text, attributeText (l.intern t).2 (l.intern t).1 = .ok text ∧
      ((∃ l' stop, ofText text = .done l' ⟨[], stop⟩ ∧ l'.intern (l.intern t).2 = l.intern t) ↔
        ∀ bits ∈ l.floats, Binary64.IsFinite bits) ∧
      ((∃ bits ∈ l.floats, ¬Binary64.IsFinite bits) → ∃ stop, ofText text = .failed stop) := by
  have hnamed := (Reader.literal_gives depth).of_done h
  refine ⟨l.text, attributeText_intern ht l, ⟨?_, fun hfinite => ?_⟩, ?_⟩
  · rintro ⟨l', stop, hdone, -⟩
    by_contra hfinite
    obtain ⟨stop', hfailed⟩ := ofText_text_of_not_finite hnamed hfinite
    rw [hdone] at hfailed
    cases hfailed
  · obtain ⟨stop, hdone⟩ := reads_written hnamed hfinite
    exact ⟨l, stop, hdone, intern_eq_of_prolonged (Prolonged.refl _)⟩
  · rintro ⟨bits, hbits, hinfinite⟩
    exact ofText_text_of_not_finite hnamed fun hfinite => hinfinite (hfinite bits hbits)

/-- A list with the largest integer, a float with an exponent, an unknown escape and a type. -/
def mixedList : String :=
  "[18446744073709551615, [ 1.50e-3 ], \"a\\q\", a.t(a.u)]"

theorem ofText_attributeText_mixedList : ∃ l next text, ofText mixedList = .done l next ∧
    next.rest = [] ∧ attributeText (l.intern .empty).2 (l.intern .empty).1 = .ok text ∧
    ∃ l' stop, ofText text = .done l' ⟨[], stop⟩ ∧ l'.intern (l.intern .empty).2 = l.intern .empty := by
  have hread : (ofText mixedList).done?.map (fun p =>
      (p.1.floats.all fun bits => decide (Binary64.code bits < Binary64.infinityCode), p.2.rest)) =
      some (true, []) := by
    decide +kernel
  simp only [Option.map_eq_some_iff, Outcome.done?_eq_some_iff, Prod.mk.injEq, List.all_eq_true,
    decide_eq_true_eq] at hread
  obtain ⟨⟨l, next⟩, hdone, hfinite, hrest⟩ := hread
  obtain ⟨text, htext, hagain, -⟩ := ofText_attributeText _ _ next l .empty hdone closed_empty
  exact ⟨l, next, text, hdone, hrest, htext, hagain.2 hfinite⟩

/-- A float that is too large is read to its end, but what it is written as is no constant. -/
theorem not_ofText_infinity : ∃ l next, ofText "1.0e999" = .done l next ∧ next.rest = [] ∧
    attributeText (l.intern .empty).2 (l.intern .empty).1 = .ok "inf" ∧
    ∃ stop, ofText "inf" = .failed stop := by
  have hread : (ofText "1.0e999").done?.map (fun p =>
      ((attributeText (p.1.intern .empty).2 (p.1.intern .empty).1).toOption, p.2.rest)) =
      some (some "inf", []) := by
    decide +kernel
  simp only [Option.map_eq_some_iff, Outcome.done?_eq_some_iff, Prod.mk.injEq,
    toOption_eq_some_iff] at hread
  obtain ⟨⟨l, next⟩, hdone, htext, hrest⟩ := hread
  have hinf : IsName "inf" := ⟨'i', ['n', 'f'], rfl, rfl, List.all_eq_true.1 rfl⟩
  have hrefuses : (Reader.literal 4).Refuses ("inf".toList ++ []) :=
    Reader.refuses_literal_name hinf (Reader.not_constantWord rfl rfl rfl) rfl
  obtain ⟨stop, hstop⟩ := hrefuses 0
  exact ⟨l, next, hdone, hrest, htext, stop, hstop⟩

end Literal

end Unguard.Text
