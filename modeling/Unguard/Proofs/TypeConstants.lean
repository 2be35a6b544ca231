import Unguard.Proofs.ReadingBack

/-!
# Types that stand as constants

The grammar has types among the constants, so a type ought to read the same after a colon and as the
value of an attribute.  It does, unless its dialect begins with `true`, `false` or `unit`: constants are
tried in order, a word before a type, and nothing asks whether the word ends there.  Then the word is
read as a constant and the rest of the type is left over (`Reader.literal_of_type`).
-/

namespace Unguard.Text

/-- What the words stand for that are constants of their own. -/
def wordConstants : List (String × Literal) :=
  [("true", .bool true), ("false", .bool false), ("unit", .unit)]

namespace Reader

theorem mem_constantWords_iff {w : String} : w ∈ constantWords ↔ ∃ l, (w, l) ∈ wordConstants := by
  simp only [constantWords, wordConstants, List.mem_cons, Prod.mk.injEq, List.not_mem_nil, or_false,
    exists_or, exists_and_left, exists_eq, and_true]

/-- A word that is a constant is read as one, whatever stands after it. -/
theorem literal_of_word (depth : Nat) {w : String} {l : Literal} (h : (w, l) ∈ wordConstants)
    (rest : List Char) : (literal (depth + 1)).Reads (w.toList ++ rest) rest fun a => a = l := by
  have hother : ∀ {v : String} {c : Char} (k : Literal), v.toList.head? = some c →
      stops (· = c) (w.toList ++ rest) = true →
      Refuses (do word v; return k : Reader Literal) (w.toList ++ rest) :=
    fun k hv hstops => refuses_wordConstant k (not_prefix_of_stops hv hstops)
  simp only [wordConstants, List.mem_cons, Prod.mk.injEq, List.not_mem_nil, or_false] at h
  rcases h with ⟨rfl, rfl⟩ | ⟨rfl, rfl⟩ | ⟨rfl, rfl⟩
  · exact (reads_wordConstant "true" _).orElse _
  · refine (hother (v := "true") (c := 't') _ rfl rfl).orElse_reads ?_
    exact (reads_wordConstant "false" _).orElse _
  · refine (hother (v := "true") (c := 't') _ rfl rfl).orElse_reads ?_
    refine (hother (v := "false") (c := 'f') _ rfl rfl).orElse_reads ?_
    exact (reads_wordConstant "unit" _).orElse _

theorem not_unreserved_iff {ty : TypeTree} : ¬ty.Unreserved ↔
    ∃ w l, (w, l) ∈ wordConstants ∧ w.toList <+: ty.dialect.toList := by
  simp only [TypeTree.Unreserved, not_forall, not_not, mem_constantWords_iff, exists_prop]
  constructor
  · rintro ⟨w, ⟨l, hl⟩, hbegins⟩
    exact ⟨w, l, hl, hbegins⟩
  · rintro ⟨w, l, hl, hbegins⟩
    exact ⟨w, ⟨l, hl⟩, hbegins⟩

variable {depth : Nat} {cursor next : Cursor} {ty : TypeTree}

/-- A type whose dialect begins with none of the words is read as a constant. -/
theorem literal_of_unreserved (h : type depth cursor = .done ty next) (hty : ty.Unreserved) :
    literal depth cursor = .done (.type ty) next := by
  cases depth with
  | zero => cases h
  | succ depth =>
    obtain ⟨more, hmore⟩ := rest_of_type h
    obtain ⟨dialect, name, params⟩ := ty
    obtain ⟨⟨first, part, hdialect, hfirst, -⟩, -⟩ := (type_gives _).of_done h
    have hword : ∀ w ∈ constantWords, ¬w.toList <+: cursor.rest := fun w hw hbegins =>
      hty w hw (isPrefix_of_point (point_not_mem_constantWord hw) (hmore ▸ hbegins))
    rw [TypeTree.dialect, hdialect] at hmore
    obtain ⟨rest, offset⟩ := cursor
    obtain rfl : rest = first :: (part ++ '.' :: more) := hmore
    refine (literal_of_name hfirst hword offset).trans ?_
    change Reader.bind (type (depth + 1)) _ _ = _
    rw [Reader.bind, h]
    rfl

/-- A type whose dialect begins with one of the words is not read as a constant: the word is, and
something is left. -/
theorem literal_of_reserved (h : type depth cursor = .done ty next) {w : String} {l : Literal}
    (hw : (w, l) ∈ wordConstants) (hbegins : w.toList <+: ty.dialect.toList) :
    ∃ after, literal depth cursor = .done l after ∧ w.toList ++ after.rest = cursor.rest ∧
      after.rest ≠ [] := by
  cases depth with
  | zero => cases h
  | succ depth =>
    obtain ⟨more, hmore⟩ := rest_of_type h
    obtain ⟨part, hpart⟩ := hbegins
    rw [← hpart, List.append_assoc] at hmore
    obtain ⟨rest, offset⟩ := cursor
    obtain rfl : rest = w.toList ++ (part ++ '.' :: more) := hmore
    obtain ⟨_, stop, hdone, rfl⟩ := literal_of_word depth hw (part ++ '.' :: more) offset
    exact ⟨_, hdone, rfl, by simp⟩

/-- The text of a type is read to its end. -/
theorem exists_type_text (h : ty.Writable) (hdepth : ty.text.toList.length ≤ depth) :
    ∃ next, type depth (.ofString ty.text) = .done ty next ∧ next.rest = [] := by
  obtain ⟨_, stop, hdone, rfl⟩ := (readsBack_type h hdepth).reads [] rfl 0
  rw [List.append_nil] at hdone
  exact ⟨_, hdone, rfl⟩

/-- **Types as constants.**  Where a type can be read, a constant can be read as well.  It is the same
type, and ends at the same place, exactly if the dialect of the type begins with none of the words
`true`, `false` and `unit`.  If it begins with one of them, that word is all that is read. -/
theorem literal_of_type (depth : Nat) (cursor next : Cursor) (ty : TypeTree)
    (h : type depth cursor = .done ty next) :
    (literal depth cursor = .done (.type ty) next ↔
      ∀ w ∈ ["true", "false", "unit"], ¬w.toList <+: ty.dialect.toList) ∧
    ∀ w l, (w, l) ∈ wordConstants → w.toList <+: ty.dialect.toList →
      ∃ after, literal depth cursor = .done l after ∧ w.toList ++ after.rest = cursor.rest ∧
        after.rest ≠ [] := by
  refine ⟨⟨fun hliteral => ?_, literal_of_unreserved h⟩, fun w l => literal_of_reserved h⟩
  by_contra hreserved
  obtain ⟨w, l, hw, hbegins⟩ := not_unreserved_iff.1 hreserved
  obtain ⟨after, hdone, -, -⟩ := literal_of_reserved h hw hbegins
  obtain rfl := (Outcome.done.inj (hdone.symm.trans hliteral)).1
  simp [wordConstants] at hw

/-- A type with a parameter, and one whose dialect begins with a word. -/
theorem literal_of_type_nested :
    (∃ next, type 11 (.ofString "core.t(a.u)") = .done (.mk "core" "t" [.mk "a" "u" []]) next ∧
      next.rest = [] ∧
      literal 11 (.ofString "core.t(a.u)") = .done (.type (.mk "core" "t" [.mk "a" "u" []])) next) ∧
    ∃ after, literal 8 (.ofString "units.kg") = .done .unit after ∧ after.rest = "s.kg".toList := by
  have hletter : ∀ c, isNameStart c = true → IsName (.singleton c) := fun c hc =>
    ⟨c, [], String.toList_singleton c, hc, List.forall_mem_nil _⟩
  have hcore : TypeTree.Writable (.mk "core" "t" [.mk "a" "u" []]) :=
    ⟨⟨'c', ['o', 'r', 'e'], rfl, rfl, List.all_eq_true.1 rfl⟩, hletter 't' rfl,
      ⟨hletter 'a' rfl, hletter 'u' rfl, trivial⟩, trivial⟩
  have hunits : TypeTree.Writable (.mk "units" "kg" []) :=
    ⟨⟨'u', ['n', 'i', 't', 's'], rfl, rfl, List.all_eq_true.1 rfl⟩,
      ⟨'k', ['g'], rfl, rfl, List.all_eq_true.1 rfl⟩, trivial⟩
  constructor
  · obtain ⟨next, hdone, hrest⟩ := exists_type_text hcore (by decide +kernel : _ ≤ 11)
    exact ⟨next, hdone, hrest, (literal_of_type 11 _ _ _ hdone).1.2 (by decide)⟩
  · obtain ⟨next, hdone, -⟩ := exists_type_text hunits (by decide +kernel : _ ≤ 8)
    obtain ⟨after, hliteral, hrest, -⟩ := (literal_of_type 8 _ _ _ hdone).2 "unit" .unit
      (by simp [wordConstants]) (by decide)
    exact ⟨after, hliteral, List.append_cancel_left (hrest.trans (by decide))⟩

/-- The type `true.x` is read to its end, but as a constant only its first four characters are. -/
theorem not_literal_trueType :
    (∃ next, type 6 (.ofString "true.x") = .done (.mk "true" "x" []) next ∧ next.rest = []) ∧
    ∃ after, literal 6 (.ofString "true.x") = .done (.bool true) after ∧ after.rest = ".x".toList := by
  have htrue : TypeTree.Writable (.mk "true" "x" []) :=
    ⟨⟨'t', ['r', 'u', 'e'], rfl, rfl, List.all_eq_true.1 rfl⟩,
      ⟨'x', [], rfl, rfl, List.forall_mem_nil _⟩, trivial⟩
  constructor
  · exact exists_type_text htrue (by decide +kernel)
  · obtain ⟨_, stop, hdone, rfl⟩ := literal_of_word 5 (w := "true") (l := .bool true)
      (by simp [wordConstants]) ".x".toList 0
    exact ⟨_, hdone, rfl⟩

end Reader

end Unguard.Text
