import Unguard.Proofs.Marks

/-!
# The marks of what is read

A draft that was read has exactly the marks of its text, in the same order (`GraphDraft.marks_of_ofText`):
no value that a text defines or uses is left out of its draft, and none is added.

`Reader.Scans` says which tokens a reader passes.  It is followed through the grammar, from single values
up to whole graphs.
-/

namespace Unguard.Text

/-! ### Blanks and quotes -/

mutual

/-- Skipping blanks and comments loses no tokens. -/
theorem tokens_skipBlanks : ∀ (text : List Char) (offset : Nat),
    tokens (skipBlanks text offset).rest = tokens text
  | [], offset => by rw [skipBlanks]
  | c :: cs, offset => by
    rw [skipBlanks.eq_def]
    split
    · rename_i heq
      cases heq
    · rename_i heq
      cases heq
      rw [tokens_skipComment, tokens_comment]
    · rename_i heq
      cases heq
      split
      · rename_i hblank
        rw [tokens_skipBlanks, tokens_of_isBlank hblank]
      · rfl

/-- What is left after a comment has the tokens that the comment leaves over. -/
theorem tokens_skipComment : ∀ (text : List Char) (offset : Nat),
    tokens (skipComment text offset).rest = tokensCommented text
  | [], offset => by rw [skipComment, tokens, tokensCommented]
  | c :: cs, offset => by
    rw [skipComment, tokensCommented]
    split
    · exact tokens_skipBlanks cs _
    · exact tokens_skipComment cs _

end

/-- What is quoted has no tokens. -/
theorem tokensQuoted_of_unquote {text inside : List Char} {offset : Nat} {next : Cursor}
    (h : unquote text offset = .done inside next) : tokensQuoted text = tokens next.rest := by
  fun_induction unquote text offset generalizing inside next with
  | case1 => cases h
  | case2 => cases h
  | case3 c cs offset _ _ hrest ih =>
    -- A character after a backslash is passed over by both.
    rw [tokensQuoted, if_pos rfl, tokensEscaped]
    cases h
    exact ih hrest
  | case4 => cases h
  | case5 cs =>
    rw [tokensQuoted, if_neg (by decide), if_pos rfl]
    cases h
    rfl
  | case6 c cs offset hlast hmore hquote _ _ hrest ih =>
    -- Any other character is neither a backslash nor the end.
    have hescape : c ≠ '\\' := by
      rintro rfl
      cases cs with
      | nil => exact hlast rfl rfl
      | cons d ds => exact hmore d ds rfl rfl
    rw [tokensQuoted, if_neg hescape, if_neg hquote]
    cases h
    exact ih hrest
  | case7 => cases h

/-- The trail on which the tokens of a text are kept. -/
def Trail.tokensOf (text : List Char) : Trail Token where
  Reaches ts cursor := tokens text = ts ++ tokens cursor.rest
  Stops _ := True
  Plain c := isPlain c = true
  sign c := tokens [c]
  Idle := Silent
  stops_of_reaches _ := trivial
  plain_of_isPlain hc := hc
  reaches_cons {ts c rest _} hc hts := by
    rw [hts, List.append_assoc, ← tokens_append (List.forall_mem_singleton.2 hc), List.singleton_append]
  reaches_blanks hts := by
    rw [hts, tokens_skipBlanks]
  meets_unquote {ts rest offset} hts := by
    cases hdone : unquote rest (offset + '"'.utf8Size) with
    | done inside next =>
      change tokens text = _
      rw [hts, tokens_quote, tokensQuoted_of_unquote hdone]
    | failed stop => trivial
  idle_nil := silent_nil
  idle_append hts hus := hts.append hus
  idle_sign hc := silent_tokens (List.forall_mem_singleton.2 hc)

namespace Reader

variable {α β : Type} {text : List Char} {P : α → List Token → Prop} {Q : β → List Token → Prop}

/-- In the text, the tokens that the reader passes are in the relation `P` to what it gives. -/
def Scans (text : List Char) (p : Reader α) (P : α → List Token → Prop) : Prop :=
  p.Follows (.tokensOf text) P

/-- A reader that passes no value before another. -/
theorem Quiet.bind {p : Reader α} {next : α → Reader β} (hp : p.Quiet (.tokensOf text))
    (h : ∀ a ts, Silent ts → (next a).Scans text fun b us => Q b (ts ++ us)) :
    (p >>= next).Scans text Q :=
  Follows.bind hp h

/-- A span stops where it can go no further. -/
theorem stops_span (p : Char → Bool) : ∀ (text : List Char) (offset : Nat),
    stops p (Cursor.span p text offset).2.rest = true
  | [], _ => rfl
  | c :: cs, offset => by
    rw [Cursor.span]
    split
    · exact stops_span p cs _
    · rename_i hc
      simpa [stops] using hc

theorem takeWhile1_eq_done {p : Char → Bool} {cursor next : Cursor} {text : List Char}
    (h : takeWhile1 p cursor = .done text next) :
    cursor.rest = text ++ next.rest ∧ stops p next.rest = true := by
  obtain ⟨first, middle, hfirst, h⟩ := bind_eq_done h
  obtain ⟨more, after, hmore, h⟩ := bind_eq_done h
  cases h
  cases hmore
  refine ⟨?_, stops_span p _ _⟩
  rw [satisfy_eq_done hfirst, List.cons_append, span_append]

section Block

variable {block : Reader (BlockDraft × BodyDraft)}
  (hblock : block.Scans text fun b ts => Spells ts (ArmsDraft.marks (.arm b.1 b.2 .done)))
include hblock

end Block

end Reader

end Unguard.Text
