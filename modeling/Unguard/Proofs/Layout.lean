import Unguard.Proofs.ReadingBack

/-!
# Texts that differ in layout

Layout is what stands between the signs of a text: blanks and comments, in runs that are called gaps here.
`Relaid` relates a text to one in which some of its gaps have been replaced by others.

Reading two such texts is compared step by step.  `Alike` relates what is left of the one to what is left
of the other, and `Reader.Agree` says that two readers decide alike on such rests: either both fail, or
both give values that correspond, and what is left is alike again.  Two numbers are carried along.  A rest
has a weight, the number of signs and strings in it, which is the same on both sides although the lengths
are not; a reader is compared on rests up to some weight, and it may be known to pass some of it.  This is
what makes the limits on nesting and repetition irrelevant, which come from the lengths.

A lone slash needs care, because a comment put after it takes it in.  No text with a lone slash can be
read, and this too follows from comparing: see `Alike`.
-/

namespace Unguard.Text

/-! ### Gaps -/

/-- A run of blanks and of comments with the ends of their lines. -/
inductive Gap : List Char → Prop
  | nil : Gap []
  | blank {c : Char} {r : List Char} (h : isBlank c = true) (rest : Gap r) : Gap (c :: r)
  | comment {text r : List Char} (h : '\n' ∉ text) (rest : Gap r) :
      Gap ('/' :: '/' :: (text ++ '\n' :: r))

/-- A gap at the end of a text, where the last comment needs no end of line. -/
def LastGap (r : List Char) : Prop :=
  Gap r ∨ ∃ before text, Gap before ∧ '\n' ∉ text ∧ r = before ++ '/' :: '/' :: text

/-- A blank or a comment comes next. -/
def startsGap : List Char → Bool
  | [] => false
  | c :: s => isBlank c || (c = '/' && s.head? = some '/')

theorem skipBlanks_of_startsGap {s : List Char} (h : startsGap s = false) (offset : Nat) :
    skipBlanks s offset = ⟨s, offset⟩ := by
  rw [skipBlanks.eq_def]
  split
  · rfl
  · cases h
  · rw [startsGap, Bool.or_eq_false_iff] at h
    rw [if_neg (Bool.eq_false_iff.1 h.1)]

/-- A comment ends with its line, and what comes after is skipped like any other gap. -/
theorem skipComment_append {text : List Char} (h : '\n' ∉ text) (r : List Char) (offset : Nat) :
    ∃ after, skipComment (text ++ '\n' :: r) offset = skipBlanks r after := by
  induction text generalizing offset with
  | nil => exact ⟨_, by rw [List.nil_append, skipComment, if_pos rfl]⟩
  | cons c cs ih =>
    rw [List.mem_cons, not_or] at h
    rw [List.cons_append, skipComment, if_neg (Ne.symm h.1)]
    exact ih h.2 _

theorem skipComment_of_notMem {text : List Char} (h : '\n' ∉ text) (offset : Nat) :
    (skipComment text offset).rest = [] := by
  induction text generalizing offset with
  | nil => rw [skipComment]
  | cons c cs ih =>
    rw [List.mem_cons, not_or] at h
    rw [skipComment, if_neg (Ne.symm h.1)]
    exact ih h.2 _

theorem skipBlanks_cons {c : Char} (h : isBlank c = true) (cs : List Char) (offset : Nat) :
    skipBlanks (c :: cs) offset = skipBlanks cs (offset + c.utf8Size) := by
  have hc : c ≠ '/' := by
    rintro rfl
    cases h
  rw [skipBlanks.eq_def]
  split
  · rename_i heq
    cases heq
  · rename_i heq
    exact absurd (List.cons.inj heq).1 hc
  · rename_i heq
    cases heq
    rw [if_pos h]

/-- A gap is passed as a whole. -/
theorem Gap.skipBlanks {r : List Char} (h : Gap r) (s : List Char) (offset : Nat) :
    ∃ after, skipBlanks (r ++ s) offset = skipBlanks s after := by
  induction h generalizing offset with
  | nil => exact ⟨offset, rfl⟩
  | blank h _ ih =>
    rw [List.cons_append, skipBlanks_cons h]
    exact ih _
  | @comment text r h _ ih =>
    obtain ⟨after, hafter⟩ := skipComment_append h (r ++ s) (offset + 2)
    obtain ⟨last, hlast⟩ := ih after
    refine ⟨last, ?_⟩
    rw [List.cons_append, List.cons_append, List.append_assoc, List.cons_append, Text.skipBlanks, hafter,
      hlast]

/-- At the end of a text a comment without an end of line is skipped as well. -/
theorem LastGap.skipBlanks {r : List Char} (h : LastGap r) (offset : Nat) :
    (skipBlanks r offset).rest = [] := by
  rcases h with h | ⟨before, text, hbefore, htext, rfl⟩
  · obtain ⟨after, hafter⟩ := h.skipBlanks [] offset
    rw [List.append_nil] at hafter
    rw [hafter, Text.skipBlanks]
  · obtain ⟨after, hafter⟩ := hbefore.skipBlanks ('/' :: '/' :: text) offset
    rw [hafter, Text.skipBlanks]
    exact skipComment_of_notMem htext _

/-! ### Strings -/

/-- What stands in a string up to its closing quote. -/
inductive Inside : List Char → Prop
  | nil : Inside []
  | escape {s : List Char} (c : Char) (rest : Inside s) : Inside ('\\' :: c :: s)
  | plain {c : Char} {s : List Char} (hescape : c ≠ '\\') (hquote : c ≠ '"') (rest : Inside s) :
      Inside (c :: s)

/-- What a string says does not depend on where it stands or on what follows. -/
theorem Inside.unquote {s : List Char} (h : Inside s) : ∃ text, ∀ rest offset, ∃ after,
    unquote (s ++ '"' :: rest) offset = .done text ⟨rest, after⟩ := by
  induction h with
  | nil => exact ⟨[], fun rest offset => ⟨offset + 1, by rw [List.nil_append, Text.unquote.eq_def]; rfl⟩⟩
  | @escape s c _ ih =>
    obtain ⟨text, htext⟩ := ih
    refine ⟨unescape c ++ text, fun rest offset => ?_⟩
    obtain ⟨after, hafter⟩ := htext rest (offset + 1 + c.utf8Size)
    refine ⟨after, ?_⟩
    rw [List.cons_append, List.cons_append, Text.unquote, hafter]
  | @plain c s hescape hquote _ ih =>
    obtain ⟨text, htext⟩ := ih
    refine ⟨c :: text, fun rest offset => ?_⟩
    obtain ⟨after, hafter⟩ := htext rest (offset + c.utf8Size)
    refine ⟨after, ?_⟩
    -- The cases of an escape come first, and the character is none.
    rw [List.cons_append, Text.unquote.eq_def]
    split
    · rename_i heq
      cases heq
    · rename_i heq
      exact absurd (List.cons.inj heq).1 hescape
    · rename_i heq
      exact absurd (List.cons.inj heq).1 hescape
    · rename_i heq
      cases heq
      rw [if_neg hquote, hafter]

/-! ### The two relations -/

/-- The second text is the first with any of its gaps replaced.  A gap is all that stands between two
signs, so it is not empty and no gap follows it; what replaces it is not empty either.  Strings are taken
whole, so nothing changes in them. -/
inductive Relaid : List Char → List Char → Prop
  | done : Relaid [] []
  | sign {c : Char} {s s' : List Char} (hquote : c ≠ '"') (hgap : startsGap (c :: s) = false)
      (rest : Relaid s s') : Relaid (c :: s) (c :: s')
  | quoted {text s s' : List Char} (h : Inside text) (rest : Relaid s s') :
      Relaid ('"' :: (text ++ '"' :: s)) ('"' :: (text ++ '"' :: s'))
  | gap {r r' s s' : List Char} (h : Gap r) (h' : Gap r') (hne : r ≠ []) (hne' : r' ≠ [])
      (hgap : startsGap s = false) (rest : Relaid s s') : Relaid (r ++ s) (r' ++ s')
  | last {r r' : List Char} (h : LastGap r) (h' : LastGap r') (hne : r ≠ []) (hne' : r' ≠ []) :
      Relaid r r'

/-- Characters of which names, numbers and brackets are made: all that are no blanks and start neither
comment nor string. -/
def isSign (c : Char) : Bool :=
  !isBlank c && c ≠ '/' && c ≠ '"'

/-- Two rests of texts that have the same signs and strings, and gaps at the same places; the number is
how many signs and strings there are.  If `stuck` is set, this is so up to a lone slash only, which no
reader passes, and nothing is said about what follows it. -/
inductive Alike : (stuck : Bool) → Nat → List Char → List Char → Prop
  | done : Alike false 0 [] []
  | slash {s s' : List Char} (h : startsGap ('/' :: s) = false) (h' : startsGap ('/' :: s') = false) :
      Alike true 0 ('/' :: s) ('/' :: s')
  | sign {stuck : Bool} {n : Nat} {c : Char} {s s' : List Char} (h : isSign c = true)
      (rest : Alike stuck n s s') : Alike stuck (n + 1) (c :: s) (c :: s')
  | quoted {stuck : Bool} {n : Nat} {text s s' : List Char} (h : Inside text)
      (rest : Alike stuck n s s') :
      Alike stuck (n + 1) ('"' :: (text ++ '"' :: s)) ('"' :: (text ++ '"' :: s'))
  | gap {stuck : Bool} {n : Nat} {r r' s s' : List Char} (h : Gap r) (h' : Gap r') (hne : r ≠ [])
      (hne' : r' ≠ []) (hgap : startsGap s = false) (rest : Alike stuck n s s') :
      Alike stuck n (r ++ s) (r' ++ s')
  | last {r r' : List Char} (h : LastGap r) (h' : LastGap r') (hne : r ≠ []) (hne' : r' ≠ []) :
      Alike false 0 r r'

/-- Neither a sign nor a string begins where a gap does. -/
theorem not_isSign_of_startsGap {c : Char} {s : List Char} (h : startsGap (c :: s) = true) :
    isSign c = false ∧ c ≠ '"' := by
  simp only [startsGap, Bool.or_eq_true, Bool.and_eq_true, decide_eq_true_eq] at h
  rcases h with h | ⟨rfl, -⟩
  · refine ⟨by rw [isSign, h]; rfl, ?_⟩
    rintro rfl
    cases h
  · exact ⟨by decide, by decide⟩

/-- A gap that is not empty is seen from its first characters, whatever follows. -/
theorem Gap.startsGap {r : List Char} (h : Gap r) (hne : r ≠ []) (s : List Char) :
    startsGap (r ++ s) = true := by
  cases h with
  | nil => exact absurd rfl hne
  | blank h _ =>
    rw [List.cons_append, Text.startsGap, h]
    rfl
  | comment _ _ => rfl

theorem LastGap.startsGap {r : List Char} (h : LastGap r) (hne : r ≠ []) : startsGap r = true := by
  rcases h with h | ⟨before, text, hbefore, -, rfl⟩
  · rw [← List.append_nil r]
    exact h.startsGap hne []
  · by_cases hb : before = []
    · rw [hb]
      rfl
    · exact hbefore.startsGap hb _

namespace Alike

variable {stuck : Bool} {n : Nat} {s s' : List Char}

/-- The weight is no more than the length. -/
theorem le_length (h : Alike stuck n s s') : n ≤ s.length ∧ n ≤ s'.length := by
  induction h with
  | done => exact ⟨Nat.le_refl _, Nat.le_refl _⟩
  | slash _ _ => exact ⟨Nat.zero_le _, Nat.zero_le _⟩
  | sign _ _ ih =>
    simp only [List.length_cons]
    omega
  | quoted _ _ ih =>
    simp only [List.length_cons, List.length_append]
    omega
  | gap _ _ _ _ _ _ ih =>
    simp only [List.length_append]
    omega
  | last _ _ _ _ => exact ⟨Nat.zero_le _, Nat.zero_le _⟩

/-- How the rests begin: with the same sign, with the same string, or with neither on either side. -/
inductive Begins (stuck : Bool) : Nat → List Char → List Char → Prop
  | sign {n : Nat} {c : Char} {s s' : List Char} (h : isSign c = true) (rest : Alike stuck n s s') :
      Begins stuck (n + 1) (c :: s) (c :: s')
  | quoted {n : Nat} {text s s' : List Char} (h : Inside text) (rest : Alike stuck n s s') :
      Begins stuck (n + 1) ('"' :: (text ++ '"' :: s)) ('"' :: (text ++ '"' :: s'))
  | other {n : Nat} {s s' : List Char} (h : ∀ c ∈ s.head?, isSign c = false ∧ c ≠ '"')
      (h' : ∀ c ∈ s'.head?, isSign c = false ∧ c ≠ '"') : Begins stuck n s s'

/-- A reader decides by what comes next, and there the two rests differ only in gaps. -/
theorem begins (h : Alike stuck n s s') : Begins stuck n s s' := by
  -- A gap begins with a blank or a comment, neither of which is a sign or a quote.
  have hgap : ∀ {s : List Char}, startsGap s = true → ∀ c ∈ s.head?, isSign c = false ∧ c ≠ '"' := by
    intro s hs c hc
    cases s with
    | nil => cases hs
    | cons d s =>
      cases hc
      exact not_isSign_of_startsGap hs
  cases h with
  | done => exact .other (fun _ hc => by cases hc) (fun _ hc => by cases hc)
  | slash _ _ =>
    refine .other (fun c hc => ?_) (fun c hc => ?_)
    · cases hc
      exact ⟨by decide, by decide⟩
    · cases hc
      exact ⟨by decide, by decide⟩
  | sign h rest => exact .sign h rest
  | quoted h rest => exact .quoted h rest
  | gap h h' hne hne' _ _ => exact .other (hgap (h.startsGap hne _)) (hgap (h'.startsGap hne' _))
  | last h h' hne hne' => exact .other (hgap (h.startsGap hne)) (hgap (h'.startsGap hne'))

/-- Without weight there is no sign. -/
theorem head_of_weightless (h : Alike stuck 0 s s') {c : Char} (hc : isSign c = true) :
    s.head? ≠ some c ∧ s'.head? ≠ some c := by
  cases h.begins with
  | other hs hs' =>
    constructor
    · intro hhead
      rw [(hs c hhead).1] at hc
      cases hc
    · intro hhead
      rw [(hs' c hhead).1] at hc
      cases hc

/-- If the first rest is empty, so is the second, and no slash is in the way. -/
theorem of_eq_nil (h : Alike stuck n s s') (hs : s = []) : stuck = false ∧ s' = [] := by
  cases h with
  | done => exact ⟨rfl, rfl⟩
  | slash _ _ => cases hs
  | sign _ _ => cases hs
  | quoted _ _ => cases hs
  | gap _ _ hne _ _ _ => exact absurd (List.append_eq_nil_iff.1 hs).1 hne
  | last _ _ hne _ => exact absurd hs hne

theorem startsGap_of_isSign {c : Char} (h : isSign c = true) (s : List Char) :
    startsGap (c :: s) = false := by
  rw [Bool.eq_false_iff]
  intro hgap
  rw [(not_isSign_of_startsGap hgap).1] at h
  cases h

/-- If there is no gap before the one rest, there is none before the other. -/
theorem startsGap_right (h : Alike stuck n s s') (hs : startsGap s = false) :
    startsGap s' = false := by
  cases h with
  | done => rfl
  | slash _ h' => exact h'
  | sign h _ => exact startsGap_of_isSign h _
  | quoted _ _ => rfl
  | gap h _ hne _ _ _ =>
    rw [h.startsGap hne] at hs
    cases hs
  | last h _ hne _ =>
    rw [h.startsGap hne] at hs
    cases hs

/-- Passing gaps leaves rests that are alike and have no gap before them. -/
theorem skipBlanks (h : Alike stuck n s s') (offset offset' : Nat) :
    Alike stuck n (skipBlanks s offset).rest (skipBlanks s' offset').rest ∧
      startsGap (Text.skipBlanks s offset).rest = false := by
  -- If one text is at a gap, so is the other, and both gaps are skipped as a whole.
  by_cases hs : startsGap s = false
  · rw [skipBlanks_of_startsGap hs, skipBlanks_of_startsGap (h.startsGap_right hs)]
    exact ⟨h, hs⟩
  · cases h with
    | done => exact absurd rfl hs
    | slash h _ => exact absurd h hs
    | sign h _ => exact absurd (startsGap_of_isSign h _) hs
    | quoted _ _ => exact absurd rfl hs
    | gap hr hr' _ _ hgap rest =>
      obtain ⟨after, hafter⟩ := hr.skipBlanks _ offset
      obtain ⟨after', hafter'⟩ := hr'.skipBlanks _ offset'
      rw [hafter, hafter', skipBlanks_of_startsGap hgap,
        skipBlanks_of_startsGap (rest.startsGap_right hgap)]
      exact ⟨rest, hgap⟩
    | last hr hr' _ _ =>
      rw [hr.skipBlanks, hr'.skipBlanks]
      exact ⟨.done, rfl⟩

end Alike

/-! ### Two readers on two rests -/

/-- Two outcomes decide alike: both failed, or both gave values that correspond and left rests that are
alike.  Of the weight `j` of the rests before, `k` at least has been passed. -/
inductive Outcome.Matches {α α' : Type} (stuck : Bool) (j k : Nat) (R : α → α' → Prop) :
    Outcome α → Outcome α' → Prop
  | done {a : α} {a' : α'} {next next' : Cursor} {i : Nat} (value : R a a') (le : i + k ≤ j)
      (rest : Alike stuck i next.rest next'.rest) : Matches stuck j k R (.done a next) (.done a' next')
  | failed (stop stop' : Nat) : Matches stuck j k R (.failed stop) (.failed stop')

/-- A bound on the weight that is left may be loosened. -/
theorem Outcome.Matches.imp {α α' : Type} {stuck : Bool} {i j k l : Nat} {R S : α → α' → Prop}
    {o : Outcome α} {o' : Outcome α'} (h : o.Matches stuck i k R o') (hle : l + i ≤ k + j)
    (hR : ∀ a a', R a a' → S a a') : o.Matches stuck j l S o' := by
  cases h with
  | done value le rest => exact .done (hR _ _ value) (by omega) rest
  | failed stop stop' => exact .failed stop stop'

/-- Either both readers failed, or both gave something and left rests that are alike. -/
theorem Outcome.Matches.cases {α α' : Type} {stuck : Bool} {j k : Nat} {R : α → α' → Prop}
    {o : Outcome α} {o' : Outcome α'} (h : o.Matches stuck j k R o') :
    (∃ stop stop', o = .failed stop ∧ o' = .failed stop') ∨
      ∃ a a' next next', o = .done a next ∧ o' = .done a' next' ∧ R a a' ∧
        ∃ i, i + k ≤ j ∧ Alike stuck i next.rest next'.rest := by
  cases h with
  | failed stop stop' => exact Or.inl ⟨stop, stop', rfl, rfl⟩
  | done value le rest => exact Or.inr ⟨_, _, _, _, rfl, rfl, value, _, le, rest⟩

namespace Reader

variable {α α' β β' : Type} {stuck : Bool} {n k l : Nat} {R : α → α' → Prop} {S : β → β' → Prop}

/-- The readers decide alike on rests up to weight `n`, and pass `k` at least. -/
def Agree (stuck : Bool) (n k : Nat) (p : Reader α) (p' : Reader α') (R : α → α' → Prop) : Prop :=
  ∀ j ≤ n, ∀ cursor cursor' : Cursor, Alike stuck j cursor.rest cursor'.rest →
    (p cursor).Matches stuck j k R (p' cursor')

section Combinators

variable {p : Reader α} {p' : Reader α'}

theorem Agree.imp {R' : α → α' → Prop} {m : Nat} (hp : p.Agree stuck n k p' R) (hm : m ≤ n)
    (hl : l ≤ k) (hR : ∀ a a', R a a' → R' a a') : p.Agree stuck m l p' R' :=
  fun j hj cursor cursor' h => (hp j (Nat.le_trans hj hm) cursor cursor' h).imp (by omega) hR

/-- On fewer rests, or with less passed. -/
theorem Agree.mono {m : Nat} (hp : p.Agree stuck n k p' R) (hm : m ≤ n) (hl : l ≤ k) :
    p.Agree stuck m l p' R :=
  hp.imp hm hl fun _ _ h => h

theorem agree_pure {a : α} {a' : α'} (h : R a a') :
    Agree stuck n 0 (Pure.pure a : Reader α) (Pure.pure a' : Reader α') R :=
  fun _ _ _ _ halike => .done h (Nat.le_refl _) halike

theorem agree_fail : Agree stuck n k (fail : Reader α) (fail : Reader α') R :=
  fun _ _ _ _ _ => .failed _ _

theorem bind_of_done {q : α → Reader β} {cursor next : Cursor} {a : α}
    (h : p cursor = .done a next) : (p >>= q) cursor = q a next := by
  change Reader.bind p q cursor = _
  rw [Reader.bind, h]

theorem bind_of_failed {q : α → Reader β} {cursor : Cursor} {stop : Nat}
    (h : p cursor = .failed stop) : (p >>= q) cursor = .failed stop := by
  change Reader.bind p q cursor = _
  rw [Reader.bind, h]

/-- One reader after another.  The second ones are compared on what the first ones have left. -/
theorem Agree.bindAdd {q : α → Reader β} {q' : α' → Reader β'} (hp : p.Agree stuck n k p' R)
    (hq : ∀ m, m + k ≤ n → ∀ a a', R a a' → (q a).Agree stuck m l (q' a') S) :
    (p >>= q).Agree stuck n (k + l) (p' >>= q') S := by
  intro j hj cursor cursor' h
  have hmatch := hp j hj cursor cursor' h
  change (Reader.bind p q cursor).Matches stuck j (k + l) S (Reader.bind p' q' cursor')
  rw [Reader.bind, Reader.bind]
  generalize p cursor = o at hmatch
  generalize p' cursor' = o' at hmatch
  cases hmatch with
  | failed stop stop' => exact .failed stop stop'
  | @done a a' next next' i value le rest =>
    exact (hq i (by omega) a a' value i (Nat.le_refl _) next next' rest).imp (by omega) fun _ _ h => h

/-- The same, where the first ones pass all that is known to be passed. -/
theorem Agree.bind {q : α → Reader β} {q' : α' → Reader β'} (hp : p.Agree stuck n k p' R)
    (hq : ∀ m, m + k ≤ n → ∀ a a', R a a' → (q a).Agree stuck m 0 (q' a') S) :
    (p >>= q).Agree stuck n k (p' >>= q') S :=
  hp.bindAdd hq

/-- The same, where the second ones do. -/
theorem Agree.bindRight {q : α → Reader β} {q' : α' → Reader β'} (hp : p.Agree stuck n k p' R)
    (hq : ∀ m, m + k ≤ n → ∀ a a', R a a' → (q a).Agree stuck m l (q' a') S) :
    (p >>= q).Agree stuck n l (p' >>= q') S :=
  (hp.bindAdd hq).mono (Nat.le_refl _) (Nat.le_add_left l k)

/-- The second alternatives are tried on both sides or on neither. -/
theorem Agree.orElse {q : Reader α} {q' : Reader α'} (hp : p.Agree stuck n k p' R)
    (hq : q.Agree stuck n k q' R) : (p <|> q).Agree stuck n k (p' <|> q') R := by
  intro j hj cursor cursor' h
  have hmatch := hp j hj cursor cursor' h
  change (Reader.orElse p (fun _ => q) cursor).Matches stuck j k R
    (Reader.orElse p' (fun _ => q') cursor')
  rw [Reader.orElse, Reader.orElse]
  generalize p cursor = o at hmatch
  generalize p' cursor' = o' at hmatch
  cases hmatch with
  | failed stop stop' => exact hq j hj cursor cursor' h
  | done value le rest => exact .done value le rest

/-- What is undone on the one side is undone on the other, so nothing may be counted as passed. -/
theorem Agree.optional (hp : p.Agree stuck n k p' R) :
    (optional p).Agree stuck n 0 (optional p') (Option.Rel R) := by
  intro j hj cursor cursor' h
  have hmatch := hp j hj cursor cursor' h
  rw [Reader.optional, Reader.optional]
  generalize p cursor = o at hmatch
  generalize p' cursor' = o' at hmatch
  cases hmatch with
  | failed stop stop' => exact .done .none (Nat.le_refl _) h
  | done value le rest => exact .done (.some value) (by omega) rest

end Combinators

/-! ### The smallest parts -/

/-- A character that is not the one sought is left where it is. -/
theorem satisfy_of_head {p : Char → Bool} {s : List Char} (h : ∀ c ∈ s.head?, p c = false)
    (offset : Nat) : satisfy p ⟨s, offset⟩ = .failed offset := by
  rw [satisfy]
  cases s with
  | nil => rfl
  | cons c s => exact if_neg (Bool.eq_false_iff.1 (h c rfl))

theorem span_of_head {p : Char → Bool} {s : List Char} (h : ∀ c ∈ s.head?, p c = false)
    (offset : Nat) : Cursor.span p s offset = ([], ⟨s, offset⟩) := by
  cases s with
  | nil => rfl
  | cons c s => rw [Cursor.span, if_neg (Bool.eq_false_iff.1 (h c rfl))]

section Signs

variable {p : Char → Bool} (hp : ∀ c, p c = true → isSign c = true)
include hp

/-- What takes signs only takes nothing else. -/
theorem eq_false_of_not_isSign {c : Char} (hc : isSign c = false) : p c = false := by
  rw [Bool.eq_false_iff]
  intro h
  rw [hp c h] at hc
  cases hc

theorem eq_false_of_mem_head_quote {s : List Char} : ∀ c ∈ ('"' :: s).head?, p c = false := by
  intro c hc
  cases hc
  exact eq_false_of_not_isSign hp (by decide)

/-- A sign weighs one, and a condition on signs does not see gaps. -/
theorem agree_satisfy : (satisfy p).Agree stuck n 1 (satisfy p) Eq := by
  rintro j hj ⟨s, offset⟩ ⟨s', offset'⟩ h
  dsimp only at h
  cases h.begins with
  | @sign n c s s' hc rest =>
    rw [satisfy, satisfy]
    dsimp only
    by_cases hpc : p c = true
    · rw [if_pos hpc, if_pos hpc]
      exact .done rfl (Nat.le_refl _) rest
    · rw [if_neg hpc, if_neg hpc]
      exact .failed _ _
  | quoted _ _ =>
    rw [satisfy_of_head (eq_false_of_mem_head_quote hp),
      satisfy_of_head (eq_false_of_mem_head_quote hp)]
    exact .failed _ _
  | other hs hs' =>
    rw [satisfy_of_head fun c hc => eq_false_of_not_isSign hp (hs c hc).1,
      satisfy_of_head fun c hc => eq_false_of_not_isSign hp (hs' c hc).1]
    exact .failed _ _

/-- Of two texts that are alike, the same signs are taken. -/
theorem span_alike {s s' : List Char} {j : Nat} (h : Alike stuck j s s') (offset offset' : Nat) :
    (Cursor.span p s offset).1 = (Cursor.span p s' offset').1 ∧ ∃ i ≤ j,
      Alike stuck i (Cursor.span p s offset).2.rest (Cursor.span p s' offset').2.rest := by
  induction s generalizing s' j offset offset' with
  | nil =>
    -- A text with nothing left is alike only to one that does not go on with a sign.
    cases h.begins with
    | other _ hs' =>
      rw [span_of_head fun c hc => eq_false_of_not_isSign hp (hs' c hc).1]
      exact ⟨rfl, j, Nat.le_refl _, h⟩
  | cons c s ih =>
    cases h.begins with
    | sign hc rest =>
      rw [Cursor.span, Cursor.span]
      by_cases hpc : p c = true
      · rw [if_pos hpc, if_pos hpc]
        obtain ⟨htaken, i, hi, hrest⟩ := ih rest (offset + c.utf8Size) (offset' + c.utf8Size)
        exact ⟨congrArg (c :: ·) htaken, i, Nat.le_succ_of_le hi, hrest⟩
      · rw [if_neg hpc, if_neg hpc]
        exact ⟨rfl, _, Nat.le_refl _, h⟩
    | quoted _ _ =>
      rw [span_of_head (eq_false_of_mem_head_quote hp), span_of_head (eq_false_of_mem_head_quote hp)]
      exact ⟨rfl, _, Nat.le_refl _, h⟩
    | other hs hs' =>
      rw [span_of_head fun c hc => eq_false_of_not_isSign hp (hs c hc).1,
        span_of_head fun c hc => eq_false_of_not_isSign hp (hs' c hc).1]
      exact ⟨rfl, _, Nat.le_refl _, h⟩

theorem agree_takeWhile : (takeWhile p).Agree stuck n 0 (takeWhile p) Eq := by
  intro j hj cursor cursor' h
  obtain ⟨htaken, i, hi, hrest⟩ := span_alike hp h cursor.offset cursor'.offset
  exact .done htaken hi hrest

/-- The first character weighs one; the others need not be counted. -/
theorem agree_takeWhile1 : (takeWhile1 p).Agree stuck n 1 (takeWhile1 p) Eq := by
  refine (agree_satisfy hp).bind fun _ _ first first' hfirst => ?_
  refine (agree_takeWhile hp).bind fun _ _ rest rest' hrest => agree_pure ?_
  rw [hfirst, hrest]

end Signs

theorem agree_char {c : Char} (hc : isSign c = true) : (char c).Agree stuck n 1 (char c) Eq :=
  (agree_satisfy fun d hd => by rw [of_decide_eq_true hd, hc]).bind fun _ _ _ _ _ => agree_pure rfl

/-- A word of signs begins both texts or neither. -/
theorem drop?_alike {w : List Char} (hw : ∀ c ∈ w, isSign c = true) {cursor cursor' : Cursor} {j : Nat}
    (h : Alike stuck j cursor.rest cursor'.rest) :
    (cursor.drop? w = none ∧ cursor'.drop? w = none) ∨
      ∃ next next' i, cursor.drop? w = some next ∧ cursor'.drop? w = some next' ∧ i + w.length ≤ j ∧
        Alike stuck i next.rest next'.rest := by
  induction w generalizing cursor cursor' j with
  | nil => exact Or.inr ⟨cursor, cursor', j, rfl, rfl, Nat.le_refl _, h⟩
  | cons d w ih =>
    rw [List.forall_mem_cons] at hw
    obtain ⟨s, offset⟩ := cursor
    obtain ⟨s', offset'⟩ := cursor'
    have hnone : ∀ {s : List Char}, (∀ c ∈ s.head?, c ≠ d) → ∀ offset,
        Cursor.drop? (d :: w) ⟨s, offset⟩ = none := by
      intro s hs offset
      cases s with
      | nil => rfl
      | cons c s => exact if_neg (Ne.symm (hs c rfl))
    have hne : ∀ {c : Char}, isSign c = false → c ≠ d := by
      rintro c hc rfl
      rw [hw.1] at hc
      cases hc
    dsimp only at h
    -- Texts that are alike go on with the same sign, or neither goes on with one; `d` is a sign.
    cases h.begins with
    | @sign n c s s' hc rest =>
      rw [Cursor.drop?, Cursor.drop?]
      by_cases hdc : d = c
      · rw [if_pos hdc, if_pos hdc]
        have hafter : Alike stuck n (Cursor.mk s (offset + c.utf8Size)).rest
            (Cursor.mk s' (offset' + c.utf8Size)).rest := rest
        obtain hboth | ⟨next, next', i, hnext, hnext', hi, hrest⟩ := ih hw.2 hafter
        · exact Or.inl hboth
        · exact Or.inr ⟨next, next', i, hnext, hnext', Nat.succ_le_succ hi, hrest⟩
      · rw [if_neg hdc, if_neg hdc]
        exact Or.inl ⟨rfl, rfl⟩
    | quoted _ _ =>
      refine Or.inl ⟨hnone (fun c hc => ?_) _, hnone (fun c hc => ?_) _⟩
      · cases hc
        exact hne (by decide)
      · cases hc
        exact hne (by decide)
    | other hs hs' =>
      exact Or.inl ⟨hnone (fun c hc => hne (hs c hc).1) _, hnone (fun c hc => hne (hs' c hc).1) _⟩

/-- A word is made of signs, so no gap is inside it on either side. -/
theorem agree_word {w : String} (hw : w.toList.all isSign = true) :
    (word w).Agree stuck n w.toList.length (word w) Eq := by
  intro j hj cursor cursor' h
  rw [word, word]
  obtain ⟨hnone, hnone'⟩ | ⟨next, next', i, hnext, hnext', hi, hrest⟩ :=
    drop?_alike (List.all_eq_true.1 hw) h
  · rw [hnone, hnone']
    exact .failed _ _
  · rw [hnext, hnext']
    exact .done rfl hi hrest

theorem agree_blanks : blanks.Agree stuck n 0 blanks Eq := fun _ _ cursor cursor' h =>
  .done rfl (Nat.le_refl _) (h.skipBlanks cursor.offset cursor'.offset).1

/-- Looking at the next sign passes nothing. -/
theorem agree_nextIs {c : Char} (hc : isSign c = true) :
    (nextIs c).Agree stuck n 0 (nextIs c) Eq := by
  intro j hj cursor cursor' h
  refine .done (decide_eq_decide.2 ?_) (Nat.le_refl _) h
  obtain ⟨s, offset⟩ := cursor
  obtain ⟨s', offset'⟩ := cursor'
  dsimp only at h ⊢
  cases h.begins with
  | sign _ _ => rfl
  | quoted _ _ => rfl
  | other hs hs' =>
    constructor
    · intro hhead
      rw [(hs c hhead).1] at hc
      cases hc
    · intro hhead
      rw [(hs' c hhead).1] at hc
      cases hc

/-! ### Lists with commas -/

section Lists

variable {p : Reader α} {p' : Reader α'}

/-- Blanks around a part are skipped on both sides, however many there are. -/
theorem Agree.padded (hp : p.Agree stuck n k p' R) : (padded p).Agree stuck n k (padded p') R :=
  agree_blanks.bindRight fun _ hm _ _ _ => (hp.mono hm (Nat.le_refl _)).bind fun _ _ _ _ ha =>
    agree_blanks.bind fun _ _ _ _ _ => agree_pure ha

theorem agree_keyword {w : String} (hw : w.toList.all isSign = true) :
    (keyword w).Agree stuck n w.toList.length (keyword w) Eq :=
  (agree_word hw).bind fun _ _ _ _ _ => agree_blanks

/-- What stands in brackets is compared on less, because the opening bracket has been passed. -/
theorem Agree.bracketed {left right : Char} (hleft : isSign left = true) (hright : isSign right = true)
    (hp : ∀ m, m + 1 ≤ n → p.Agree stuck m 0 p' R) :
    (bracketed left p right).Agree stuck n 1 (bracketed left p' right) R :=
  (agree_char hleft).bind fun m hm _ _ _ => agree_blanks.bind fun i hi _ _ _ =>
    (hp i (by omega)).bind fun _ _ _ _ ha => agree_blanks.bind fun _ _ _ _ _ =>
      ((agree_char hright).mono (Nat.le_refl _) (Nat.zero_le _)).bind fun _ _ _ _ _ => agree_pure ha

/-- Without a comma the list ends, whatever its limit. -/
theorem afterCommas_of_failed {cursor : Cursor} {stop : Nat}
    (h : (do char ','; p : Reader α) cursor = .failed stop) (budget : List Char) :
    afterCommas p budget cursor = .done [] cursor := by
  cases budget with
  | nil => rfl
  | cons _ budget =>
    have hnone : optional (do char ','; p) cursor = .done none cursor := by rw [optional, h]
    rw [afterCommas, bind_of_done hnone]
    rfl

/-- After an item the budget is smaller by one. -/
theorem afterCommas_of_done {cursor next : Cursor} {a : α}
    (h : (do char ','; p : Reader α) cursor = .done a next) (c : Char) (budget : List Char) :
    afterCommas p (c :: budget) cursor =
      (do let rest ← afterCommas p budget; return a :: rest : Reader (List α)) next := by
  have hsome : optional (do char ','; p) cursor = .done (some a) next := by rw [optional, h]
  rw [afterCommas, bind_of_done hsome]

/-- The limits do not matter as long as they are not below the weight: every item follows a comma. -/
theorem Agree.afterCommas (hp : p.Agree stuck n 0 p' R) {budget budget' : List Char} {m : Nat}
    (hm : m ≤ n) (hbudget : m ≤ budget.length) (hbudget' : m ≤ budget'.length) :
    (afterCommas p budget).Agree stuck m 0 (afterCommas p' budget') (List.Forall₂ R) := by
  have hcomma : Agree stuck n 1 (do char ','; p) (do char ','; p') R :=
    (agree_char (by decide)).bind fun m hm _ _ _ => hp.mono (by omega) (Nat.le_refl _)
  -- By induction on the budget of one side. Every comma takes weight from both texts, so neither runs
  -- out of budget before the weight is used up.
  induction budget generalizing budget' m with
  | nil =>
    intro j hj cursor cursor' h
    obtain ⟨stop, stop', hstop, hstop'⟩ | ⟨_, _, _, _, -, -, -, i, hi, -⟩ :=
      (hcomma j (Nat.le_trans hj hm) cursor cursor' h).cases
    · rw [afterCommas_of_failed hstop, afterCommas_of_failed hstop']
      exact .done .nil (Nat.le_refl _) h
    · -- a comma has weight, and there is none left
      rw [List.length_nil] at hbudget
      omega
  | cons c budget ih =>
    intro j hj cursor cursor' h
    obtain ⟨stop, stop', hstop, hstop'⟩ | ⟨a, a', next, next', hnext, hnext', ha, i, hi, hrest⟩ :=
      (hcomma j (Nat.le_trans hj hm) cursor cursor' h).cases
    · rw [afterCommas_of_failed hstop, afterCommas_of_failed hstop']
      exact .done .nil (Nat.le_refl _) h
    · obtain ⟨c', budget', rfl⟩ : ∃ c' rest', budget' = c' :: rest' :=
        List.exists_cons_of_length_pos (by omega)
      rw [List.length_cons] at hbudget hbudget'
      rw [afterCommas_of_done hnext, afterCommas_of_done hnext']
      -- After the comma and its item less weight is left, which is what the induction needs.
      have hmore : (Reader.afterCommas p budget).Agree stuck i 0 (Reader.afterCommas p' budget')
          (List.Forall₂ R) := ih (by omega) (by omega) (by omega)
      have hlist : Agree stuck i 0 (do let rest ← Reader.afterCommas p budget; return a :: rest)
          (do let rest ← Reader.afterCommas p' budget'; return a' :: rest) (List.Forall₂ R) :=
        hmore.bind fun _ _ _ _ hmore => agree_pure (List.Forall₂.cons ha hmore)
      exact (hlist i (Nat.le_refl _) next next' hrest).imp (by omega) fun _ _ h => h

/-- The budgets of the two readers come from the lengths of the rests, which differ; each is at least the
weight. -/
theorem Agree.separated1 (hp : p.Agree stuck n k p' R) :
    (separated1 p).Agree stuck n k (separated1 p') (List.Forall₂ R) := by
  refine hp.bind fun m hm a a' ha => ?_
  have hmore : Agree stuck m 0 (fun cursor => Reader.afterCommas p cursor.rest cursor)
      (fun cursor => Reader.afterCommas p' cursor.rest cursor) (List.Forall₂ R) := by
    intro j hj cursor cursor' h
    exact (hp.mono (Nat.le_refl _) (Nat.zero_le _)).afterCommas (by omega) h.le_length.1
      h.le_length.2 j (Nat.le_refl _) cursor cursor' h
  exact hmore.bind fun _ _ _ _ hrest => agree_pure (.cons ha hrest)

theorem Agree.separated (hp : p.Agree stuck n k p' R) :
    (separated p).Agree stuck n 0 (separated p') (List.Forall₂ R) := by
  refine hp.separated1.optional.bind fun m hm items items' h => ?_
  cases h with
  | none => exact agree_pure .nil
  | some h => exact agree_pure h

theorem eq_of_rel {o o' : Option α} (h : Option.Rel Eq o o') : o = o' := by
  cases h with
  | none => rfl
  | some h => exact congrArg some h

theorem getD_eq_of_rel {o o' : Option (List α)} (h : Option.Rel (List.Forall₂ Eq) o o') :
    o.getD [] = o'.getD [] := by
  cases h with
  | none => rfl
  | some h => exact List.forall₂_eq_eq_eq ▸ h

end Lists

/-! ### Names, numbers and quoted strings -/

/-- The parts of names are no blanks, quotes or slashes. -/
theorem isSign_of_isNamePart {c : Char} (h : isNamePart c = true) : isSign c = true := by
  have hblank : isBlank c = false := by
    rw [Bool.eq_false_iff]
    intro hc
    simp only [isBlank, Bool.or_eq_true, decide_eq_true_eq] at hc
    rcases hc with (((rfl | rfl) | rfl) | rfl) | rfl <;> cases h
  simp only [isSign, Bool.and_eq_true, Bool.not_eq_true', decide_eq_true_eq]
  refine ⟨⟨hblank, ?_⟩, ?_⟩
  · rintro rfl
    cases h
  · rintro rfl
    cases h

theorem isSign_of_isDigit {c : Char} (h : c.isDigit = true) : isSign c = true :=
  isSign_of_isNamePart (isNamePart_of_isDigit h)

theorem agree_name : name.Agree stuck n 1 name Eq := by
  refine (agree_satisfy fun c hc => isSign_of_isNamePart (isNamePart_of_isNameStart hc)).bind
    fun _ _ first first' hfirst => ?_
  refine (agree_takeWhile fun c hc => isSign_of_isNamePart hc).bind fun _ _ rest rest' hrest => ?_
  exact agree_pure (by rw [hfirst, hrest])

theorem agree_qualified : qualified.Agree stuck n 1 qualified Eq := by
  refine agree_name.bind fun _ _ dialect dialect' hdialect => ?_
  refine (agree_char (c := '.') (by decide)).bindRight fun _ _ _ _ _ => ?_
  refine (agree_name.mono (Nat.le_refl _) (Nat.zero_le 1)).bind fun _ _ word word' hword => ?_
  exact agree_pure (by rw [hdialect, hword])

/-- Only the name of a value is compared, because its offset differs. -/
theorem agree_mention : mention.Agree stuck n 1 mention fun m m' => m.bare = m'.bare := by
  refine (agree_char (by decide)).bind fun _ _ _ _ _ => ?_
  have hoffset : ∀ m, offset.Agree stuck m 0 offset fun _ _ => True :=
    fun _ _ _ _ _ h => .done trivial (Nat.le_refl _) h
  refine (hoffset _).bind fun _ _ _ _ _ => ?_
  refine ((agree_takeWhile1 fun c hc => isSign_of_isNamePart hc).mono (Nat.le_refl _)
    (Nat.zero_le 1)).bind fun _ _ text text' htext => agree_pure ?_
  rw [htext]
  rfl

theorem agree_minus : minus.Agree stuck n 0 minus Eq := by
  refine (agree_char (c := '-') (by decide)).optional.bind fun _ _ sign sign' hsign => agree_pure ?_
  cases hsign with
  | none => rfl
  | some _ => rfl

/-- The value decides whether an integer fits, and it is the same on both sides. -/
theorem agree_integer : integer.Agree stuck n 0 integer Eq := by
  have hnumeral : ∀ m, numeral.Agree stuck m 1 numeral Eq := by
    intro m
    refine Agree.orElse ?_ ((agree_char (by decide)).bind fun _ _ _ _ _ => agree_pure rfl)
    refine (agree_satisfy fun c hc => isSign_of_isDigit (Bool.and_eq_true_iff.1 hc).1).bind
      fun _ _ first first' hfirst => ?_
    refine (agree_takeWhile fun c hc => isSign_of_isDigit hc).bind fun _ _ rest rest' hrest => ?_
    exact agree_pure (by rw [hfirst, hrest])
  refine agree_minus.bind fun m _ negative negative' hnegative => ?_
  refine ((hnumeral m).mono (Nat.le_refl _) (Nat.zero_le 1)).bind fun _ _ i i' hi => ?_
  rw [← hnegative, ← hi]
  split
  · exact agree_pure rfl
  · split
    · exact agree_pure rfl
    · exact agree_fail

theorem agree_float : float.Agree stuck n 0 float Eq := by
  have hdigits : ∀ m, (takeWhile1 Char.isDigit).Agree stuck m 0 (takeWhile1 Char.isDigit) Eq := fun _ =>
    (agree_takeWhile1 fun _ hc => isSign_of_isDigit hc).mono (Nat.le_refl _) (Nat.zero_le 1)
  -- The letter and the sign of an exponent are characters that both texts have in common.
  have hexponent : ∀ m, exponent.Agree stuck m 0 exponent Eq := by
    intro m
    refine Agree.bind ((agree_satisfy fun c hc => ?_).mono (Nat.le_refl _) (Nat.zero_le 1))
      fun _ _ _ _ _ => ?_
    · simp only [Bool.or_eq_true, decide_eq_true_eq] at hc
      rcases hc with rfl | rfl <;> decide
    · refine Agree.bind (Agree.optional (agree_satisfy fun c hc => ?_)) fun _ _ sign sign' hsign => ?_
      · simp only [Bool.or_eq_true, decide_eq_true_eq] at hc
        rcases hc with rfl | rfl <;> decide
      · refine (hdigits _).bind fun _ _ digits digits' hdigits => agree_pure ?_
        rw [hdigits, eq_of_rel hsign]
  refine agree_minus.bind fun _ _ negative negative' hnegative => ?_
  refine (hdigits _).bind fun _ _ whole whole' hwhole => ?_
  refine (agree_char (c := '.') (by decide)).bindRight fun _ _ _ _ _ => ?_
  refine (hdigits _).bind fun _ _ fraction fraction' hfraction => ?_
  refine (hexponent _).optional.bind fun _ _ exponent exponent' hexponent => agree_pure ?_
  rw [hnegative, hwhole, hfraction, eq_of_rel hexponent]

theorem quoted_of_unquote {text inside : List Char} {offset : Nat} {next : Cursor}
    (h : unquote text (offset + 1) = .done inside next) :
    quoted ⟨'"' :: text, offset⟩ = .done (String.ofList inside) next := by
  have hquote : char '"' ⟨'"' :: text, offset⟩ = .done () ⟨text, offset + 1⟩ := rfl
  rw [quoted, bind_of_done hquote]
  exact bind_of_done (p := fun cursor => unquote cursor.rest cursor.offset) h

/-- A string weighs one, and what is in it is the same on both sides. -/
theorem agree_quoted : quoted.Agree stuck n 1 quoted Eq := by
  have hfail : ∀ {s : List Char}, (∀ c ∈ s.head?, c ≠ '"') → ∀ offset,
      quoted ⟨s, offset⟩ = .failed offset := by
    intro s hs offset
    change Reader.bind (Reader.bind (satisfy (· = '"')) _) _ _ = _
    rw [Reader.bind, Reader.bind, satisfy_of_head fun c hc => decide_eq_false (hs c hc)]
  rintro j hj ⟨s, offset⟩ ⟨s', offset'⟩ h
  dsimp only at h
  cases h.begins with
  | @sign n c s s' hc rest =>
    -- A sign is not a quote.
    have hne : ∀ {s : List Char}, ∀ d ∈ (c :: s).head?, d ≠ '"' := by
      rintro s d hd rfl
      cases hd
      cases hc
    rw [hfail hne, hfail hne]
    exact .failed _ _
  | @quoted n text s s' htext rest =>
    -- Quoted parts are the same in both texts, character by character.
    obtain ⟨inside, hinside⟩ := htext.unquote
    obtain ⟨after, hafter⟩ := hinside s (offset + 1)
    obtain ⟨after', hafter'⟩ := hinside s' (offset' + 1)
    rw [quoted_of_unquote hafter, quoted_of_unquote hafter']
    exact .done rfl (Nat.le_refl _) rest
  | other hs hs' =>
    rw [hfail fun c hc => (hs c hc).2, hfail fun c hc => (hs' c hc).2]
    exact .failed _ _

end Reader

end Unguard.Text
