import Unguard.Proofs.Decimals
import Unguard.Text.Lexeme
import Unguard.Text.Writer

/-!
# Reading the smallest parts of a text back

`Reader.Reads p text rest P` says that `p` takes `text` up to `rest` and gives a value that satisfies
`P`, and `Reader.Refuses p text` says that it fails, both wherever the text stands.  The two are
followed through the combinators, and then names, numbers and quoted strings are shown to be read back
from how they are written.

A lexeme is only read back if what follows does not go on with it.  `isApart` is true of a rest that
no lexeme goes on into, and `isSolid` of a rest that starts with something other than blanks.
-/

namespace Unguard.Text

namespace Reader

variable {α β : Type} {P : α → Prop} {Q : β → Prop} {text middle rest : List Char}

/-! ### Reading and refusing -/

/-- The reader takes the text up to `rest` and gives a value that satisfies `P`. -/
def Reads (p : Reader α) (text rest : List Char) (P : α → Prop) : Prop :=
  ∀ offset, ∃ value next, p ⟨text, offset⟩ = .done value ⟨rest, next⟩ ∧ P value

/-- The reader fails on the text. -/
def Refuses (p : Reader α) (text : List Char) : Prop :=
  ∀ offset, ∃ stop, p ⟨text, offset⟩ = .failed stop

theorem Reads.mono {p : Reader α} {P' : α → Prop} (h : p.Reads text rest P)
    (hP : ∀ a, P a → P' a) : p.Reads text rest P' := by
  intro offset
  obtain ⟨value, next, hdone, hvalue⟩ := h offset
  exact ⟨value, next, hdone, hP value hvalue⟩

theorem reads_pure {a : α} (h : P a) : Reads (Pure.pure a : Reader α) text text P :=
  fun offset => ⟨a, offset, rfl, h⟩

theorem Reads.bind {p : Reader α} {next : α → Reader β} (h : p.Reads text middle P)
    (hnext : ∀ a, P a → (next a).Reads middle rest Q) : (p >>= next).Reads text rest Q := by
  intro offset
  obtain ⟨value, after, hdone, hvalue⟩ := h offset
  obtain ⟨value', after', hdone', hvalue'⟩ := hnext value hvalue after
  refine ⟨value', after', ?_, hvalue'⟩
  change Reader.bind p next ⟨text, offset⟩ = _
  rw [Reader.bind, hdone]
  exact hdone'

/-- What was read before a refusal does not matter. -/
theorem Reads.bind_refuses {p : Reader α} {next : α → Reader β} (h : p.Reads text middle P)
    (hnext : ∀ a, P a → (next a).Refuses middle) : (p >>= next).Refuses text := by
  intro offset
  obtain ⟨value, after, hdone, hvalue⟩ := h offset
  obtain ⟨stop, hstop⟩ := hnext value hvalue after
  refine ⟨stop, ?_⟩
  change Reader.bind p next ⟨text, offset⟩ = _
  rw [Reader.bind, hdone]
  exact hstop

/-- A reader that fails makes the whole sequence fail. -/
theorem Refuses.bind {p : Reader α} (h : p.Refuses text) (next : α → Reader β) :
    (p >>= next).Refuses text := by
  intro offset
  obtain ⟨stop, hstop⟩ := h offset
  refine ⟨stop, ?_⟩
  change Reader.bind p next ⟨text, offset⟩ = _
  rw [Reader.bind, hstop]

theorem Reads.orElse {p : Reader α} (h : p.Reads text rest P) (q : Reader α) :
    (p <|> q).Reads text rest P := by
  intro offset
  obtain ⟨value, next, hdone, hvalue⟩ := h offset
  refine ⟨value, next, ?_, hvalue⟩
  change Reader.orElse p (fun _ => q) ⟨text, offset⟩ = _
  rw [Reader.orElse, hdone]

/-- Where the first alternative fails the second one decides. -/
theorem Refuses.orElse_eq {p : Reader α} (h : p.Refuses text) (q : Reader α) (offset : Nat) :
    (p <|> q) ⟨text, offset⟩ = q ⟨text, offset⟩ := by
  obtain ⟨stop, hstop⟩ := h offset
  change Reader.orElse p (fun _ => q) ⟨text, offset⟩ = _
  rw [Reader.orElse, hstop]

theorem Refuses.orElse_reads {p q : Reader α} (hp : p.Refuses text) (hq : q.Reads text rest P) :
    (p <|> q).Reads text rest P := by
  intro offset
  rw [hp.orElse_eq]
  exact hq offset

theorem Refuses.orElse {p q : Reader α} (hp : p.Refuses text) (hq : q.Refuses text) :
    (p <|> q).Refuses text := by
  intro offset
  rw [hp.orElse_eq]
  exact hq offset

theorem Reads.optional {p : Reader α} (h : p.Reads text rest P) :
    (optional p).Reads text rest fun a => ∃ value, a = some value ∧ P value := by
  intro offset
  obtain ⟨value, next, hdone, hvalue⟩ := h offset
  exact ⟨some value, next, by rw [Reader.optional, hdone], value, rfl, hvalue⟩

theorem Refuses.optional {p : Reader α} (h : p.Refuses text) :
    (optional p).Reads text text fun a => a = none := by
  intro offset
  obtain ⟨stop, hstop⟩ := h offset
  exact ⟨none, offset, by rw [Reader.optional, hstop], rfl⟩

/-! ### Characters and words -/

/-- The rest of a text does not start with a character that satisfies `p`. -/
def stops (p : Char → Bool) : List Char → Bool
  | [] => true
  | c :: _ => !p c

theorem reads_satisfy {p : Char → Bool} {c : Char} (h : p c = true) :
    (satisfy p).Reads (c :: rest) rest fun a => a = c :=
  fun offset => ⟨c, offset + c.utf8Size, by rw [satisfy]; exact if_pos h, rfl⟩

theorem refuses_satisfy {p : Char → Bool} (h : stops p text = true) : (satisfy p).Refuses text := by
  intro offset
  refine ⟨offset, ?_⟩
  cases text with
  | nil => rfl
  | cons c cs =>
    have hc : ¬p c = true := by simpa [stops] using h
    rw [satisfy]
    exact if_neg hc

theorem reads_char (c : Char) : (char c).Reads (c :: rest) rest fun _ => True :=
  (reads_satisfy (decide_eq_true rfl)).bind fun _ _ => reads_pure trivial

theorem refuses_char {c : Char} (h : stops (· = c) text = true) : (char c).Refuses text :=
  (refuses_satisfy h).bind _

theorem exists_drop? : ∀ (word : List Char) (offset : Nat), ∃ next,
    Cursor.drop? word ⟨word ++ rest, offset⟩ = some ⟨rest, next⟩
  | [], offset => ⟨offset, rfl⟩
  | w :: ws, offset => by
    rw [List.cons_append, Cursor.drop?, if_pos rfl]
    exact exists_drop? ws _

/-- A word that the text does not begin with is not dropped. -/
theorem drop?_eq_none : ∀ {word text : List Char} {offset : Nat}, ¬word <+: text →
    Cursor.drop? word ⟨text, offset⟩ = none
  | [], text, _, h => absurd (List.nil_prefix) h
  | _ :: _, [], _, _ => rfl
  | w :: ws, c :: cs, offset, h => by
    rw [Cursor.drop?]
    split
    · rename_i heq
      subst heq
      exact drop?_eq_none fun hprefix => h ((List.prefix_cons_inj w).2 hprefix)
    · rfl

theorem reads_word (w : String) : (word w).Reads (w.toList ++ rest) rest fun _ => True := by
  intro offset
  obtain ⟨next, hnext⟩ := @exists_drop? rest w.toList offset
  exact ⟨(), next, by rw [word, hnext], trivial⟩

theorem refuses_word {w : String} (h : ¬w.toList <+: text) : (word w).Refuses text := by
  intro offset
  exact ⟨offset, by rw [word, drop?_eq_none h]⟩

/-- A run of characters ends where the next one does not belong to it. -/
theorem exists_span {p : Char → Bool} (hrest : stops p rest = true) : ∀ {taken : List Char}
    (offset : Nat), (∀ c ∈ taken, p c = true) →
    ∃ next, Cursor.span p (taken ++ rest) offset = (taken, ⟨rest, next⟩)
  | [], offset, _ => by
    refine ⟨offset, ?_⟩
    cases rest with
    | nil => rfl
    | cons c cs =>
      have hc : ¬p c = true := by simpa [stops] using hrest
      rw [List.nil_append, Cursor.span, if_neg hc]
  | c :: cs, offset, htaken => by
    rw [List.forall_mem_cons] at htaken
    obtain ⟨next, hnext⟩ := exists_span hrest (offset + c.utf8Size) htaken.2
    exact ⟨next, by rw [List.cons_append, Cursor.span, if_pos htaken.1, hnext]⟩

theorem reads_takeWhile {p : Char → Bool} {taken : List Char} (htaken : ∀ c ∈ taken, p c = true)
    (hrest : stops p rest = true) :
    (takeWhile p).Reads (taken ++ rest) rest fun a => a = taken := by
  intro offset
  obtain ⟨next, hnext⟩ := exists_span hrest offset htaken
  exact ⟨taken, next, by rw [takeWhile, hnext], rfl⟩

theorem reads_takeWhile1 {p : Char → Bool} {taken : List Char} (hne : taken ≠ [])
    (htaken : ∀ c ∈ taken, p c = true) (hrest : stops p rest = true) :
    (takeWhile1 p).Reads (taken ++ rest) rest fun a => a = taken := by
  obtain ⟨c, cs, rfl⟩ := List.exists_cons_of_ne_nil hne
  rw [List.forall_mem_cons] at htaken
  refine (reads_satisfy htaken.1).bind fun first hfirst => ?_
  refine (reads_takeWhile htaken.2 hrest).bind fun more hmore => reads_pure ?_
  rw [hfirst, hmore]

/-! ### What may follow -/

/-- The text does not start with blanks or a comment. -/
def isSolid : List Char → Bool :=
  stops fun c => isBlank c || c = '/'

/-- No name, number or type goes on into the text. -/
def isApart : List Char → Bool :=
  stops fun c => isNamePart c || c = '.' || c = '('

/-- A stronger condition ends a run no later than a weaker one. -/
theorem stops_of_imp {p q : Char → Bool} (hpq : ∀ c, q c = true → p c = true) {text : List Char}
    (h : stops p text = true) : stops q text = true := by
  cases text with
  | nil => rfl
  | cons c cs =>
    simp only [stops, Bool.not_eq_true'] at h ⊢
    exact Bool.eq_false_iff.2 fun hq => Bool.eq_false_iff.1 h (hpq c hq)

theorem stops_namePart_of_isApart (h : isApart text = true) : stops isNamePart text = true :=
  stops_of_imp (fun c hc => by rw [hc]; rfl) h

theorem stops_char_of_isApart {c : Char} (hc : (isNamePart c || c = '.' || c = '(') = true)
    (h : isApart text = true) : stops (· = c) text = true :=
  stops_of_imp (fun d hd => by rw [of_decide_eq_true hd]; exact hc) h

theorem isNamePart_of_isDigit {c : Char} (h : c.isDigit = true) : isNamePart c = true := by
  rw [isNamePart, Char.isAlphanum, h, Bool.or_true, Bool.true_or]

theorem stops_digit_of_isApart (h : isApart text = true) : stops Char.isDigit text = true :=
  stops_of_imp (fun c hc => by rw [isNamePart_of_isDigit hc]; rfl) h

theorem isNamePart_of_isNameStart {c : Char} (h : isNameStart c = true) : isNamePart c = true := by
  simp only [isNameStart, isNamePart, Char.isAlphanum, Bool.or_eq_true] at h ⊢
  tauto

/-- A letter is not a digit. -/
theorem isDigit_of_isNameStart {c : Char} (h : isNameStart c = true) : c.isDigit = false := by
  change ((decide ('A'.val ≤ c.val ∧ c.val ≤ 'Z'.val) ||
    (decide ('a'.val ≤ c.val) && decide (c.val ≤ 'z'.val))) || decide (c = '_')) = true at h
  simp only [Bool.or_eq_true, Bool.and_eq_true, decide_eq_true_eq] at h
  have hlt : 57 < c.val.toNat := by
    rcases h with (h | h) | h
    · exact Nat.lt_of_lt_of_le (by decide) (UInt32.le_iff_toNat_le.1 h.1)
    · exact Nat.lt_of_lt_of_le (by decide) (UInt32.le_iff_toNat_le.1 h.1)
    · rw [h]
      decide
  rw [Char.isDigit, Bool.and_eq_false_iff]
  exact Or.inr (decide_eq_false fun hle => absurd (UInt32.le_iff_toNat_le.1 hle) (Nat.not_le.2 hlt))

/-- What is part of a name is none of the other characters of the grammar. -/
theorem ne_of_isNamePart {c d : Char} (h : isNamePart c = true) (hd : isNamePart d = false) :
    c ≠ d := fun heq => by
  rw [heq, hd] at h
  exact Bool.false_ne_true h

theorem stops_of_isNamePart {c d : Char} (h : isNamePart c = true) (hd : isNamePart d = false) :
    stops (· = d) (c :: text) = true := by
  simp [stops, ne_of_isNamePart h hd]

theorem isSolid_of_isNamePart {c : Char} (h : isNamePart c = true) : isSolid (c :: text) = true := by
  have hne : ∀ d, isNamePart d = false → c ≠ d := fun d => ne_of_isNamePart h
  simp [isSolid, stops, isBlank, hne ' ' rfl, hne '\t' rfl, hne '\n' rfl, hne '\x0c' rfl, hne '\r' rfl,
    hne '/' rfl]

/-! ### Blanks -/

/-- Only blanks. -/
def Blank (text : List Char) : Prop :=
  ∀ c ∈ text, isBlank c = true

theorem blank_nil : Blank [] := fun _ h => nomatch h

theorem blank_cons {c : Char} (hc : isBlank c = true) {text : List Char} (h : Blank text) :
    Blank (c :: text) :=
  List.forall_mem_cons.2 ⟨hc, h⟩

theorem skipBlanks_of_isSolid {offset : Nat} (h : isSolid rest = true) :
    skipBlanks rest offset = ⟨rest, offset⟩ := by
  rw [skipBlanks.eq_def]
  split
  · rfl
  · exact absurd h (by simp [isSolid, stops])
  · rename_i c cs _
    have hc : ¬isBlank c = true := fun hc => by simp [isSolid, stops, hc] at h
    rw [if_neg hc]

/-- Blanks are skipped up to the first character that is not one. -/
theorem exists_skipBlanks (hrest : isSolid rest = true) : ∀ {blanks : List Char} (offset : Nat),
    Blank blanks → ∃ next, skipBlanks (blanks ++ rest) offset = ⟨rest, next⟩
  | [], offset, _ => ⟨offset, skipBlanks_of_isSolid hrest⟩
  | c :: cs, offset, hblank => by
    rw [Blank, List.forall_mem_cons] at hblank
    obtain ⟨next, hnext⟩ := exists_skipBlanks hrest (offset + c.utf8Size) hblank.2
    refine ⟨next, ?_⟩
    rw [List.cons_append, skipBlanks.eq_def]
    split
    · rename_i heq
      exact nomatch heq
    · rename_i heq
      obtain ⟨rfl, -⟩ := List.cons.inj heq
      exact nomatch hblank.1
    · rename_i heq
      obtain ⟨rfl, rfl⟩ := List.cons.inj heq
      rw [if_pos hblank.1, hnext]

theorem reads_blanks {skipped : List Char} (hskipped : Blank skipped) (hrest : isSolid rest = true) :
    blanks.Reads (skipped ++ rest) rest fun _ => True := by
  intro offset
  obtain ⟨next, hnext⟩ := exists_skipBlanks hrest offset hskipped
  exact ⟨(), next, by rw [blanks, hnext], trivial⟩

theorem reads_no_blanks (hrest : isSolid rest = true) : blanks.Reads rest rest fun _ => True :=
  reads_blanks blank_nil hrest

theorem reads_space (hrest : isSolid rest = true) : blanks.Reads (' ' :: rest) rest fun _ => True :=
  reads_blanks (blank_cons rfl blank_nil) hrest

/-- A part with blanks around it. -/
theorem Reads.padded {p : Reader α} {before after : List Char} (hbefore : Blank before)
    (hsolid : isSolid text = true) (h : p.Reads text (after ++ rest) P) (hafter : Blank after)
    (hrest : isSolid rest = true) : (padded p).Reads (before ++ text) rest P :=
  (reads_blanks hbefore hsolid).bind fun _ _ => h.bind fun _ hvalue =>
    (reads_blanks hafter hrest).bind fun _ _ => reads_pure hvalue

theorem Refuses.padded {p : Reader α} {before : List Char} (hbefore : Blank before)
    (hsolid : isSolid text = true) (h : p.Refuses text) : (padded p).Refuses (before ++ text) :=
  (reads_blanks hbefore hsolid).bind_refuses fun _ _ => h.bind _

/-- A part between brackets. -/
theorem Reads.bracketed {p : Reader α} {left right : Char} (hsolid : isSolid text = true)
    (h : p.Reads text (right :: rest) P) (hright : isSolid (right :: rest) = true) :
    (bracketed left p right).Reads (left :: text) rest P :=
  (reads_char left).bind fun _ _ => (reads_no_blanks hsolid).bind fun _ _ =>
    h.bind fun _ hvalue => (reads_no_blanks hright).bind fun _ _ =>
      (reads_char right).bind fun _ _ => reads_pure hvalue

/-- An item, and then those that each come after a comma. -/
theorem Reads.separated1 {p : Reader α} {Q : List α → Prop} (h : p.Reads text middle P)
    (hmore : (afterCommas p middle).Reads middle rest Q) :
    (separated1 p).Reads text rest fun as => ∃ a more, as = a :: more ∧ P a ∧ Q more := by
  have hrest : Reads (fun cursor => afterCommas p cursor.rest cursor) middle rest Q := hmore
  exact h.bind fun a ha => hrest.bind fun more hq => reads_pure ⟨a, more, rfl, ha, hq⟩

theorem Reads.separated {p : Reader α} {Q : List α → Prop} (h : (Reader.separated1 p).Reads text rest Q) :
    (separated p).Reads text rest Q := by
  refine h.optional.bind fun o ho => ?_
  obtain ⟨as, rfl, has⟩ := ho
  exact reads_pure has

/-- Where the first item is refused, there are none. -/
theorem Refuses.separated {p : Reader α} (h : p.Refuses text) :
    (separated p).Reads text text fun as => as = [] := by
  refine Reads.bind (Refuses.optional (h.bind _)) fun o ho => ?_
  subst ho
  exact reads_pure rfl

/-! ### Names -/

end Reader

/-- A letter or underscore, then letters, digits and underscores. -/
def IsName (text : String) : Prop :=
  ∃ first more, text.toList = first :: more ∧ isNameStart first = true ∧
    ∀ c ∈ more, isNamePart c = true

/-- Letters, digits and underscores, and at least one of them. -/
def IsValueName (text : String) : Prop :=
  text.toList ≠ [] ∧ ∀ c ∈ text.toList, isNamePart c = true

theorem IsName.isNamePart {name : String} (h : IsName name) :
    ∀ c ∈ name.toList, isNamePart c = true := by
  obtain ⟨first, more, htext, hfirst, hmore⟩ := h
  rw [htext]
  exact List.forall_mem_cons.2 ⟨Reader.isNamePart_of_isNameStart hfirst, hmore⟩

theorem isValueName_repr (n : Nat) : IsValueName n.repr := by
  rw [IsValueName, Nat.repr_eq_ofList_toDigits, String.toList_ofList]
  exact ⟨Nat.toDigits_ne_nil, fun c hc => Reader.isNamePart_of_isDigit
    (Nat.isDigit_of_mem_toDigits (by decide) (by decide) hc)⟩

namespace Reader

variable {α : Type} {P : α → Prop} {text rest : List Char}

/-- A name is read to its last character if none follows that could be part of it. -/
theorem reads_name {s : String} (hs : IsName s) (hrest : stops isNamePart rest = true) :
    name.Reads (s.toList ++ rest) rest fun a => a = s := by
  obtain ⟨first, more, htext, hfirst, hmore⟩ := hs
  rw [htext]
  refine (reads_satisfy hfirst).bind fun c hc => (reads_takeWhile hmore hrest).bind fun cs hcs => ?_
  refine reads_pure ?_
  rw [hc, hcs, ← htext, String.ofList_toList]

theorem refuses_name (h : stops isNameStart text = true) : name.Refuses text :=
  (refuses_satisfy h).bind _

/-- The percent sign is not part of the name. -/
theorem reads_mention {s : String} (hs : IsValueName s) (hrest : stops isNamePart rest = true) :
    mention.Reads ('%' :: (s.toList ++ rest)) rest fun m => m.name = s := by
  refine (reads_char '%').bind fun _ _ => ?_
  have hoffset : offset.Reads (s.toList ++ rest) (s.toList ++ rest) fun _ => True :=
    fun n => ⟨n, n, rfl, trivial⟩
  refine hoffset.bind fun _ _ => (reads_takeWhile1 hs.1 hs.2 hrest).bind fun cs hcs => reads_pure ?_
  rw [hcs, String.ofList_toList]

theorem refuses_mention (h : stops (· = '%') text = true) : mention.Refuses text :=
  (refuses_char h).bind _

theorem reads_qualified {d n : String} (hd : IsName d) (hn : IsName n)
    (hrest : stops isNamePart rest = true) :
    qualified.Reads (d.toList ++ '.' :: (n.toList ++ rest)) rest fun op => op = ⟨d, n⟩ := by
  refine (reads_name hd rfl).bind fun dialect hdialect => (reads_char '.').bind fun _ _ => ?_
  refine (reads_name hn hrest).bind fun name hname => reads_pure ?_
  rw [hdialect, hname]

/-- A name alone is no qualified name. -/
theorem refuses_qualified_of_name {s : String} (hs : IsName s) (hrest : stops isNamePart rest = true)
    (hpoint : stops (· = '.') rest = true) : qualified.Refuses (s.toList ++ rest) :=
  (reads_name hs hrest).bind_refuses fun _ _ => (refuses_char hpoint).bind _

theorem refuses_qualified (h : stops isNameStart text = true) : qualified.Refuses text :=
  (refuses_name h).bind _

/-! ### Numbers -/

/-- The digits of a positive number do not begin with a zero. -/
theorem exists_toDigits_cons {n : Nat} (h : 0 < n) : ∃ c cs, Nat.toDigits 10 n = c :: cs ∧ c ≠ '0' := by
  induction n using Nat.strong_induction_on with
  | _ n ih =>
    rcases Nat.lt_or_ge n 10 with hlt | hge
    · exact ⟨_, [], Nat.toDigits_of_lt_base hlt, fun heq =>
        Nat.pos_iff_ne_zero.1 h (Nat.digitChar_eq_zero.1 heq)⟩
    · obtain ⟨c, cs, hdigits, hc⟩ := ih (n / 10) (by omega) (by omega)
      refine ⟨c, cs ++ [(n % 10).digitChar], ?_, hc⟩
      rw [Nat.toDigits_of_base_le (by decide) hge, hdigits, List.cons_append]

theorem isDigit_of_toDigits_eq {n : Nat} {c : Char} {cs : List Char}
    (h : Nat.toDigits 10 n = c :: cs) : c.isDigit = true ∧ ∀ d ∈ cs, d.isDigit = true := by
  have hall : ∀ d ∈ Nat.toDigits 10 n, d.isDigit = true := fun d =>
    Nat.isDigit_of_mem_toDigits (by decide) (by decide)
  rw [h] at hall
  exact List.forall_mem_cons.1 hall

/-- Digits with no zero at the front, unless it is the only digit. -/
def IsNumeral (digits : List Char) : Prop :=
  digits ≠ [] ∧ (∀ c ∈ digits, c.isDigit = true) ∧ (digits.head? = some '0' → digits = ['0'])

/-- The digits of a number are a numeral: without leading zeros, or the single zero. -/
theorem isNumeral_toDigits (n : Nat) : IsNumeral (Nat.toDigits 10 n) := by
  rcases Nat.eq_zero_or_pos n with rfl | hpos
  · exact ⟨List.cons_ne_nil _ _, List.all_eq_true.1 rfl, fun _ => rfl⟩
  · obtain ⟨c, cs, hdigits, hc⟩ := exists_toDigits_cons hpos
    rw [hdigits]
    refine ⟨List.cons_ne_nil c cs, List.forall_mem_cons.2 (isDigit_of_toDigits_eq hdigits), ?_⟩
    intro hzero
    exact absurd (Option.some.inj hzero) hc

/-- A numeral stands for the number that its digits spell. -/
theorem reads_digits {digits : List Char} (h : IsNumeral digits) (hrest : stops Char.isDigit rest = true) :
    numeral.Reads (digits ++ rest) rest fun a => a = Decimal.ofDigitList digits := by
  obtain ⟨hne, hdigits, hzero⟩ := h
  obtain ⟨c, cs, rfl⟩ := List.exists_cons_of_ne_nil hne
  by_cases hc : c = '0'
  · subst hc
    rw [hzero rfl]
    refine Refuses.orElse_reads ((refuses_satisfy rfl).bind _) ?_
    exact (reads_char '0').bind fun _ _ => reads_pure rfl
  · obtain ⟨hfirst, hmore⟩ := List.forall_mem_cons.1 hdigits
    refine Reads.orElse ?_ _
    have hsatisfy : (c.isDigit && decide (c ≠ '0')) = true := by
      rw [hfirst, decide_eq_true hc]
      rfl
    refine (reads_satisfy hsatisfy).bind fun d hd => (reads_takeWhile hmore hrest).bind fun ds hds => ?_
    refine reads_pure ?_
    rw [hd, hds]

theorem reads_numeral (n : Nat) (hrest : stops Char.isDigit rest = true) :
    numeral.Reads (n.repr.toList ++ rest) rest fun a => a = n := by
  rw [Nat.repr_eq_ofList_toDigits, String.toList_ofList]
  refine (reads_digits (isNumeral_toDigits n) hrest).mono fun a ha => ?_
  rw [ha, Decimal.ofDigitList_toDigits]

/-- A number starts with a minus sign or a digit. -/
theorem minus_of_digit {c : Char} (hc : c.isDigit = true) :
    minus.Reads (c :: text) (c :: text) fun a => a = false := by
  have hstops : stops (· = '-') (c :: text) = true :=
    stops_of_isNamePart (isNamePart_of_isDigit hc) rfl
  refine (refuses_char hstops).optional.bind fun sign hsign => reads_pure ?_
  rw [hsign]
  rfl

theorem minus_of_sign : minus.Reads ('-' :: text) text fun a => a = true := by
  refine (reads_char '-').optional.bind fun sign hsign => reads_pure ?_
  obtain ⟨_, rfl, -⟩ := hsign
  rfl

theorem exists_repr_cons (n : Nat) : ∃ c cs, n.repr.toList = c :: cs ∧ c.isDigit = true ∧
    ∀ d ∈ cs, d.isDigit = true := by
  rw [Nat.repr_eq_ofList_toDigits, String.toList_ofList]
  obtain ⟨c, cs, hdigits⟩ := List.exists_cons_of_ne_nil (Nat.toDigits_ne_nil (n := n) (b := 10))
  exact ⟨c, cs, hdigits, isDigit_of_toDigits_eq hdigits⟩

theorem minus_of_repr (n : Nat) :
    minus.Reads (n.repr.toList ++ text) (n.repr.toList ++ text) fun a => a = false := by
  obtain ⟨c, cs, hrepr, hc, -⟩ := exists_repr_cons n
  rw [hrepr]
  exact minus_of_digit hc

/-- The sign tells which half of the 64 bits is meant. -/
theorem reads_integer (bits : UInt64) (hrest : stops Char.isDigit rest = true) :
    integer.Reads ((signedText bits).toList ++ rest) rest fun a => a = bits := by
  have hlt := bits.toNat_lt_size
  rw [signedText]
  split
  · rename_i hsmall
    refine (minus_of_repr _).bind fun sign hsign => (reads_numeral _ hrest).bind fun n hn => ?_
    subst hsign hn
    rw [if_pos (by simp [hlt])]
    refine reads_pure ?_
    rw [Nat.toUInt64_eq, UInt64.ofNat_toNat]
  · rename_i hlarge
    rw [String.toList_append, List.append_assoc]
    refine minus_of_sign.bind fun sign hsign => (reads_numeral _ hrest).bind fun n hn => ?_
    subst hsign hn
    have hback : UInt64.size - (UInt64.size - bits.toNat) = bits.toNat := by omega
    rw [if_neg (by simp), if_pos (by simp; omega), hback]
    refine reads_pure ?_
    rw [Nat.toUInt64_eq, UInt64.ofNat_toNat]

/-- A number without a point is no float. -/
theorem refuses_float_of_digits (n : Nat) (hdigit : stops Char.isDigit rest = true)
    (hpoint : stops (· = '.') rest = true) (next : List Char → List Char → Reader UInt64) :
    Refuses (do
      let whole ← takeWhile1 Char.isDigit
      char '.'
      let fraction ← takeWhile1 Char.isDigit
      next whole fraction) (n.repr.toList ++ rest) := by
  obtain ⟨c, cs, hrepr, hc, hcs⟩ := exists_repr_cons n
  rw [hrepr]
  refine (reads_takeWhile1 (List.cons_ne_nil c cs) (List.forall_mem_cons.2 ⟨hc, hcs⟩)
    hdigit).bind_refuses fun _ _ => ?_
  exact (refuses_char hpoint).bind _

/-- An integer has no point, so it is not read as a float. -/
theorem refuses_float_of_integer (bits : UInt64) (hdigit : stops Char.isDigit rest = true)
    (hpoint : stops (· = '.') rest = true) :
    float.Refuses ((signedText bits).toList ++ rest) := by
  rw [signedText]
  split
  · exact (minus_of_repr _).bind_refuses fun _ _ => refuses_float_of_digits _ hdigit hpoint _
  · rw [String.toList_append, List.append_assoc]
    exact minus_of_sign.bind_refuses fun _ _ => refuses_float_of_digits _ hdigit hpoint _

/-- A finite float is read back bit by bit, since its digits stand for a decimal that is nearest to it. -/
theorem reads_float {bits : UInt64} (hfinite : Binary64.IsFinite bits)
    (hrest : isApart rest = true) :
    float.Reads ((Binary64.text bits).toList ++ rest) rest fun a => a = bits := by
  obtain ⟨whole, fraction, htext, ⟨hwne, hwhole⟩, ⟨hfne, hfraction⟩, hbits⟩ :=
    Binary64.exists_text hfinite
  have hsign : minus.Reads ((Binary64.text bits).toList ++ rest)
      (whole ++ '.' :: (fraction ++ rest)) fun a => a = Binary64.isNegative bits := by
    rw [htext]
    cases Binary64.isNegative bits with
    | true =>
      simp only [if_true, List.append_assoc, List.cons_append, List.nil_append]
      exact minus_of_sign
    | false =>
      obtain ⟨c, cs, rfl⟩ := List.exists_cons_of_ne_nil hwne
      simp only [Bool.false_eq_true, if_false, List.append_assoc, List.cons_append, List.nil_append]
      exact minus_of_digit (hwhole c List.mem_cons_self)
  -- What follows a number does not continue a name, and the letter of an exponent would.
  have hexponent : exponent.Refuses rest := by
    refine (refuses_satisfy ?_).bind _
    refine stops_of_imp (fun c hc => ?_) (stops_namePart_of_isApart hrest)
    rcases Bool.or_eq_true_iff.1 hc with hc | hc <;> rw [of_decide_eq_true hc] <;> rfl
  refine hsign.bind fun negative hnegative => ?_
  refine (reads_takeWhile1 hwne hwhole rfl).bind fun w hw => (reads_char '.').bind fun _ _ => ?_
  refine (reads_takeWhile1 hfne hfraction (stops_digit_of_isApart hrest)).bind fun f hf => ?_
  refine hexponent.optional.bind fun e he => reads_pure ?_
  rw [hnegative, hw, hf, he]
  exact hbits

/-- What starts with neither a minus sign nor a digit is no number. -/
theorem minus_of_stops (h : stops (· = '-') text = true) :
    minus.Reads text text fun a => a = false := by
  refine (refuses_char h).optional.bind fun sign hsign => reads_pure ?_
  rw [hsign]
  rfl

theorem refuses_float (hminus : stops (· = '-') text = true)
    (hdigit : stops Char.isDigit text = true) : float.Refuses text :=
  (minus_of_stops hminus).bind_refuses fun _ _ =>
    Refuses.bind (Refuses.bind (refuses_satisfy hdigit) _) _

theorem refuses_integer (hminus : stops (· = '-') text = true)
    (hdigit : stops Char.isDigit text = true) : integer.Refuses text := by
  refine (minus_of_stops hminus).bind_refuses fun _ _ => Refuses.bind ?_ _
  refine Refuses.orElse (Refuses.bind (refuses_satisfy ?_) _) ((refuses_char ?_).bind _)
  · exact stops_of_imp (fun c hc => (Bool.and_eq_true_iff.1 hc).1) hdigit
  · exact stops_of_imp (fun c hc => by rw [of_decide_eq_true hc]; rfl) hdigit

/-! ### Quoted strings -/

theorem unquote_escaped {c : Char} {offset : Nat} {unread : List Char} {next : Cursor}
    (h : unquote text (offset + 1 + c.utf8Size) = .done unread next) :
    unquote ('\\' :: c :: text) offset = .done (unescape c ++ unread) next := by
  rw [unquote, h]

/-- Other characters stand for themselves. -/
theorem unquote_plain {c : Char} {offset : Nat} {unread : List Char} {next : Cursor}
    (hescape : c ≠ '\\') (hquote : c ≠ '"')
    (h : unquote text (offset + c.utf8Size) = .done unread next) :
    unquote (c :: text) offset = .done (c :: unread) next := by
  rw [unquote.eq_def]
  split
  · rename_i heq
    exact nomatch heq
  · rename_i heq
    exact absurd (List.cons.inj heq).1 hescape
  · rename_i heq
    exact absurd (List.cons.inj heq).1 hescape
  · rename_i heq
    obtain ⟨rfl, rfl⟩ := List.cons.inj heq
    rw [if_neg hquote, h]

/-- A character is written as itself, or as a backslash and what stands for it after one. -/
theorem escape_cases (c : Char) : (∃ d, escape c = ['\\', d] ∧ unescape d = [c]) ∨
    (escape c = [c] ∧ c ≠ '\\' ∧ c ≠ '"') := by
  rw [escape]
  split
  · rename_i hc
    exact Or.inl ⟨'\\', rfl, congrArg (fun x => [x]) hc.symm⟩
  · rename_i hbackslash
    split
    · rename_i hc
      exact Or.inl ⟨'"', rfl, congrArg (fun x => [x]) hc.symm⟩
    · rename_i hquote
      split
      · rename_i hc
        exact Or.inl ⟨'n', rfl, congrArg (fun x => [x]) hc.symm⟩
      · split
        · rename_i hc
          exact Or.inl ⟨'t', rfl, congrArg (fun x => [x]) hc.symm⟩
        · exact Or.inr ⟨rfl, hbackslash, hquote⟩

/-- What was escaped is found again, up to the closing quote and not beyond it. -/
theorem exists_unquote : ∀ (cs : List Char) (offset : Nat), ∃ next,
    unquote (cs.flatMap escape ++ '"' :: rest) offset = .done cs ⟨rest, next⟩
  | [], offset => ⟨offset + 1, rfl⟩
  | c :: cs, offset => by
    rw [List.flatMap_cons, List.append_assoc]
    rcases escape_cases c with ⟨d, hescape, hd⟩ | ⟨hescape, hbackslash, hquote⟩
    · obtain ⟨next, hnext⟩ := exists_unquote cs (offset + 1 + d.utf8Size)
      have hread := unquote_escaped hnext
      rw [hd] at hread
      exact ⟨next, hescape ▸ hread⟩
    · obtain ⟨next, hnext⟩ := exists_unquote cs (offset + c.utf8Size)
      exact ⟨next, hescape ▸ unquote_plain hbackslash hquote hnext⟩

/-- A string is read back from its quotes, whatever characters are in it. -/
theorem reads_quoted (s : String) :
    quoted.Reads ((quote s).toList ++ rest) rest fun a => a = s := by
  have htext : (quote s).toList ++ rest = '"' :: (s.toList.flatMap escape ++ '"' :: rest) := by
    simp [quote, String.toList_append, String.toList_ofList]
  rw [htext]
  refine (reads_char '"').bind fun _ _ => ?_
  have hunquote : Reads (fun cursor => unquote cursor.rest cursor.offset)
      (s.toList.flatMap escape ++ '"' :: rest) rest fun a => a = s.toList := by
    intro offset
    obtain ⟨next, hnext⟩ := @exists_unquote rest s.toList offset
    exact ⟨s.toList, next, hnext, rfl⟩
  refine hunquote.bind fun cs hcs => reads_pure ?_
  rw [hcs, String.ofList_toList]

theorem refuses_quoted (h : stops (· = '"') text = true) : quoted.Refuses text :=
  (refuses_char h).bind _

end Reader

end Unguard.Text
