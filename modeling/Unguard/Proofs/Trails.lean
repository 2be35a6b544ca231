import Unguard.Proofs.Lexemes
import Unguard.Text.Grammar

/-!
# Following a reader

What a reader gives, which tokens it passes and where it stands are all shown in the same way, part
after part along the grammar.  A `Trail` says what is kept of the way through a text, and
`Reader.Follows` relates what a reader gives to what it leaves on the trail.  Sequences, choices, lists
and brackets are followed once, for every trail with the laws of `Trail`.

No value stands inside a name, a number, a type, a constant or an attribute.  These parts are followed
once as well: what they leave on a trail does not count (`Reader.Quiet`).

Where nothing is kept of the way, only what a reader gives matters (`Reader.Gives`).
-/

namespace Unguard.Text

/-! ### Outcomes -/

section Outcomes

variable {α β : Type} {D D' : α → Cursor → Prop} {F F' : Nat → Prop}

/-- A value and the place after it are in the relation `D`, and the offset of a failure is in `F`. -/
def Outcome.Meets (D : α → Cursor → Prop) (F : Nat → Prop) : Outcome α → Prop
  | .done value next => D value next
  | .failed offset => F offset

/-- A weaker relation is met where a stronger one is. -/
theorem Outcome.Meets.mono {x : Outcome α} (h : x.Meets D F) (hdone : ∀ a next, D a next → D' a next)
    (hfailed : ∀ offset, F offset → F' offset) : x.Meets D' F' := by
  cases x with
  | done a next => exact hdone a next h
  | failed offset => exact hfailed offset h

namespace Reader

/-- A failure of the first part is a failure of the sequence. -/
theorem meets_bind {p : Reader α} {next : α → Reader β} {D : β → Cursor → Prop} {cursor : Cursor} :
    ((p >>= next) cursor).Meets D F ↔
      (p cursor).Meets (fun a middle => (next a middle).Meets D F) F := by
  change (Reader.bind p next cursor).Meets D F ↔ _
  rw [Reader.bind]
  cases p cursor <;> rfl

/-- The second alternative starts where the first one did. -/
theorem meets_orElse {p q : Reader α} {cursor : Cursor} :
    ((p <|> q) cursor).Meets D F ↔ (p cursor).Meets D fun _ => (q cursor).Meets D F := by
  change (Reader.orElse p (fun _ => q) cursor).Meets D F ↔ _
  rw [Reader.orElse]
  cases p cursor <;> rfl

/-- A failure is undone. -/
theorem meets_optional {p : Reader α} {D : Option α → Cursor → Prop} {cursor : Cursor} :
    (optional p cursor).Meets D F ↔
      (p cursor).Meets (fun a next => D (some a) next) fun _ => D none cursor := by
  rw [Reader.optional]
  cases p cursor <;> rfl

end Reader

end Outcomes

/-! ### Trails -/

/-- No value, quote or comment starts with this character. -/
def isPlain (c : Char) : Bool :=
  c ≠ '%' && c ≠ '"' && c ≠ '/'

theorem isPlain_of_isNamePart {c : Char} (hc : isNamePart c = true) : isPlain c = true := by
  simp only [isPlain, Bool.and_eq_true, decide_eq_true_eq]
  exact ⟨⟨Reader.ne_of_isNamePart hc (by decide), Reader.ne_of_isNamePart hc (by decide)⟩,
    Reader.ne_of_isNamePart hc (by decide)⟩

/-- What is kept of the way through a text.  The laws say how single characters, blanks and quoted
strings are passed; all that is said of larger parts comes from them. -/
structure Trail (τ : Type) where
  /-- The cursor can be reached, and `ts` is kept of the way to it. -/
  Reaches : (ts : List τ) → Cursor → Prop
  /-- A reader can fail at the offset. -/
  Stops : Nat → Prop
  /-- The characters that are passed one by one. -/
  Plain : Char → Prop
  /-- What is kept of a character that is passed. -/
  sign : Char → List τ
  /-- What does not count. -/
  Idle : List τ → Prop
  stops_of_reaches : ∀ {ts cursor}, Reaches ts cursor → Stops cursor.offset
  plain_of_isPlain : ∀ {c}, isPlain c = true → Plain c
  reaches_cons : ∀ {ts c rest offset}, Plain c → Reaches ts ⟨c :: rest, offset⟩ →
    Reaches (ts ++ sign c) ⟨rest, offset + c.utf8Size⟩
  reaches_blanks : ∀ {ts rest offset}, Reaches ts ⟨rest, offset⟩ → Reaches ts (skipBlanks rest offset)
  meets_unquote : ∀ {ts rest offset}, Reaches ts ⟨'"' :: rest, offset⟩ →
    (unquote rest (offset + '"'.utf8Size)).Meets (fun _ next => Reaches ts next) Stops
  idle_nil : Idle []
  idle_append : ∀ {ts us}, Idle ts → Idle us → Idle (ts ++ us)
  idle_sign : ∀ {c}, isPlain c = true → Idle (sign c)

/-- Plain characters one after another leave nothing that counts. -/
theorem Trail.idle_flatMap {τ : Type} (w : Trail τ) {cs : List Char} (h : ∀ c ∈ cs, isPlain c = true) :
    w.Idle (cs.flatMap w.sign) := by
  induction cs with
  | nil => exact w.idle_nil
  | cons c cs ih =>
    rw [List.forall_mem_cons] at h
    exact w.idle_append (w.idle_sign h.1) (ih h.2)

namespace Reader

variable {α β τ : Type} {w : Trail τ} {P : α → List τ → Prop} {Q : β → List τ → Prop}

/-- Wherever the reader starts on the trail, it stays on it, and what it gives is in the relation `P` to
what it adds. -/
def Follows (w : Trail τ) (p : Reader α) (P : α → List τ → Prop) : Prop :=
  ∀ ts cursor, w.Reaches ts cursor →
    (p cursor).Meets (fun a next => ∃ us, w.Reaches (ts ++ us) next ∧ P a us) w.Stops

/-- Nothing that the reader adds to the trail counts. -/
def Quiet (w : Trail τ) (p : Reader α) : Prop :=
  p.Follows w fun _ ts => w.Idle ts

theorem Follows.of_done {p : Reader α} {ts : List τ} {cursor next : Cursor} {a : α}
    (hp : p.Follows w P) (hts : w.Reaches ts cursor) (hdone : p cursor = .done a next) :
    ∃ us, w.Reaches (ts ++ us) next ∧ P a us := by
  have hmeets := hp ts cursor hts
  rwa [hdone] at hmeets

theorem Follows.of_failed {p : Reader α} {ts : List τ} {cursor : Cursor} {stop : Nat}
    (hp : p.Follows w P) (hts : w.Reaches ts cursor) (hfailed : p cursor = .failed stop) :
    w.Stops stop := by
  have hmeets := hp ts cursor hts
  rwa [hfailed] at hmeets

theorem Follows.mono {p : Reader α} {P' : α → List τ → Prop} (hp : p.Follows w P)
    (h : ∀ a ts, P a ts → P' a ts) : p.Follows w P' := by
  intro ts cursor hts
  refine (hp ts cursor hts).mono ?_ fun _ hstops => hstops
  rintro a next ⟨us, hus, ha⟩
  exact ⟨us, hus, h a us ha⟩

theorem follows_pure {a : α} (h : P a []) : Follows w (Pure.pure a : Reader α) P := by
  intro ts cursor hts
  exact ⟨[], by rwa [List.append_nil], h⟩

theorem follows_fail : Follows w (fail : Reader α) P :=
  fun _ _ hts => w.stops_of_reaches hts

/-- One reader after another adds to the trail what the first one adds and then what the second one
adds. -/
theorem Follows.bind {p : Reader α} {next : α → Reader β} (hp : p.Follows w P)
    (h : ∀ a ts, P a ts → (next a).Follows w fun b us => Q b (ts ++ us)) :
    (p >>= next).Follows w Q := by
  intro ts cursor hts
  refine meets_bind.2 ((hp ts cursor hts).mono ?_ fun _ hstops => hstops)
  rintro a middle ⟨us, hmiddle, ha⟩
  refine (h a us ha _ middle hmiddle).mono ?_ fun _ hstops => hstops
  rintro b after ⟨vs, hafter, hb⟩
  exact ⟨us ++ vs, by rwa [← List.append_assoc], hb⟩

/-- Nothing that the first alternative has passed is kept when it fails. -/
theorem Follows.orElse {p q : Reader α} (hp : p.Follows w P) (hq : q.Follows w P) :
    (p <|> q).Follows w P := by
  intro ts cursor hts
  exact meets_orElse.2 ((hp ts cursor hts).mono (fun _ _ h => h) fun _ _ => hq ts cursor hts)

/-- What is not there adds nothing to the trail. -/
theorem Follows.optional {p : Reader α} (hp : p.Follows w P) : (optional p).Follows w fun o ts =>
    (o = none ∧ ts = []) ∨ ∃ a, o = some a ∧ P a ts := by
  intro ts cursor hts
  refine meets_optional.2 ((hp ts cursor hts).mono ?_ fun _ _ => ?_)
  · rintro a next ⟨us, hnext, ha⟩
    exact ⟨us, hnext, Or.inr ⟨a, rfl, ha⟩⟩
  · exact ⟨[], by rwa [List.append_nil], Or.inl ⟨rfl, rfl⟩⟩

/-- A repetition is bounded by the rest of the text. -/
theorem follows_rest {p : List Char → Reader α} (h : ∀ budget, (p budget).Follows w P) :
    Follows w (fun cursor => p cursor.rest cursor) P :=
  fun ts cursor => h cursor.rest ts cursor

theorem quiet_pure (a : α) : Quiet w (Pure.pure a : Reader α) :=
  follows_pure w.idle_nil

/-- Parts that add nothing that counts, one after another. -/
theorem Quiet.seq {p : Reader α} {next : α → Reader β} (hp : p.Quiet w)
    (h : ∀ a, (next a).Quiet w) : (p >>= next).Quiet w :=
  Follows.bind hp fun a _ hts => (h a).mono fun _ _ hus => w.idle_append hts hus

theorem Quiet.optional {p : Reader α} (hp : p.Quiet w) : (optional p).Quiet w := by
  refine (Follows.optional hp).mono fun o ts h => ?_
  rcases h with ⟨-, rfl⟩ | ⟨a, -, ha⟩
  · exact w.idle_nil
  · exact ha

/-! ### Single characters -/

theorem follows_satisfy {p : Char → Bool} (hp : ∀ c, p c = true → w.Plain c) :
    (satisfy p).Follows w fun c ts => p c = true ∧ ts = w.sign c := by
  rintro ts ⟨rest, offset⟩ hts
  rw [satisfy]
  cases rest with
  | nil => exact w.stops_of_reaches hts
  | cons c cs =>
    dsimp only
    split
    · rename_i hc
      exact ⟨w.sign c, w.reaches_cons (hp c hc) hts, hc, rfl⟩
    · exact w.stops_of_reaches hts

theorem quiet_satisfy {p : Char → Bool} (hp : ∀ c, p c = true → isPlain c = true) :
    (satisfy p).Quiet w :=
  (follows_satisfy fun c hc => w.plain_of_isPlain (hp c hc)).mono fun c _ h =>
    h.2 ▸ w.idle_sign (hp c h.1)

theorem follows_char {c : Char} (hc : w.Plain c) : (char c).Follows w fun _ ts => ts = w.sign c := by
  refine (follows_satisfy fun d hd => ?_).bind fun d ts h => follows_pure ?_
  · rw [of_decide_eq_true hd]
    exact hc
  · rw [List.append_nil, h.2, of_decide_eq_true h.1]

theorem quiet_char {c : Char} (hc : isPlain c = true) : (char c).Quiet w :=
  (follows_char (w.plain_of_isPlain hc)).mono fun _ _ h => h ▸ w.idle_sign hc

/-- A run of characters is passed one character after another. -/
theorem follows_takeWhile {p : Char → Bool} (hp : ∀ c, p c = true → w.Plain c) :
    (takeWhile p).Follows w fun cs ts => (∀ c ∈ cs, p c = true) ∧ ts = cs.flatMap w.sign := by
  have hspan : ∀ (text : List Char) (ts : List τ) (offset : Nat), w.Reaches ts ⟨text, offset⟩ →
      (∀ c ∈ (Cursor.span p text offset).1, p c = true) ∧
        w.Reaches (ts ++ (Cursor.span p text offset).1.flatMap w.sign) (Cursor.span p text offset).2 := by
    intro text
    induction text with
    | nil => exact fun ts offset hts => ⟨List.forall_mem_nil _, by rwa [Cursor.span, List.flatMap_nil,
        List.append_nil]⟩
    | cons c cs ih =>
      intro ts offset hts
      rw [Cursor.span]
      split
      · rename_i hc
        obtain ⟨hall, hreaches⟩ := ih _ _ (w.reaches_cons (hp c hc) hts)
        refine ⟨List.forall_mem_cons.2 ⟨hc, hall⟩, ?_⟩
        rwa [List.flatMap_cons, ← List.append_assoc]
      · exact ⟨List.forall_mem_nil _, by rwa [List.flatMap_nil, List.append_nil]⟩
  intro ts cursor hts
  obtain ⟨hall, hreaches⟩ := hspan _ _ _ hts
  exact ⟨_, hreaches, hall, rfl⟩

theorem quiet_takeWhile {p : Char → Bool} (hp : ∀ c, p c = true → isPlain c = true) :
    (takeWhile p).Quiet w :=
  (follows_takeWhile fun c hc => w.plain_of_isPlain (hp c hc)).mono fun _ _ h =>
    h.2 ▸ w.idle_flatMap fun c hc => hp c (h.1 c hc)

theorem quiet_takeWhile1 {p : Char → Bool} (hp : ∀ c, p c = true → isPlain c = true) :
    (takeWhile1 p).Quiet w :=
  (quiet_satisfy hp).seq fun _ => (quiet_takeWhile hp).seq fun _ => quiet_pure _

/-- The characters of a word are dropped one after another. -/
theorem quiet_word {text : String} (htext : text.toList.all isPlain = true) :
    (word text).Quiet w := by
  have hplain : ∀ c ∈ text.toList, isPlain c = true := List.all_eq_true.1 htext
  -- A word is dropped character by character, and each of them is plain.
  have hdrop : ∀ (cs : List Char) (ts : List τ) (cursor next : Cursor), (∀ c ∈ cs, isPlain c = true) →
      w.Reaches ts cursor → cursor.drop? cs = some next → w.Reaches (ts ++ cs.flatMap w.sign) next := by
    intro cs
    induction cs with
    | nil =>
      rintro ts cursor next - hts ⟨⟩
      rwa [List.flatMap_nil, List.append_nil]
    | cons c cs ih =>
      rintro ts ⟨_ | ⟨d, rest⟩, offset⟩ next hcs hts hnext
      · cases hnext
      · rw [Cursor.drop?] at hnext
        split at hnext
        · rename_i hd
          subst hd
          rw [List.forall_mem_cons] at hcs
          rw [List.flatMap_cons, ← List.append_assoc]
          exact ih _ _ _ hcs.2 (w.reaches_cons (w.plain_of_isPlain hcs.1) hts) hnext
        · cases hnext
  intro ts cursor hts
  rw [word]
  cases hnext : cursor.drop? text.toList with
  | none => exact w.stops_of_reaches hts
  | some next => exact ⟨_, hdrop _ _ _ _ hplain hts hnext, w.idle_flatMap hplain⟩

theorem quiet_nextIs (c : Char) : (nextIs c).Quiet w := by
  intro ts cursor hts
  exact ⟨[], by rwa [List.append_nil], w.idle_nil⟩

theorem follows_offset : offset.Follows w fun _ ts => ts = [] := by
  intro ts cursor hts
  exact ⟨[], by rwa [List.append_nil], rfl⟩

theorem follows_blanks : blanks.Follows w fun _ ts => ts = [] := by
  intro ts cursor hts
  refine ⟨[], ?_, rfl⟩
  rw [List.append_nil]
  exact w.reaches_blanks hts

theorem quiet_blanks : blanks.Quiet w :=
  follows_blanks.mono fun _ _ h => h ▸ w.idle_nil

theorem quiet_keyword {text : String} (htext : text.toList.all isPlain = true) :
    (keyword text).Quiet w :=
  (quiet_word htext).seq fun _ => quiet_blanks

/-! ### Brackets and commas -/

theorem Follows.padded {p : Reader α} (hp : p.Follows w P) : (padded p).Follows w P := by
  refine follows_blanks.bind fun _ _ hbefore => hp.bind fun a ts ha => ?_
  refine follows_blanks.bind fun _ _ hafter => follows_pure ?_
  rwa [hbefore, hafter, List.append_nil, List.append_nil]

theorem Quiet.padded {p : Reader α} (hp : p.Quiet w) : (padded p).Quiet w :=
  Follows.padded hp

/-- Brackets are signs around what is in them. -/
theorem Follows.bracketed {p : Reader α} (hp : p.Follows w P) {left right : Char}
    (hleft : isPlain left = true) (hright : isPlain right = true) :
    (bracketed left p right).Follows w fun a ts =>
      ∃ us, P a us ∧ ts = w.sign left ++ (us ++ w.sign right) := by
  refine (follows_char (w.plain_of_isPlain hleft)).bind fun _ _ hl => ?_
  refine follows_blanks.bind fun _ _ hbefore => hp.bind fun a us ha => ?_
  refine follows_blanks.bind fun _ _ hafter => ?_
  refine (follows_char (w.plain_of_isPlain hright)).bind fun _ _ hr => follows_pure ⟨us, ha, ?_⟩
  rw [hl, hbefore, hafter, hr, List.append_nil]
  rfl

theorem Quiet.bracketed {p : Reader α} (hp : p.Quiet w) {left right : Char}
    (hleft : isPlain left = true) (hright : isPlain right = true) :
    (bracketed left p right).Quiet w := by
  refine (Follows.bracketed hp hleft hright).mono fun _ ts h => ?_
  obtain ⟨us, hus, rfl⟩ := h
  exact w.idle_append (w.idle_sign hleft) (w.idle_append hus (w.idle_sign hright))

/-- Items that each follow a comma.  The relation is kept when one more item is put before the others. -/
theorem Follows.afterCommas {p : Reader α} {P : List α → List τ → Prop} (hnil : P [] [])
    (hp : p.Follows w fun a ts => ∀ as us, P as us → P (a :: as) (w.sign ',' ++ (ts ++ us))) :
    ∀ budget : List Char, (afterCommas p budget).Follows w P
  | [] => follows_pure hnil
  | _ :: budget => by
    have hcomma : Reader.Follows w (do char ','; p) fun a ts =>
        ∀ as us, P as us → P (a :: as) (ts ++ us) := by
      refine (follows_char (w.plain_of_isPlain rfl)).bind fun _ ts hts =>
        hp.mono fun a us h as more hmore => ?_
      rw [hts, List.append_assoc]
      exact h as more hmore
    refine hcomma.optional.bind fun first ts hfirst => ?_
    rcases hfirst with ⟨rfl, rfl⟩ | ⟨a, rfl, ha⟩
    · exact follows_pure hnil
    · refine (Follows.afterCommas hnil hp budget).bind fun as us has => follows_pure ?_
      rw [List.append_nil]
      exact ha as us has

/-- Items with commas between them, where `P` is about the items after the first one. -/
theorem Follows.separated1 {p : Reader α} {P P' : List α → List τ → Prop} (hnil : P [] [])
    (hp : p.Follows w fun a ts => (∀ as us, P as us → P (a :: as) (w.sign ',' ++ (ts ++ us))) ∧
      ∀ as us, P as us → P' (a :: as) (ts ++ us)) : (separated1 p).Follows w P' := by
  refine hp.bind fun a ts ha => ?_
  have hmore := Follows.afterCommas hnil (hp.mono fun _ _ h => h.1)
  refine (follows_rest hmore).bind fun as us has => follows_pure ?_
  rw [List.append_nil]
  exact ha.2 as us has

theorem Follows.separated {p : Reader α} {P : List α → List τ → Prop} (hnil : P [] [])
    (hp : (Reader.separated1 p).Follows w P) : (separated p).Follows w P := by
  refine hp.optional.bind fun items ts h => ?_
  rcases h with ⟨rfl, rfl⟩ | ⟨as, rfl, has⟩
  · exact follows_pure hnil
  · refine follows_pure ?_
    rwa [List.append_nil]

theorem Quiet.separated1 {p : Reader α} (hp : p.Quiet w) : (separated1 p).Quiet w := by
  refine Follows.separated1 (P := fun _ ts => w.Idle ts) w.idle_nil (hp.mono fun a ts hts => ?_)
  exact ⟨fun _ us hus => w.idle_append (w.idle_sign rfl) (w.idle_append hts hus),
    fun _ us hus => w.idle_append hts hus⟩

theorem Quiet.separated {p : Reader α} (hp : p.Quiet w) : (separated p).Quiet w :=
  Follows.separated w.idle_nil hp.separated1

/-! ### Parts without values -/

theorem quiet_name : name.Quiet w :=
  (quiet_satisfy fun _ h => isPlain_of_isNamePart (isNamePart_of_isNameStart h)).seq fun _ =>
    (quiet_takeWhile fun _ h => isPlain_of_isNamePart h).seq fun _ => quiet_pure _

theorem quiet_qualified : qualified.Quiet w :=
  quiet_name.seq fun _ => (quiet_char rfl).seq fun _ => quiet_name.seq fun _ => quiet_pure _

theorem isPlain_of_isDigit {c : Char} (hc : c.isDigit = true) : isPlain c = true :=
  isPlain_of_isNamePart (isNamePart_of_isDigit hc)

theorem quiet_minus : minus.Quiet w :=
  (quiet_char rfl).optional.seq fun _ => quiet_pure _

/-- An integer that does not fit fails where it stands. -/
theorem quiet_integer : integer.Quiet w := by
  have hnumeral : numeral.Quiet w := by
    refine Follows.orElse (Quiet.seq (quiet_satisfy fun c h => ?_) fun _ => ?_) ?_
    · exact isPlain_of_isDigit (Bool.and_eq_true_iff.1 h).1
    · exact (quiet_takeWhile fun _ h => isPlain_of_isDigit h).seq fun _ => quiet_pure _
    · exact (quiet_char rfl).seq fun _ => quiet_pure _
  refine quiet_minus.seq fun _ => hnumeral.seq fun _ => ?_
  split
  · exact quiet_pure _
  · split
    · exact quiet_pure _
    · exact follows_fail

theorem quiet_float : float.Quiet w := by
  have hdigits : (takeWhile1 Char.isDigit).Quiet w := quiet_takeWhile1 fun _ h => isPlain_of_isDigit h
  have hexponent : exponent.Quiet w := by
    refine Quiet.seq (quiet_satisfy fun c h => ?_) fun _ =>
      Quiet.seq (Quiet.optional (quiet_satisfy fun c h => ?_)) fun _ => hdigits.seq fun _ => quiet_pure _
    · simp only [Bool.or_eq_true, decide_eq_true_eq] at h
      rcases h with rfl | rfl <;> rfl
    · simp only [Bool.or_eq_true, decide_eq_true_eq] at h
      rcases h with rfl | rfl <;> rfl
  exact quiet_minus.seq fun _ => hdigits.seq fun _ => (quiet_char rfl).seq fun _ =>
    hdigits.seq fun _ => hexponent.optional.seq fun _ => quiet_pure _

/-- A quote is passed together with all that is in it. -/
theorem quiet_quoted : quoted.Quiet w := by
  rintro ts ⟨rest, offset⟩ hts
  refine meets_bind.2 (meets_bind.2 ?_)
  rw [satisfy]
  cases rest with
  | nil => exact w.stops_of_reaches hts
  | cons c cs =>
    dsimp only
    split
    · rename_i hc
      obtain rfl : c = '"' := of_decide_eq_true hc
      refine meets_bind.2 ((w.meets_unquote hts).mono (fun _ next hnext => ?_) fun _ hstops => hstops)
      exact ⟨[], by rwa [List.append_nil], w.idle_nil⟩
    · exact w.stops_of_reaches hts

theorem quiet_type : ∀ depth : Nat, (type depth).Quiet w
  | 0 => follows_fail
  | depth + 1 => quiet_qualified.seq fun _ =>
      ((quiet_type depth).padded.separated.bracketed rfl rfl).optional.seq fun _ => quiet_pure _

/-- Every alternative is quiet, so it does not matter which one is taken. -/
theorem quiet_literal : ∀ depth : Nat, (literal depth).Quiet w
  | 0 => follows_fail
  | depth + 1 => by
    have hword : ∀ (text : String) (l : Literal), (text.toList.all isPlain) = true →
        Reader.Quiet w (do word text; return l) := fun text l htext =>
      (quiet_word htext).seq fun _ => quiet_pure _
    refine Follows.orElse (hword _ _ rfl) (Follows.orElse (hword _ _ rfl)
      (Follows.orElse (hword _ _ rfl) ?_))
    refine Follows.orElse (quiet_quoted.seq fun _ => quiet_pure _) ?_
    refine Follows.orElse (((quiet_literal depth).padded.separated.bracketed rfl rfl).seq
      fun _ => quiet_pure _) ?_
    refine Follows.orElse (quiet_float.seq fun _ => quiet_pure _) ?_
    refine Follows.orElse (quiet_integer.seq fun _ => quiet_pure _) ?_
    exact (quiet_type (depth + 1)).seq fun _ => quiet_pure _

theorem quiet_attributes (depth : Nat) : (attributes? depth).Quiet w := by
  have hentry : (entry depth).Quiet w := Quiet.padded <| quiet_name.seq fun _ =>
    quiet_blanks.seq fun _ => (quiet_char rfl).seq fun _ => quiet_blanks.seq fun _ =>
      (quiet_literal depth).seq fun _ => quiet_pure _
  exact (quiet_blanks.seq fun _ => hentry.separated.bracketed rfl rfl).optional.seq fun _ => quiet_pure _

theorem quiet_annotated (depth : Nat) : (annotation? depth).Quiet w :=
  (quiet_blanks.seq fun _ => (quiet_char rfl).seq fun _ => quiet_blanks.seq fun _ =>
    (quiet_type depth).padded.separated1).optional.seq fun _ => quiet_pure _

end Reader

/-! ### What is given -/

namespace Reader

variable {α β τ : Type} {w : Trail τ} {P : α → Prop} {Q : β → Prop}

/-- The reader stays on the trail, and what it gives satisfies `P`. -/
def Yields (w : Trail τ) (p : Reader α) (P : α → Prop) : Prop :=
  p.Follows w fun a _ => P a

theorem yields_pure {a : α} (h : P a) : Yields w (Pure.pure a : Reader α) P :=
  follows_pure h

theorem Yields.bind {p : Reader α} {next : α → Reader β} (hp : p.Yields w P)
    (h : ∀ a, P a → (next a).Yields w Q) : (p >>= next).Yields w Q :=
  Follows.bind hp fun a _ ha => h a ha

/-- What the first reader gives does not matter. -/
theorem Follows.skip {R : α → List τ → Prop} {p : Reader α} {next : α → Reader β} (hp : p.Follows w R)
    (h : ∀ a, (next a).Yields w Q) : (p >>= next).Yields w Q :=
  hp.bind fun a _ _ => h a

theorem Yields.optional {p : Reader α} (hp : p.Yields w P) :
    (optional p).Yields w fun o => ∀ a, o = some a → P a := by
  refine (Follows.optional hp).mono fun o _ h a ha => ?_
  rcases h with ⟨rfl, -⟩ | ⟨b, rfl, hb⟩
  · cases ha
  · exact Option.some.inj ha ▸ hb

/-- An optional list that is not there counts as empty. -/
theorem forall_mem_getD {o : Option (List α)} (h : ∀ as, o = some as → ∀ a ∈ as, P a) :
    ∀ a ∈ o.getD [], P a := by
  cases o with
  | none => exact fun _ ha => nomatch ha
  | some as => exact h as rfl

theorem Yields.padded {p : Reader α} (hp : p.Yields w P) : (padded p).Yields w P :=
  Follows.padded hp

theorem Yields.bracketed {p : Reader α} (hp : p.Yields w P) {left right : Char}
    (hleft : isPlain left = true) (hright : isPlain right = true) :
    (bracketed left p right).Yields w P :=
  (Follows.bracketed hp hleft hright).mono fun _ _ ⟨_, ha, _⟩ => ha

theorem Yields.separated1 {p : Reader α} (hp : p.Yields w P) :
    (separated1 p).Yields w fun as => ∀ a ∈ as, P a := by
  refine Follows.separated1 (P := fun as _ => ∀ a ∈ as, P a) (List.forall_mem_nil P)
    (hp.mono fun a _ ha => ?_)
  exact ⟨fun _ _ has => List.forall_mem_cons.2 ⟨ha, has⟩,
    fun _ _ has => List.forall_mem_cons.2 ⟨ha, has⟩⟩

theorem Yields.separated {p : Reader α} (hp : p.Yields w P) :
    (separated p).Yields w fun as => ∀ a ∈ as, P a :=
  Follows.separated (List.forall_mem_nil P) hp.separated1

end Reader

/-- Every place can be reached, and nothing is kept. -/
def Trail.free : Trail Empty where
  Reaches _ _ := True
  Stops _ := True
  Plain _ := True
  sign _ := []
  Idle _ := True
  stops_of_reaches _ := trivial
  plain_of_isPlain _ := trivial
  reaches_cons _ _ := trivial
  reaches_blanks _ := trivial
  meets_unquote {_ rest offset} _ := by
    cases unquote rest (offset + '"'.utf8Size) <;> trivial
  idle_nil := trivial
  idle_append _ _ := trivial
  idle_sign _ := trivial

namespace Reader

variable {α β : Type} {P : α → Prop} {Q : β → Prop}

/-- Whatever the reader gives satisfies `P`. -/
def Gives (p : Reader α) (P : α → Prop) : Prop :=
  p.Yields .free P

/-- A trail that keeps nothing says no more than what is given. -/
theorem gives_iff {p : Reader α} :
    p.Gives P ↔ ∀ cursor a next, p cursor = .done a next → P a := by
  constructor
  · intro h cursor a next hdone
    have hstart : Trail.free.Reaches [] cursor := trivial
    obtain ⟨us, -, ha⟩ := Follows.of_done h hstart hdone
    exact ha
  · intro h ts cursor _
    cases hdone : p cursor with
    | done a next => exact ⟨[], trivial, h cursor a next hdone⟩
    | failed offset => trivial

theorem Gives.of_done {p : Reader α} {cursor next : Cursor} {a : α} (h : p.Gives P)
    (hdone : p cursor = .done a next) : P a :=
  gives_iff.1 h cursor a next hdone

/-- What comes before does not matter. -/
theorem gives_bind {p : Reader α} {next : α → Reader β} (h : ∀ a, (next a).Gives Q) :
    (p >>= next).Gives Q :=
  Follows.skip (gives_iff.2 fun _ _ _ _ => trivial : p.Gives fun _ => True) h

end Reader

end Unguard.Text
