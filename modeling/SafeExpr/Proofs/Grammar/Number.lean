/-
  SafeExpr/Proofs/Grammar/Number.lean
  ===================================
  **How far numbers are read.**

  A float literal or an integer is read as far as it goes: where the text of one stands, in
  whatever text, at least that is read (`FloatLiteral.atLeast`,
  `integer_atLeast`).  More is read only
  where the text goes on as a longer one, since what is read is again the text of a number
  (`floatLiteral_of_reads`).
-/
import SafeExpr.Proofs.Grammar.Integer

namespace SafeExpr.Grammar

open Outcome (matched failed)
open Pattern (lit)

/-! ### Reading somewhere else -/

/-- The outcomes leave the same text. -/
inductive LeavesSame : Outcome Rule → Outcome Rule → Prop
  | failed : LeavesSame failed failed
  | matched {d d' : Cursor} {ts ts' : List (Tree Rule)} (h : d'.rest = d.rest) :
    LeavesSame (matched d ts) (matched d' ts')

theorem take?_elsewhere (cs : List Char) {c c' : Cursor} (hc : c'.rest = c.rest) :
    (c.take? cs = none → c'.take? cs = none) ∧
      ∀ d, c.take? cs = some d → ∃ d', c'.take? cs = some d' ∧ d'.rest = d.rest := by
  unfold Cursor.take?
  rw [hc]
  split
  · refine ⟨nofun, ?_⟩
    rintro d ⟨⟩
    exact ⟨_, rfl, rfl⟩
  · exact ⟨fun _ => rfl, nofun⟩

theorem char?_elsewhere (accepts : Char → Bool) {c c' : Cursor} (hc : c'.rest = c.rest) :
    (c.char? accepts = none → c'.char? accepts = none) ∧
      ∀ d, c.char? accepts = some d → ∃ d', c'.char? accepts = some d' ∧ d'.rest = d.rest := by
  unfold Cursor.char?
  rw [hc]
  split
  · split
    · refine ⟨nofun, ?_⟩
      rintro d ⟨⟩
      exact ⟨_, rfl, rfl⟩
    · exact ⟨fun _ => rfl, nofun⟩
  · exact ⟨fun _ => rfl, nofun⟩

/-- Within a token, what is read depends on the characters alone, not on where they stand. -/
theorem reads_elsewhere {goal : Goal Rule} {b : Bool} {c : Cursor} {o : Outcome Rule}
    (h : Reads expression b goal c o) : b = true → ∀ c' : Cursor, c'.rest = c.rest →
      ∃ o', Reads expression b goal c' o' ∧ LeavesSame o o' := by
  induction h with
  | text h =>
    intro _ c' hc
    obtain ⟨d', htake, hd⟩ := (take?_elsewhere _ hc).2 _ h
    exact ⟨_, .text htake, .matched hd⟩
  | textFails h => exact fun _ c' hc => ⟨_, .textFails ((take?_elsewhere _ hc).1 h), .failed⟩
  | char h =>
    intro _ c' hc
    obtain ⟨d', hchar, hd⟩ := (char?_elsewhere _ hc).2 _ h
    exact ⟨_, .char hchar, .matched hd⟩
  | charFails h => exact fun _ c' hc => ⟨_, .charFails ((char?_elsewhere _ hc).1 h), .failed⟩
  | endOfText h => exact fun _ c' hc => ⟨_, .endOfText (hc ▸ h), .matched hc⟩
  | endOfTextFails h => exact fun _ c' hc => ⟨_, .endOfTextFails (hc ▸ h), .failed⟩
  | optional _ ih =>
    intro hb c' hc
    obtain ⟨_, hread, _ | hd⟩ := ih hb c' hc
    exact ⟨_, .optional hread, .matched hd⟩
  | optionalSkips _ ih =>
    intro hb c' hc
    obtain ⟨_, hread, ⟨⟩⟩ := ih hb c' hc
    exact ⟨_, .optionalSkips hread, .matched hc⟩
  | «unless» _ ih =>
    intro hb c' hc
    obtain ⟨_, hread, ⟨⟩⟩ := ih hb c' hc
    exact ⟨_, .unless hread, .matched hc⟩
  | unlessFails _ ih =>
    intro hb c' hc
    obtain ⟨_, hread, _ | hd⟩ := ih hb c' hc
    exact ⟨_, .unlessFails hread, .failed⟩
  | seq _ _ ihp ihq =>
    rintro rfl c' hc
    obtain ⟨_, hp, _ | hd⟩ := ihp rfl c' hc
    obtain ⟨_, hq, _ | he⟩ := ihq rfl _ hd
    exact ⟨_, .seq hp hq, .matched he⟩
  | seqFails _ ih =>
    intro hb c' hc
    obtain ⟨_, hp, ⟨⟩⟩ := ih hb c' hc
    exact ⟨_, .seqFails hp, .failed⟩
  | seqFailsLater _ _ ihp ihq =>
    rintro rfl c' hc
    obtain ⟨_, hp, _ | hd⟩ := ihp rfl c' hc
    obtain ⟨_, hq, ⟨⟩⟩ := ihq rfl _ hd
    exact ⟨_, .seqFailsLater hp hq, .failed⟩
  | choice _ ih =>
    intro hb c' hc
    obtain ⟨_, hp, _ | hd⟩ := ih hb c' hc
    exact ⟨_, .choice hp, .matched hd⟩
  | choiceLater _ _ ihp ihq =>
    intro hb c' hc
    obtain ⟨_, hp, ⟨⟩⟩ := ihp hb c' hc
    obtain ⟨o', hq, hsame⟩ := ihq hb c' hc
    exact ⟨o', .choiceLater hp hq, hsame⟩
  | many _ _ ihp ihmore =>
    intro hb c' hc
    obtain ⟨_, hp, _ | hd⟩ := ihp hb c' hc
    obtain ⟨_, hmore, _ | he⟩ := ihmore hb _ hd
    exact ⟨_, .many hp hmore, .matched he⟩
  | manySkips _ ih =>
    intro hb c' hc
    obtain ⟨_, hp, ⟨⟩⟩ := ih hb c' hc
    exact ⟨_, .manySkips hp, .matched hc⟩
  | more _ _ ihp ihmore =>
    rintro rfl c' hc
    obtain ⟨_, hp, _ | hd⟩ := ihp rfl c' hc
    obtain ⟨_, hmore, _ | he⟩ := ihmore rfl _ hd
    exact ⟨_, .more hp hmore, .matched he⟩
  | moreEnds _ ih =>
    rintro rfl c' hc
    obtain ⟨_, hp, ⟨⟩⟩ := ih rfl c' hc
    exact ⟨_, .moreEnds hp, .matched hc⟩
  | rule _ ih =>
    rintro rfl c' hc
    obtain ⟨_, hread, _ | hd⟩ := ih rfl c' hc
    exact ⟨_, .rule hread, .matched hd⟩
  | ruleFails _ ih =>
    rintro rfl c' hc
    obtain ⟨_, hread, ⟨⟩⟩ := ih rfl c' hc
    exact ⟨_, .ruleFails hread, .failed⟩

/-- What a token pattern takes somewhere it takes everywhere. -/
theorem takes_of_reads {p : Pattern Rule} {c d : Cursor} {ts : List (Tree Rule)} {cs : List Char}
    (h : Reads expression true (.one p) c (matched d ts)) (hpasses : c.Passes d cs) :
    Takes p cs d.rest := by
  intro pos
  obtain ⟨_, hread, hsame⟩ := reads_elsewhere h rfl ⟨pos, cs ++ d.rest⟩ hpasses.rest.symm
  cases hsame with
  | @matched _ d' _ ts' hd =>
    cases trees_eq_nil_of_reads hread _ _ rfl rfl
    obtain ⟨mid, hmid⟩ := reads_passes hread _ _ rfl
    have hrest : cs ++ d.rest = mid ++ d'.rest := hmid.rest
    rw [hd, List.append_left_inj] at hrest
    have hd' : d' = ⟨pos + byteLength cs, d.rest⟩ := by
      rw [hrest, ← hd, ← hmid.pos]
    rwa [hd'] at hread

/-- A pattern is read or it fails. -/
theorem reads_or_fails (b : Bool) (p : Pattern Rule) (c : Cursor)
    (hfits : p.fits eatsRule rankRule unitsPerChar = true) :
    (∃ d ts, Reads expression b (.one p) c (matched d ts)) ∨
      Reads expression b (.one p) c failed := by
  have hsettles := run_ne_outOfFuel (c := c) (b := b) (t := .start) expressionRanking hfits
    (Nat.le_refl _)
  have hread := reads_of_run hsettles
  generalize (expression.run _ b p c .start).1 = o at hread hsettles
  cases o with
  | matched d ts => exact Or.inl ⟨d, ts, hread⟩
  | failed => exact Or.inr hread
  | outOfFuel => exact absurd rfl hsettles

/-! ### Digits -/

section Digits

variable {radix : Nat} {accepts : Char → Bool} {ds rest : List Char}

theorem digit_or_stop (accepts : Char → Bool) (cs : List Char) :
    (∃ d more, accepts d = true ∧ (cs = d :: more ∨ cs = '_' :: d :: more)) ∨
      DigitsStop accepts cs := by
  cases cs with
  | nil => exact Or.inr ⟨nofun, nofun⟩
  | cons c cs =>
    by_cases hc : accepts c = true
    · exact Or.inl ⟨c, cs, hc, Or.inl rfl⟩
    · by_cases hdash : ∃ d more, accepts d = true ∧ c :: cs = '_' :: d :: more
      · obtain ⟨d, more, hd, heq⟩ := hdash
        exact Or.inl ⟨d, more, hd, Or.inr heq⟩
      · refine Or.inr ⟨?_, ?_⟩
        · rintro _ ⟨⟩
          simpa using hc
        · rintro more heq d hd
          obtain ⟨more, rfl⟩ := List.head?_eq_some_iff.mp hd
          rw [← Bool.not_eq_true]
          exact fun hx => hdash ⟨d, more, hx, heq⟩

/-- All digits that there are. -/
theorem exists_spaced (accepts : Char → Bool) (cs : List Char) :
    ∃ ds rest, cs = ds ++ rest ∧ Spaced accepts ds ∧ DigitsStop accepts rest := by
  generalize hn : cs.length = n
  induction n using Nat.strongRecOn generalizing cs with
  | ind n ih =>
    rcases digit_or_stop accepts cs with ⟨d, more, hd, rfl | rfl⟩ | hstop
    · obtain ⟨ds, rest, rfl, hds, hstop⟩ := ih more.length (by simp [← hn]) more rfl
      exact ⟨d :: ds, rest, rfl, .digit hd hds, hstop⟩
    · obtain ⟨ds, rest, rfl, hds, hstop⟩ := ih more.length (by simp only [← hn, List.length_cons]; omega) more rfl
      exact ⟨'_' :: d :: ds, rest, rfl, .underscore hd hds, hstop⟩
    · exact ⟨[], cs, rfl, .nil, hstop⟩

end Digits

/-- A digit, and more digits. -/
def DigitsText (ds : List Char) : Prop :=
  ∃ d more, ds = d :: more ∧ d.isDigit = true ∧ Spaced Char.isDigit more

theorem DigitsText.atLeast {ds : List Char} (h : DigitsText ds) (cs : List Char) :
    ∃ es rest, cs = es ++ rest ∧ DigitsText (ds ++ es) ∧ Takes decimalDigits (ds ++ es) rest := by
  obtain ⟨d, more, rfl, hd, hmore⟩ := h
  obtain ⟨es, rest, rfl, hes, hstop⟩ := exists_spaced Char.isDigit cs
  exact ⟨es, rest, rfl, ⟨d, more ++ es, rfl, hd, hmore.append hes⟩,
    takes_digits digitClass_decimal hd (hmore.append hes) hstop⟩

theorem DigitsText.takes {ds rest : List Char} (h : DigitsText ds)
    (hrest : DigitsEnd Char.isDigit rest) : Takes decimalDigits ds rest := by
  obtain ⟨d, more, rfl, hd, hmore⟩ := h
  exact takes_digits digitClass_decimal hd hmore hrest.stops

theorem digitsText_of_reads {c d : Cursor} {ts : List (Tree Rule)}
    (h : Reads expression true (.one decimalDigits) c (matched d ts)) :
    ∃ ds, DigitsText ds ∧ c.Passes d ds := by
  cases h with
  | seq hfirst hmore =>
    cases hfirst with
    | char hchar =>
      obtain ⟨x, hx, hfirst⟩ := Cursor.passes_of_char? hchar
      obtain ⟨ds, hds, hbehind⟩ := spaced_of_reads_many hmore
      exact ⟨x :: ds, ⟨x, ds, rfl, hx, hds⟩, hfirst.trans hbehind⟩

/-! ### Exponents -/

section Fraction

variable {c d : Cursor} {ts : List (Tree Rule)} {rest : List Char}

theorem Takes.optional {p : Pattern Rule} {cs : List Char} (h : Takes p cs rest) :
    Takes (.optional p) cs rest := fun pos => .optional (h pos)

theorem either_of_reads {a b : String}
    (h : Reads expression true (.one (lit a ||| lit b)) c (matched d ts)) :
    c.Passes d a.toList ∨ c.Passes d b.toList := by
  cases h with
  | choice h =>
    cases h with
    | text h => exact Or.inl (Cursor.passes_of_take? h)
  | choiceLater _ h =>
    cases h with
    | text h => exact Or.inr (Cursor.passes_of_take? h)

/-- A letter, a sign or none, and digits. -/
inductive ExponentText : List Char → Prop
  | intro {e : Char} {sign ds : List Char} (he : e = 'e' ∨ e = 'E')
    (hsign : sign = [] ∨ sign = ['+'] ∨ sign = ['-']) (hds : DigitsText ds) :
    ExponentText (e :: (sign ++ ds))

theorem exponentText_of_reads (h : Reads expression true (.one exponentPart) c (matched d ts)) :
    ∃ cs, ExponentText cs ∧ c.Passes d cs := by
  cases h with
  | @seq _ _ _ _ c₂ _ _ _ hfront hdigits =>
    obtain ⟨ds, hds, hlast⟩ := digitsText_of_reads hdigits
    cases hfront with
    | @seq _ _ _ _ c₁ _ _ _ hletter hsign =>
      have hletter : ∃ e, (e = 'e' ∨ e = 'E') ∧ c.Passes c₁ [e] := by
        rcases either_of_reads hletter with h | h
        · exact ⟨'e', Or.inl rfl, h⟩
        · exact ⟨'E', Or.inr rfl, h⟩
      have hsign : ∃ sign, (sign = [] ∨ sign = ['+'] ∨ sign = ['-']) ∧ c₁.Passes c₂ sign := by
        cases hsign with
        | optional h =>
          rcases either_of_reads h with h | h
          · exact ⟨['+'], Or.inr (Or.inl rfl), h⟩
          · exact ⟨['-'], Or.inr (Or.inr rfl), h⟩
        | optionalSkips => exact ⟨[], Or.inl rfl, .refl _⟩
      obtain ⟨e, he, hfirst⟩ := hletter
      obtain ⟨sign, hsign, hmiddle⟩ := hsign
      exact ⟨_, .intro he hsign hds, hfirst.trans (hmiddle.trans hlast)⟩

theorem DigitsText.head {ds : List Char} (h : DigitsText ds) :
    ∃ d more, ds = d :: more ∧ d.isDigit = true := by
  obtain ⟨d, more, rfl, hd, -⟩ := h
  exact ⟨d, more, rfl, hd⟩

/-- A sign or none, where no other sign follows. -/
theorem takes_sign {sign : List Char} (hsign : sign = [] ∨ sign = ['+'] ∨ sign = ['-'])
    (hrest : ∀ c ∈ rest.head?, c ≠ '+' ∧ c ≠ '-') :
    Takes (.optional (lit "+" ||| lit "-")) sign rest := by
  rcases hsign with rfl | rfl | rfl
  · refine takes_nothing fun pos => .optionalSkips (.choiceLater (.textFails (take?_eq_none ?_ pos))
      (.textFails (take?_eq_none ?_ pos)))
    · rintro ⟨more, rfl⟩
      exact (hrest _ rfl).1 rfl
    · rintro ⟨more, rfl⟩
      exact (hrest _ rfl).2 rfl
  · have hplus : Takes (lit "+" ||| lit "-") ['+'] rest := takes_mark (Or.inl rfl)
    exact hplus.optional
  · have hminus : Takes (lit "+" ||| lit "-") ['-'] rest := takes_mark (Or.inr ⟨rfl, by simp⟩)
    exact hminus.optional

/-- Of an exponent that begins a text, all is taken, and the digits that follow. -/
theorem ExponentText.atLeast {ex : List Char} (h : ExponentText ex) (cs : List Char) :
    ∃ es rest, cs = es ++ rest ∧ ExponentText (ex ++ es) ∧ Takes exponentPart (ex ++ es) rest := by
  obtain ⟨he, hsign, hds⟩ := h
  rename_i e sign ds
  obtain ⟨es, rest, rfl, hall, htakes⟩ := hds.atLeast cs
  have hletter : Takes (lit "e" ||| lit "E") [e] (sign ++ (ds ++ es ++ rest)) := by
    apply takes_mark
    rcases he with rfl | rfl
    · exact Or.inl rfl
    · exact Or.inr ⟨rfl, by simp⟩
  have hsign' : Takes (.optional (lit "+" ||| lit "-")) sign (ds ++ es ++ rest) := by
    refine takes_sign hsign ?_
    obtain ⟨d, more, rfl, hd⟩ := hds.head
    rintro _ ⟨⟩
    constructor <;> rintro rfl <;> cases hd
  have hparts : Takes exponentPart ([e] ++ sign ++ (ds ++ es)) rest :=
    (hletter.seq hsign').seq htakes
  refine ⟨es, rest, rfl, ?_, ?_⟩
  · have := ExponentText.intro he hsign hall
    simpa using this
  · simpa using hparts

/-- An exponent or none. -/
theorem optionalExponent (cs : List Char) :
    ∃ es rest, cs = es ++ rest ∧ (es = [] ∨ ExponentText es) ∧
      Takes (.optional exponentPart) es rest := by
  rcases reads_or_fails true exponentPart ⟨0, cs⟩ (by decide) with ⟨d, ts, h⟩ | h
  · obtain ⟨es, hes, hpasses⟩ := exponentText_of_reads h
    exact ⟨es, _, hpasses.rest, Or.inr hes, (takes_of_reads h hpasses).optional⟩
  · exact ⟨[], cs, rfl, Or.inl rfl, takes_of_reads (.optionalSkips h) (.refl _)⟩

/-! ### Floats -/

/-- The literals of floats: digits with a point among or in front of them, with an exponent or
    without one; or digits and an exponent. -/
inductive FloatLiteral : List Char → Prop
  | point {whole places ex : List Char} (hwhole : whole = [] ∨ DigitsText whole)
    (hplaces : DigitsText places) (hex : ex = [] ∨ ExponentText ex) :
    FloatLiteral (whole ++ '.' :: (places ++ ex))
  | exponent {whole ex : List Char} (hwhole : DigitsText whole) (hex : ExponentText ex) :
    FloatLiteral (whole ++ ex)

theorem optionalExponent_of_reads
    (h : Reads expression true (.one (.optional exponentPart)) c (matched d ts)) :
    ∃ cs, (cs = [] ∨ ExponentText cs) ∧ c.Passes d cs := by
  cases h with
  | optional h =>
    obtain ⟨cs, hcs, hpasses⟩ := exponentText_of_reads h
    exact ⟨cs, Or.inr hcs, hpasses⟩
  | optionalSkips => exact ⟨[], Or.inl rfl, .refl _⟩

/-- **What is read as a float is the literal of one.** -/
theorem floatLiteral_of_reads
    (h : Reads expression true (.one (rulePattern .float)) c (matched d ts)) :
    ∃ cs, FloatLiteral cs ∧ c.Passes d cs := by
  cases h with
  | choice h =>
    cases h with
    | seq hfront hexponent =>
      obtain ⟨ex, hex, hlast⟩ := optionalExponent_of_reads hexponent
      cases hfront with
      | seq hfront hplaces =>
        obtain ⟨places, hplaces, hmiddle⟩ := digitsText_of_reads hplaces
        cases hfront with
        | seq hwhole hpoint =>
          obtain ⟨whole, hwhole, hfirst⟩ := digitsText_of_reads hwhole
          cases hpoint with
          | text hpoint =>
            exact ⟨_, .point (Or.inr hwhole) hplaces hex, hfirst.trans
              ((Cursor.passes_of_take? hpoint).trans (hmiddle.trans hlast))⟩
  | choiceLater _ h =>
    cases h with
    | choice h =>
      cases h with
      | seq hfront hexponent =>
        obtain ⟨ex, hex, hlast⟩ := optionalExponent_of_reads hexponent
        cases hfront with
        | seq hpoint hplaces =>
          obtain ⟨places, hplaces, hmiddle⟩ := digitsText_of_reads hplaces
          cases hpoint with
          | text hpoint =>
            exact ⟨_, .point (Or.inl rfl) hplaces hex,
              (Cursor.passes_of_take? hpoint).trans (hmiddle.trans hlast)⟩
    | choiceLater _ h =>
      cases h with
      | seq hwhole hexponent =>
        obtain ⟨whole, hwhole, hfirst⟩ := digitsText_of_reads hwhole
        obtain ⟨ex, hex, hlast⟩ := exponentText_of_reads hexponent
        exact ⟨_, .exponent hwhole hex, hfirst.trans hlast⟩

theorem digitsEnd_cons {x : Char} (hdigit : x.isDigit = false) (hplain : x ≠ '_')
    (rest : List Char) : DigitsEnd Char.isDigit (x :: rest) := by
  rintro _ ⟨⟩
  exact ⟨hdigit, hplain⟩

theorem ExponentText.head {ex : List Char} (h : ExponentText ex) :
    ∃ e more, ex = e :: more ∧ e.isDigit = false ∧ e ≠ '_' ∧ e ≠ '.' := by
  obtain ⟨rfl | rfl, -, -⟩ := h <;> exact ⟨_, _, rfl, by decide, by decide, by decide⟩

theorem ExponentText.digitsEnd {ex : List Char} (h : ExponentText ex) (rest : List Char) :
    DigitsEnd Char.isDigit (ex ++ rest) := by
  obtain ⟨e, more, rfl, hdigit, hplain, -⟩ := h.head
  exact digitsEnd_cons hdigit hplain _

/-- Decimal places, with an exponent or without one, and what goes on as such. -/
theorem places_atLeast {places ex : List Char} (hplaces : DigitsText places)
    (hex : ex = [] ∨ ExponentText ex) (cs : List Char) :
    ∃ places' ex' es rest, places ++ ex ++ es = places' ++ ex' ∧ cs = es ++ rest ∧
      DigitsText places' ∧ (ex' = [] ∨ ExponentText ex') ∧
      Takes decimalDigits places' (ex' ++ rest) ∧ Takes (.optional exponentPart) ex' rest := by
  rcases hex with rfl | hex
  · obtain ⟨es, behind, rfl, hall, htakes⟩ := hplaces.atLeast cs
    obtain ⟨ex', rest, rfl, hex', htakes'⟩ := optionalExponent behind
    exact ⟨places ++ es, ex', es ++ ex', rest, by simp, by simp, hall, hex', htakes, htakes'⟩
  · obtain ⟨es, rest, rfl, hall, htakes⟩ := hex.atLeast cs
    refine ⟨places, ex ++ es, es, rest, by simp, rfl, hplaces, Or.inr hall, ?_, htakes.optional⟩
    exact hplaces.takes (hall.digitsEnd rest)

theorem digits_fail {cs : List Char} (h : ∀ c ∈ cs.head?, c.isDigit = false) (pos : Nat) :
    Reads expression true (.one decimalDigits) ⟨pos, cs⟩ failed := .seqFails (char_fails h pos)

/-- **Of the literal of a float that begins a text, all is read as one, with what goes on as
such.** -/
theorem FloatLiteral.atLeast {t : List Char} (h : FloatLiteral t) (cs : List Char) :
    ∃ es rest, cs = es ++ rest ∧ FloatLiteral (t ++ es) ∧
      Takes (rulePattern .float) (t ++ es) rest := by
  cases h with
  | @point whole places ex hwhole hplaces hex =>
    obtain ⟨places', ex', es, rest, heq, rfl, hplaces', hex', htakes, htakes'⟩ :=
      places_atLeast hplaces hex cs
    have hall : whole ++ '.' :: (places ++ ex) ++ es = whole ++ ['.'] ++ places' ++ ex' := by
      rw [List.append_assoc _ _ ex', ← heq]
      simp
    refine ⟨es, rest, rfl, ?_, ?_⟩
    · rw [hall]
      simpa using FloatLiteral.point hwhole hplaces' hex'
    · rw [hall]
      rcases hwhole with rfl | hwhole
      · have hparts := ((takes_text ['.'] _).seq htakes).seq htakes'
        intro pos
        refine .choiceLater (.seqFails (.seqFails (.seqFails (digits_fail ?_ pos))))
          (.choice (hparts pos))
        rintro _ ⟨⟩
        rfl
      · have hdigits : Takes decimalDigits whole (['.'] ++ (places' ++ (ex' ++ rest))) :=
          hwhole.takes (digitsEnd_cons (by decide) (by decide) _)
        have hparts := ((hdigits.seq (takes_text ['.'] _)).seq htakes).seq htakes'
        exact fun pos => .choice (hparts pos)
  | @exponent whole ex hwhole hex =>
    obtain ⟨es, rest, rfl, hex', htakes⟩ := hex.atLeast cs
    refine ⟨es, rest, rfl, ?_, ?_⟩
    · rw [List.append_assoc]
      exact .exponent hwhole hex'
    · rw [List.append_assoc]
      have hdigits : Takes decimalDigits whole (ex ++ es ++ rest) :=
        hwhole.takes (hex'.digitsEnd rest)
      have hparts := hdigits.seq htakes
      have hpoint : ¬ ['.'] <+: ex ++ es ++ rest := by
        obtain ⟨e, more, heq, -, -, hpoint⟩ := hex'.head
        rw [heq]
        rintro ⟨_, heq⟩
        cases heq
        exact hpoint rfl
      intro pos
      have hread := hdigits pos
      rw [← List.append_assoc] at hread
      refine .choiceLater (.seqFails (.seqFails (.seqFailsLater hread (.textFails
        (take?_eq_none hpoint _))))) (.choiceLater (.seqFails (.seqFails (.textFails
        (take?_eq_none ?_ pos)))) (hparts pos))
      obtain ⟨d, more, rfl, hd⟩ := hwhole.head
      rintro ⟨_, heq⟩
      cases heq
      cases hd

end Fraction

/-! ### Integers -/

/-- Digits behind a mark, and those that follow. -/
theorem marked_atLeast {m : RadixMark} {x : Char} {ds : List Char} (hm : m ∈ radixMarks)
    (hx : x = m.lower ∨ x = m.upper) (hds : Spaced m.accepts ds) (hne : ds ≠ [])
    (cs : List Char) :
    ∃ es rest, cs = es ++ rest ∧ (∃ n, IntegerText ('0' :: x :: (ds ++ es)) n) ∧
      Takes (rulePattern .integer) ('0' :: x :: (ds ++ es)) rest := by
  obtain ⟨es, rest, rfl, hes, hstop⟩ := exists_spaced m.accepts cs
  have hall := hds.append hes
  have hne' : ds ++ es ≠ [] := by simp [hne]
  exact ⟨es, rest, rfl, ⟨_, .marked hm hx hall hne'⟩,
    takes_marked hm hx (takes_spaced (digitClass_of_mem hm) hall hne' hstop)⟩

/-- The digits of a radix stand behind its mark here. -/
def MarkedAt (m : RadixMark) (cs : List Char) : Prop :=
  ∃ x ds rest, (x = m.lower ∨ x = m.upper) ∧ Spaced m.accepts ds ∧ ds ≠ [] ∧
    cs = '0' :: x :: (ds ++ rest)

theorem prefixed_fails {m : RadixMark} {lower upper : String} {cs : List Char}
    (hlower : lower.toList = ['0', m.lower]) (hupper : upper.toList = ['0', m.upper])
    (hfits : (prefixedInteger lower upper m.accepts).fits eatsRule rankRule unitsPerChar = true)
    (h : ¬ MarkedAt m cs) (pos : Nat) :
    Reads expression true (.one (prefixedInteger lower upper m.accepts)) ⟨pos, cs⟩ failed := by
  rcases reads_or_fails true _ ⟨pos, cs⟩ hfits with ⟨d, ts, hread⟩ | hfail
  · obtain ⟨x, ds, hx, hds, hne, hpasses⟩ := marked_of_prefixed hlower hupper hread
    exact absurd ⟨x, ds, d.rest, hx, hds, hne, hpasses.rest⟩ h
  · exact hfail

/-- **Of the text of an integer that begins a text, all is read as one, with what goes on as
such.** -/
theorem integer_atLeast {t : List Char} {n : Nat} (h : IntegerText t n) (cs : List Char) :
    ∃ es rest, cs = es ++ rest ∧ (∃ m, IntegerText (t ++ es) m) ∧
      Takes (rulePattern .integer) (t ++ es) rest := by
  cases h with
  | marked hm hx hds hne => exact marked_atLeast hm hx hds hne cs
  | @decimal d ds hd hds =>
    by_cases hmark : ∃ m ∈ radixMarks, MarkedAt m (d :: ds ++ cs)
    · -- the only digit is the zero of the mark
      obtain ⟨m, hm, x, es, rest, hx, hes, hne, heq⟩ := hmark
      have hletter := of_letter (P := fun _ x => x.isDigit = false ∧ x ≠ '_') hm hx (by decide)
      rw [List.cons_append, List.cons.injEq] at heq
      obtain ⟨rfl, heq⟩ := heq
      have hnil : ds = [] := by
        cases hds with
        | nil => rfl
        | digit hd =>
          rw [← (List.cons.inj heq).1, hd] at hletter
          exact absurd hletter.1 (by decide)
        | underscore => exact absurd (List.cons.inj heq).1.symm hletter.2
      subst hnil
      obtain ⟨es', rest', rfl, htext, htakes⟩ := marked_atLeast hm hx hes hne rest
      exact ⟨x :: (es ++ es'), rest', by simpa using heq, htext, htakes⟩
    · obtain ⟨es, rest, rfl, hes, hstop⟩ := exists_spaced Char.isDigit cs
      have htakes := takes_digits digitClass_decimal hd (hds.append hes) hstop
      refine ⟨es, rest, rfl, ⟨_, .decimal hd (hds.append hes)⟩, fun pos => ?_⟩
      rw [← List.append_assoc] at hmark
      have hnone : ∀ m ∈ radixMarks, ¬ MarkedAt m (d :: ds ++ es ++ rest) :=
        fun m hm hat => hmark ⟨m, hm, hat⟩
      refine .choiceLater (prefixed_fails rfl rfl (by decide) (hnone ⟨16, 'x', 'X', isHexDigit⟩
        (by simp [radixMarks])) pos) ?_
      refine .choiceLater (prefixed_fails rfl rfl (by decide) (hnone ⟨8, 'o', 'O', isOctalDigit⟩
        (by simp [radixMarks])) pos) ?_
      exact .choiceLater (prefixed_fails rfl rfl (by decide) (hnone ⟨2, 'b', 'B', isBinaryDigit⟩
        (by simp [radixMarks])) pos) (htakes pos)

end SafeExpr.Grammar
