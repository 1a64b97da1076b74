/-
  SafeExpr/Proofs/Value/KeyText.lean
  ==================================
  **The texts of keys tell the keys apart.**

  Among hashable values without floats, the first character of a text tells what kind of
  value it is of (`opening`), and where the text ends can be seen from the text itself: in
  front of a comma or a closing parenthesis, two keys have the same characters only if they
  are the same (`Apart`).  So different keys have different texts.  What `str` gives is
  another matter: a string is its own text, so it may well be the text of some other key.
-/
import SafeExpr.Proofs.Grammar.Lexeme
import SafeExpr.Proofs.Json.Extent
import SafeExpr.Proofs.Json.RoundTrip
import SafeExpr.Proofs.Value.Elements
import SafeExpr.Proofs.Value.Spelling

namespace SafeExpr

namespace Value

open JsonText (Stops readNumber signText)

/-! ### First characters -/

/-- The kinds of text that keys have. -/
inductive Opening where
  | none | yes | no | number | string | tuple | other
deriving DecidableEq

/-- What a text is of, by its first character. -/
def openingOf (c : Char) : Opening :=
  if c = 'N' then .none
  else if c = 'T' then .yes
  else if c = 'F' then .no
  else if c = '(' then .tuple
  else if c = '\'' || c = '"' then .string
  else if c = '-' || c.isDigit then .number
  else .other

def opening : Value → Opening
  | none => .none
  | bool true => .yes
  | bool false => .no
  | int _ => .number
  | str _ => .string
  | tuple _ => .tuple
  | _ => .other

theorem openingOf_startsNumber {c : Char} (h : JsonText.StartsNumber c) :
    openingOf c = .number := by
  have hall : "-0123456789".toList.all (fun c => openingOf c = .number) = true := by decide
  simpa using List.all_eq_true.mp hall c h.mem

theorem openingOf_quote {q : Char} (h : IsQuote q) : openingOf q = .string := by
  rcases h with rfl | rfl
  · decide
  · decide

theorem spelling_eq_signText (n : Int64) :
    (int n).spelling = signText (decide (n.toInt < 0)) ++ Nat.toDigits 10 n.toInt.natAbs := by
  rw [← jsonText_int, jsonText_digits]

/-- The text of a key is of its kind. -/
theorem IsKey.exists_spelling {v : Value} (hv : v.IsKey) :
    ∃ c cs, v.spelling = c :: cs ∧ openingOf c = v.opening := by
  cases v with
  | none => exact ⟨'N', _, rfl, rfl⟩
  | bool b =>
    cases b with
    | true => exact ⟨'T', _, rfl, rfl⟩
    | false => exact ⟨'F', _, rfl, rfl⟩
  | int n =>
    obtain ⟨c, cs, hc, hcs⟩ :=
      JsonText.exists_signText_toDigits (decide (n.toInt < 0)) n.toInt.natAbs
    exact ⟨c, cs, (spelling_eq_signText n).trans hcs, openingOf_startsNumber hc⟩
  | str s =>
    have htext := stringText_quoteValue s
    rw [← spelling_str] at htext
    generalize (str s).spelling = text at htext
    obtain ⟨hq, -⟩ := htext
    exact ⟨_, _, rfl, openingOf_quote hq⟩
  | tuple vs => exact ⟨'(', _, spelling_tuple vs, rfl⟩
  | float x => exact absurd (List.mem_singleton_self _) (hv.floatFree x)
  | list | dict | set => cases hv.hashable

/-! ### Ends -/

/-- What stands behind an item of a tuple, or nothing. -/
def EndsItem (rest : List Char) : Prop := ∀ c ∈ rest.head?, c = ',' ∨ c = ')'

theorem endsItem_nil : EndsItem [] := by
  intro c hc
  cases hc

theorem endsItem_comma (rest : List Char) : EndsItem (',' :: rest) := by
  rintro c ⟨⟩
  exact Or.inl rfl

theorem endsItem_close (rest : List Char) : EndsItem (')' :: rest) := by
  rintro c ⟨⟩
  exact Or.inr rfl

theorem EndsItem.stops {rest : List Char} (h : EndsItem rest) : Stops rest := by
  intro c hc
  rcases h c hc with rfl | rfl
  · decide
  · decide

/-! ### Texts that end where they end -/

/-- No other key has the text, whatever stands behind it. -/
def Apart (v : Value) : Prop :=
  ∀ ⦃w : Value⦄ ⦃rest rest' : List Char⦄, w.IsKey → EndsItem rest → EndsItem rest' →
    v.spelling ++ rest = w.spelling ++ rest' → v = w ∧ rest = rest'

/-- Keys of one text are of one kind. -/
theorem opening_eq {v w : Value} (hv : v.IsKey) (hw : w.IsKey) {rest rest' : List Char}
    (h : v.spelling ++ rest = w.spelling ++ rest') : v.opening = w.opening := by
  obtain ⟨c, cs, hvtext, hvkind⟩ := hv.exists_spelling
  obtain ⟨d, ds, hwtext, hwkind⟩ := hw.exists_spelling
  rw [hvtext, hwtext] at h
  rw [← hvkind, ← hwkind, List.head_eq_of_cons_eq h]

/-- The number is read off its text, whatever ends it. -/
theorem readNumber_spelling (n : Int64) {rest : List Char} (h : Stops rest) :
    readNumber ((int n).spelling ++ rest) =
      some (⟨decide (n.toInt < 0), n.toInt.natAbs, 0, true⟩, rest) := by
  have hsize : n.toInt.natAbs ≤ JsonText.maxSignificand :=
    Nat.le_trans (natAbs_toInt_le n) (by decide)
  have hread := JsonText.readNumber_toDigits (decide (n.toInt < 0)) hsize JsonText.delimited_nil
  obtain ⟨c, taken, -, htaken, hextent⟩ := JsonText.readNumber_extent hread
  rw [List.append_nil, List.append_nil] at htaken
  rw [spelling_eq_signText, htaken]
  exact hextent rest h

theorem apart_int (n : Int64) (hn : (int n).IsKey) : (int n).Apart := by
  intro w rest rest' hw hrest hrest' h
  have hkind := opening_eq hn hw h
  cases w with
  | int m =>
    have hread := readNumber_spelling n hrest.stops
    rw [h, readNumber_spelling m hrest'.stops, Option.some.injEq, Prod.mk.injEq] at hread
    have hvalue := JsonText.value?_int n
    rw [← hread.1, JsonText.value?_int m] at hvalue
    exact ⟨(Option.some.inj hvalue).symm, hread.2.symm⟩
  | bool b => cases b <;> cases hkind
  | _ => cases hkind

theorem apart_str (s : String) (hs : (str s).IsKey) : (str s).Apart := by
  intro w rest rest' hw hrest hrest' h
  have hkind := opening_eq hs hw h
  cases w with
  | str t =>
    have hstarts : (str t).spelling <+: (str s).spelling ++ rest := ⟨rest', h.symm⟩
    have hstext := stringText_quoteValue s
    have httext := stringText_quoteValue t
    rw [← spelling_str] at hstext httext
    have heq := Grammar.string_eq_of_begins hstext httext hstarts
    have hread := readQuoted_quoteValue s 0
    rw [← spelling_str, ← heq, spelling_str, readQuoted_quoteValue t 0] at hread
    rw [heq] at h
    exact ⟨congrArg str (Except.ok.inj hread).symm, List.append_cancel_left h⟩
  | bool b => cases b <;> cases hkind
  | _ => cases hkind

/-! ### Tuples -/

section Tuples

variable {vs ws : List Value} {rest rest' : List Char}

/-- Behind an item there is a comma or the closing parenthesis. -/
theorem endsItem_continued (texts : List (List Char)) (rest : List Char) :
    EndsItem (continued texts ++ ')' :: rest) := by
  cases texts with
  | nil => exact endsItem_close rest
  | cons cs texts => exact endsItem_comma _

theorem continued_inj (hvs : ∀ v ∈ vs, v.Apart) (hws : ∀ w ∈ ws, w.IsKey)
    (h : continued (vs.map spelling) ++ ')' :: rest =
      continued (ws.map spelling) ++ ')' :: rest') : vs = ws ∧ rest = rest' := by
  induction vs generalizing ws with
  | nil =>
    cases ws with
    | nil => exact ⟨rfl, (List.cons.inj h).2⟩
    | cons w ws => cases h
  | cons v vs ih =>
    cases ws with
    | nil => cases h
    | cons w ws =>
      obtain ⟨hv, hvmore⟩ := List.forall_mem_cons.mp hvs
      obtain ⟨hw, hwmore⟩ := List.forall_mem_cons.mp hws
      have hitems : v.spelling ++ (continued (vs.map spelling) ++ ')' :: rest) =
          w.spelling ++ (continued (ws.map spelling) ++ ')' :: rest') := by
        simpa [continued] using h
      obtain ⟨rfl, hmore⟩ := hv hw (endsItem_continued _ _) (endsItem_continued _ _) hitems
      obtain ⟨rfl, hrest⟩ := ih hvmore hwmore hmore
      exact ⟨rfl, hrest⟩

/-- Behind the comma of the first item. -/
theorem behindComma_inj (hvs : ∀ v ∈ vs, v.Apart) (hws : ∀ w ∈ ws, w.IsKey)
    (h : behindComma (vs.map spelling) ++ ')' :: rest =
      behindComma (ws.map spelling) ++ ')' :: rest') : vs = ws ∧ rest = rest' := by
  refine continued_inj hvs hws ?_
  cases vs with
  | nil =>
    cases ws with
    | nil => exact h
    | cons w ws => cases h
  | cons v vs =>
    cases ws with
    | nil => cases h
    | cons w ws => exact congrArg (',' :: ·) h

theorem tupled_inj (hvkeys : ∀ v ∈ vs, v.IsKey) (hvs : ∀ v ∈ vs, v.Apart)
    (hws : ∀ w ∈ ws, w.IsKey)
    (h : tupled (vs.map spelling) ++ ')' :: rest = tupled (ws.map spelling) ++ ')' :: rest') :
    vs = ws ∧ rest = rest' := by
  -- no key begins with what closes the tuple
  have hclose : ∀ {v : Value}, v.IsKey → ∀ behind rest, v.spelling ++ behind ≠ ')' :: rest := by
    intro v hv behind rest heq
    obtain ⟨c, cs, htext, hkind⟩ := hv.exists_spelling
    rw [htext] at heq
    rw [List.head_eq_of_cons_eq heq] at hkind
    cases v with
    | bool b => cases b <;> cases hkind
    | float x => exact absurd (List.mem_singleton_self _) (hv.floatFree x)
    | list | dict | set => cases hv.hashable
    | _ => cases hkind
  cases vs with
  | nil =>
    cases ws with
    | nil => exact ⟨rfl, (List.cons.inj h).2⟩
    | cons w ws =>
      rw [List.map_cons, tupled, List.append_assoc] at h
      exact absurd h.symm (hclose (hws w List.mem_cons_self) _ _)
  | cons v vs =>
    obtain ⟨hv, hvmore⟩ := List.forall_mem_cons.mp hvs
    cases ws with
    | nil =>
      rw [List.map_cons, tupled, List.append_assoc] at h
      exact absurd h (hclose (hvkeys v List.mem_cons_self) _ _)
    | cons w ws =>
      obtain ⟨hw, hwmore⟩ := List.forall_mem_cons.mp hws
      rw [List.map_cons, List.map_cons, tupled, tupled, List.append_assoc, List.append_assoc] at h
      obtain ⟨rfl, hmore⟩ := hv hw (endsItem_comma _) (endsItem_comma _) h
      obtain ⟨rfl, hrest⟩ := behindComma_inj hvmore hwmore (List.cons.inj hmore).2
      exact ⟨rfl, hrest⟩

end Tuples

/-- The items of a key are keys. -/
theorem IsKey.of_mem {v : Value} {vs : List Value} (h : (tuple vs).IsKey) (hv : v ∈ vs) :
    v.IsKey :=
  ⟨isHashable_of_mem h.hashable hv, fun x hx => h.floatFree x (mem_numbersAll.mpr ⟨v, hv, hx⟩)⟩

theorem apart_tuple {vs : List Value} (hkey : (tuple vs).IsKey) (hvs : ∀ v ∈ vs, v.Apart) :
    (tuple vs).Apart := by
  intro w rest rest' hw hrest hrest' h
  have hkind := opening_eq hkey hw h
  cases w with
  | tuple ws =>
    rw [spelling_tuple, spelling_tuple] at h
    have hinner : tupled (vs.map spelling) ++ ')' :: rest =
        tupled (ws.map spelling) ++ ')' :: rest' := by
      simpa using h
    obtain ⟨rfl, hsame⟩ := tupled_inj (fun v hv => hkey.of_mem hv) hvs
      (fun v hv => hw.of_mem hv) hinner
    exact ⟨rfl, hsame⟩
  | bool b => cases b <;> cases hkind
  | _ => cases hkind

/-- Of the kinds that have one text only. -/
theorem apart_word {v : Value} (hv : v.IsKey)
    (hword : ∀ {w : Value}, w.IsKey → v.opening = w.opening → v = w) : v.Apart := by
  intro w rest rest' hw hrest hrest' h
  obtain rfl := hword hw (opening_eq hv hw h)
  exact ⟨rfl, List.append_cancel_left h⟩

/-- **Keys are told apart by their texts**, wherever an item may end. -/
theorem IsKey.apart (v : Value) (hv : v.IsKey) : v.Apart := by
  cases v with
  | none =>
    refine apart_word hv fun {w} hw hkind => ?_
    cases w with
    | none => rfl
    | bool b => cases b <;> cases hkind
    | _ => cases hkind
  | bool b =>
    refine apart_word hv fun {w} hw hkind => ?_
    cases w with
    | bool b' => cases b <;> cases b' <;> first | rfl | cases hkind
    | _ => cases b <;> cases hkind
  | int n => exact apart_int n hv
  | str s => exact apart_str s hv
  | tuple vs =>
    refine apart_tuple hv fun w hw => ?_
    have := List.sizeOf_lt_of_mem hw
    exact IsKey.apart w (hv.of_mem hw)
  | float x => exact absurd (List.mem_singleton_self _) (hv.floatFree x)
  | list | dict | set => cases hv.hashable
termination_by sizeOf v

/-- **Different keys have different texts.** -/
theorem render_injective_of_isKey {v w : Value} (hv : v.IsKey) (hw : w.IsKey)
    (h : v.render = w.render) : v = w := by
  have hspelling : v.spelling ++ [] = w.spelling ++ [] := by
    rw [spelling, spelling, h]
  exact (IsKey.apart v hv hw endsItem_nil endsItem_nil hspelling).1

end Value

end SafeExpr
