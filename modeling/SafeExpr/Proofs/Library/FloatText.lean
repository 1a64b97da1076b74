/-
  SafeExpr/Proofs/Library/FloatText.lean
  ======================================
  **Which texts `float` reads.**

  A decimal number is written with digits, an optional point and an optional exponent
  (`DecimalText`).  Where the underscores of a text all stand between two digits, `float` reads
  it exactly if it is such a number, or an infinity or not a number by name, with at most one
  sign in front (`NumberText`).  Underscores that stand elsewhere are passed over as well, so
  that more is read than `int` or the grammar would: the whole of it is `FloatText`.
-/
import SafeExpr.Proofs.Library.Numerals

namespace SafeExpr

/-! ### Decimal numbers -/

/-- What stands behind the whole digits, and the digits in it: nothing, or a point and digits. -/
inductive PlacesText : List Char → List Char → Prop
  | absent : PlacesText [] []
  | point {ds} (hds : AllDigits ds) : PlacesText ('.' :: ds) ds

inductive ExponentText : List Char → Prop
  | absent : ExponentText []
  | marked {e sign ds} (he : e = 'e' ∨ e = 'E') (hsign : sign ∈ signs) (hds : AllDigits ds)
    (hne : ds ≠ []) : ExponentText (e :: (sign ++ ds))

/-- Digits, an optional point among or around them, and an optional exponent. -/
inductive DecimalText : List Char → Prop
  | intro {whole places ds exponent} (hwhole : AllDigits whole) (hplaces : PlacesText places ds)
    (hsome : whole ++ ds ≠ []) (hexponent : ExponentText exponent) :
    DecimalText (whole ++ (places ++ exponent))

/-- An infinity, or not a number, in any case. -/
def IsSpecial (cs : List Char) : Prop :=
  ∃ w ∈ ["inf", "infinity", "nan"], cs.map Char.toLower = w.toList

/-- A number without its sign. -/
def IsMagnitude (cs : List Char) : Prop := IsSpecial cs ∨ DecimalText cs

/-! ### Rows of digits -/

theorem readDigits_isSome_iff {cs : List Char} (value : Nat) :
    (readDigits 10 value cs).isSome = true ↔ AllDigits cs := by
  have hdigit : ∀ {c : Char} {d : Nat}, digitValue? c = some d → (d < 10 ↔ c.isDigit = true) := by
    intro c d h
    by_cases hc : c.isDigit = true
    · have hvalue := digitClass_decimal.value hc
      rw [h, Option.some.injEq] at hvalue
      exact iff_of_true (hvalue ▸ digitClass_decimal.bound hc) hc
    · rw [digitValue?, if_neg hc] at h
      refine iff_of_false ?_ hc
      split at h
      · cases h
        omega
      · split at h
        · cases h
          omega
        · cases h
  induction cs generalizing value with
  | nil => exact iff_of_true rfl (List.forall_mem_nil _)
  | cons c cs ih =>
    have hcons : AllDigits (c :: cs) ↔ c.isDigit = true ∧ AllDigits cs := List.forall_mem_cons
    rw [hcons, readDigits]
    cases hd : digitValue? c with
    | none =>
      have hc : ¬ c.isDigit = true := by
        intro hc
        rw [digitClass_decimal.value hc] at hd
        cases hd
      exact iff_of_false Bool.false_ne_true fun h => hc h.1
    | some d =>
      dsimp only
      by_cases hlt : d < 10
      · rw [if_pos hlt, and_iff_right ((hdigit hd).mp hlt)]
        exact ih _
      · rw [if_neg hlt]
        exact iff_of_false Bool.false_ne_true fun h => hlt ((hdigit hd).mpr h.1)

theorem readNat?_isSome_iff {cs : List Char} :
    (readNat? 10 cs).isSome = true ↔ AllDigits cs ∧ cs ≠ [] := by
  cases cs with
  | nil => exact iff_of_false Bool.false_ne_true fun h => h.2 rfl
  | cons c cs =>
    rw [and_iff_left (List.cons_ne_nil c cs)]
    exact readDigits_isSome_iff 0

/-- Digits up to what is none. -/
theorem span_digits {ds rest : List Char} (hds : AllDigits ds)
    (hrest : ∀ c ∈ rest.head?, c.isDigit = false) :
    (ds ++ rest).takeWhile Char.isDigit = ds ∧ (ds ++ rest).dropWhile Char.isDigit = rest :=
  span_of_ends hds hrest

theorem allDigits_takeWhile (cs : List Char) : AllDigits (cs.takeWhile Char.isDigit) :=
  List.all_eq_true.mp (List.all_takeWhile)

/-! ### The parts of a decimal number -/

theorem isSome_cast (n : Option Nat) :
    (do let a ← n; pure (a : Int) : Option Int).isSome = n.isSome := by
  cases n <;> rfl

theorem readExponent?_isSome_iff {cs : List Char} :
    (readExponent? cs).isSome = true ↔ ExponentText cs := by
  constructor
  · intro h
    cases cs with
    | nil => exact .absent
    | cons e cs =>
      unfold readExponent? at h
      dsimp only at h
      split at h
      · next he =>
        have he : e = 'e' ∨ e = 'E' := by simpa using he
        have hmarked : ∀ sign ∈ signs, ∀ {ds : List Char}, (readNat? 10 ds).isSome = true →
            ExponentText (e :: (sign ++ ds)) := by
          intro sign hsign ds hds
          obtain ⟨hall, hne⟩ := readNat?_isSome_iff.mp hds
          exact .marked he hsign hall hne
        split at h
        · rw [Option.isSome_map] at h
          exact hmarked ['+'] (by simp [signs]) h
        · rw [Option.isSome_map, isSome_cast] at h
          exact hmarked ['-'] (by simp [signs]) h
        · rw [Option.isSome_map] at h
          exact hmarked [] (by simp [signs]) h
      · cases h
  · intro h
    cases h with
    | absent => rfl
    | @marked e sign ds he hsign hds hne =>
      have hread := readNat?_isSome_iff.mpr ⟨hds, hne⟩
      have he : (e = 'e' || e = 'E') = true := by simpa using he
      unfold readExponent?
      dsimp only
      rw [if_pos he]
      simp only [signs, List.mem_cons, List.not_mem_nil, or_false] at hsign
      rcases hsign with rfl | rfl | rfl
      · rw [List.nil_append]
        split
        · exact absurd (hds '+' List.mem_cons_self) (by decide)
        · exact absurd (hds '-' List.mem_cons_self) (by decide)
        · rwa [Option.isSome_map]
      · simpa using hread
      · cases hn : readNat? 10 ds with
        | none => simp [hn] at hread
        | some n => simp [hn]

theorem ExponentText.head_not_digit {cs : List Char} (h : ExponentText cs) :
    ∀ c ∈ cs.head?, c.isDigit = false ∧ c ≠ '.' := by
  cases h with
  | absent => nofun
  | marked he =>
    rintro _ ⟨⟩
    rcases he with rfl | rfl <;> decide

/-- A fraction is read part by part. -/
theorem readFraction?_isSome {whole places ds rest : List Char} (negative : Bool)
    (hwhole : AllDigits whole) (hplaces : PlacesText places ds)
    (hrest : ∀ c ∈ rest.head?, c.isDigit = false ∧ (places = [] → c ≠ '.')) :
    (readFraction? negative (whole ++ (places ++ rest))).isSome =
      ((readNat? 10 (whole ++ ds)).isSome && (readExponent? rest).isSome) := by
  unfold readFraction?
  cases hplaces with
  | absent =>
    obtain ⟨htake, hdrop⟩ := span_digits hwhole fun c hc => (hrest c hc).1
    dsimp only [List.nil_append]
    rw [htake, hdrop]
    have hplain : ∀ more, rest ≠ '.' :: more := by
      rintro more rfl
      exact (hrest '.' rfl).2 rfl rfl
    cases hn : readNat? 10 whole <;> cases he : readExponent? rest <;> simp [hn, he]
  | point hds =>
    have hpoint : ∀ c ∈ ('.' :: ds ++ rest).head?, c.isDigit = false := by simp
    obtain ⟨htake, hdrop⟩ := span_digits hwhole hpoint
    obtain ⟨htake', hdrop'⟩ := span_digits hds fun c hc => (hrest c hc).1
    dsimp only [List.cons_append] at htake hdrop ⊢
    rw [htake, hdrop]
    simp only [htake', hdrop']
    cases readNat? 10 (whole ++ ds) <;> cases readExponent? rest <;> rfl

/-- Every text has its digits, its point and what stands behind them. -/
theorem exists_fraction (cs : List Char) :
    ∃ whole places ds rest, cs = whole ++ (places ++ rest) ∧ AllDigits whole ∧
      PlacesText places ds ∧ ∀ c ∈ rest.head?, c.isDigit = false ∧ (places = [] → c ≠ '.') := by
  have hends : ∀ cs : List Char, ∀ c ∈ (cs.dropWhile Char.isDigit).head?, c.isDigit = false := by
    intro cs c hc
    have hnot := List.head?_dropWhile_not Char.isDigit cs
    rw [hc] at hnot
    simpa using hnot
  have hsplit : ∀ cs : List Char, cs = cs.takeWhile Char.isDigit ++ cs.dropWhile Char.isDigit :=
    fun cs => List.takeWhile_append_dropWhile.symm
  by_cases hpoint : ∃ rest, cs.dropWhile Char.isDigit = '.' :: rest
  · obtain ⟨rest, hrest⟩ := hpoint
    refine ⟨cs.takeWhile Char.isDigit, _, _, rest.dropWhile Char.isDigit, ?_,
      allDigits_takeWhile cs, .point (allDigits_takeWhile rest),
      fun c hc => ⟨hends rest c hc, nofun⟩⟩
    rw [List.cons_append, ← hsplit rest, ← hrest]
    exact hsplit cs
  · refine ⟨cs.takeWhile Char.isDigit, [], [], cs.dropWhile Char.isDigit, hsplit cs,
      allDigits_takeWhile cs, .absent, fun c hc => ⟨hends cs c hc, ?_⟩⟩
    rintro - rfl
    cases hd : cs.dropWhile Char.isDigit with
    | nil =>
      rw [hd] at hc
      cases hc
    | cons x rest =>
      rw [hd] at hc
      cases hc
      exact hpoint ⟨rest, hd⟩

theorem readFraction?_isSome_iff (negative : Bool) {cs : List Char} :
    (readFraction? negative cs).isSome = true ↔ DecimalText cs := by
  constructor
  · intro h
    obtain ⟨whole, places, ds, rest, rfl, hwhole, hplaces, hrest⟩ := exists_fraction cs
    rw [readFraction?_isSome negative hwhole hplaces hrest, Bool.and_eq_true,
      readNat?_isSome_iff, readExponent?_isSome_iff] at h
    exact .intro hwhole hplaces h.1.2 h.2
  · rintro ⟨hwhole, hplaces, hsome, hexponent⟩
    rename_i whole places ds exponent
    have hhead := hexponent.head_not_digit
    have hdigits : AllDigits ds := by
      cases hplaces with
      | absent => exact List.forall_mem_nil _
      | point hds => exact hds
    rw [readFraction?_isSome negative hwhole hplaces fun c hc =>
      ⟨(hhead c hc).1, fun _ => (hhead c hc).2⟩, Bool.and_eq_true, readNat?_isSome_iff,
      readExponent?_isSome_iff]
    exact ⟨⟨fun d hd => (List.mem_append.mp hd).elim (hwhole d) (hdigits d), hsome⟩, hexponent⟩

/-! ### Signs -/

def SignFree (cs : List Char) : Prop := ∀ c ∈ cs.head?, c ≠ '+' ∧ c ≠ '-'

/-- The text begins with this sign, or with none. -/
structure SplitsAt (cs sign body : List Char) : Prop where
  sign_mem : sign ∈ signs
  eq : cs = sign ++ body
  free : sign = [] → SignFree body

theorem SplitsAt.of_free {sign body : List Char} (hsign : sign ∈ signs) (h : SignFree body) :
    SplitsAt (sign ++ body) sign body := ⟨hsign, rfl, fun _ => h⟩

theorem exists_splitsAt (cs : List Char) : ∃ sign body, SplitsAt cs sign body := by
  by_cases hminus : cs.head? = some '-'
  · obtain ⟨body, rfl⟩ := List.head?_eq_some_iff.mp hminus
    exact ⟨['-'], body, by simp [signs], rfl, nofun⟩
  · by_cases hplus : cs.head? = some '+'
    · obtain ⟨body, rfl⟩ := List.head?_eq_some_iff.mp hplus
      exact ⟨['+'], body, by simp [signs], rfl, nofun⟩
    · refine ⟨[], cs, by simp [signs], rfl, fun _ c hc => ⟨?_, ?_⟩⟩
      · rintro rfl
        exact hplus hc
      · rintro rfl
        exact hminus hc

theorem SplitsAt.splitSign_eq {cs sign body : List Char} (h : SplitsAt cs sign body) :
    Builtins.splitSign cs = (decide (sign = ['-']), body) := by
  obtain ⟨hsign, rfl, hfree⟩ := h
  simp only [signs, List.mem_cons, List.not_mem_nil, or_false] at hsign
  rcases hsign with rfl | rfl | rfl
  · have hfree := hfree rfl
    unfold Builtins.splitSign
    dsimp only [List.nil_append]
    split
    · exact absurd rfl (hfree '-' rfl).2
    · exact absurd rfl (hfree '+' rfl).1
    · rfl
  · rfl
  · rfl

theorem isSpecial_iff {cs : List Char} :
    IsSpecial cs ↔ (cs.map Char.toLower = "inf".toList ∨ cs.map Char.toLower = "infinity".toList) ∨
      cs.map Char.toLower = "nan".toList := by
  simp only [IsSpecial, List.mem_cons, List.not_mem_nil, or_false, exists_eq_or_imp,
    exists_eq_left, or_assoc]

theorem IsSpecial.mem_lower {cs : List Char} (h : IsSpecial cs) {c : Char} (hc : c ∈ cs) :
    c.toLower ∈ "infinityan".toList := by
  obtain ⟨w, hw, hcs⟩ := h
  have hsub : ∀ w ∈ ["inf", "infinity", "nan"], w.toList ⊆ "infinityan".toList := by decide
  exact hsub w hw (hcs ▸ List.mem_map_of_mem hc)

theorem IsSpecial.not_digit {cs : List Char} (h : IsSpecial cs) {c : Char} (hc : c ∈ cs) :
    ¬ c.isDigit = true := by
  intro hdigit
  have hnone :
      "0123456789".toList.all (fun c => !"infinityan".toList.contains c.toLower) = true := by decide
  have hnot := List.all_eq_true.mp hnone c (mem_of_isDigit hdigit)
  rw [List.contains_iff_mem.mpr (h.mem_lower hc)] at hnot
  cases hnot

theorem IsSpecial.not_underscore {cs : List Char} (h : IsSpecial cs) : '_' ∉ cs :=
  fun hc => absurd (h.mem_lower hc) (by decide)

theorem IsMagnitude.signFree {cs : List Char} (h : IsMagnitude cs) : SignFree cs := by
  intro c hc
  rcases h with hspecial | ⟨hwhole, hplaces, hsome, hexponent⟩
  · have hmem := hspecial.mem_lower (List.mem_of_mem_head? hc)
    constructor <;> rintro rfl <;> exact absurd hmem (by decide)
  · rename_i whole places ds exponent
    have hdigit : ∀ {d : Char}, d.isDigit = true → d ≠ '+' ∧ d ≠ '-' := by
      intro d hd
      constructor <;> rintro rfl <;> cases hd
    cases whole with
    | cons d whole =>
      cases hc
      exact hdigit (hwhole _ List.mem_cons_self)
    | nil =>
      cases hplaces with
      | absent => exact absurd rfl hsome
      | point hds =>
        cases hc
        decide

theorem readMagnitude_isSome_iff (negative : Bool) (body : List Char) (infinite nan : Double) :
    (if body.map Char.toLower = "inf".toList || body.map Char.toLower = "infinity".toList then
        some infinite
      else if body.map Char.toLower = "nan".toList then some nan
      else readFraction? negative body).isSome = true ↔ IsMagnitude body := by
  rw [IsMagnitude, isSpecial_iff, ← readFraction?_isSome_iff negative]
  simp only [Bool.or_eq_true, decide_eq_true_eq]
  split
  · next hinfinite => exact iff_of_true rfl (Or.inl (Or.inl hinfinite))
  · next hfinite =>
    split
    · next hnan => exact iff_of_true rfl (Or.inl (Or.inr hnan))
    · next hnumber => rw [or_iff_right (not_or_intro hfinite hnumber)]

theorem SplitsAt.readDouble?_isSome_iff {cs sign body : List Char} (h : SplitsAt cs sign body) :
    (readDouble? cs).isSome = true ↔ IsMagnitude body := by
  obtain ⟨hsign, rfl, hfree⟩ := h
  simp only [signs, List.mem_cons, List.not_mem_nil, or_false] at hsign
  rcases hsign with rfl | rfl | rfl
  · have hfree := hfree rfl
    unfold readDouble?
    dsimp only [List.nil_append]
    split
    · exact absurd rfl (hfree '-' rfl).2
    · exact absurd rfl (hfree '+' rfl).1
    · exact readMagnitude_isSome_iff _ _ _ _
  · exact readMagnitude_isSome_iff _ _ _ _
  · exact readMagnitude_isSome_iff _ _ _ _

/-- A sign and a number. -/
theorem readDouble?_isSome_iff {cs : List Char} :
    (readDouble? cs).isSome = true ↔
      ∃ sign ∈ signs, ∃ body, cs = sign ++ body ∧ IsMagnitude body := by
  constructor
  · intro h
    obtain ⟨sign, body, hsplit⟩ := exists_splitsAt cs
    exact ⟨sign, hsplit.sign_mem, body, hsplit.eq, hsplit.readDouble?_isSome_iff.mp h⟩
  · rintro ⟨sign, hsign, body, rfl, hbody⟩
    exact (SplitsAt.of_free hsign hbody.signFree).readDouble?_isSome_iff.mpr hbody

/-! ### Texts of numbers -/

/-- What `float` reads: a sign, and a number or what is one without its underscores.  Behind
    underscores a second sign may stand. -/
def FloatText (cs : List Char) : Prop :=
  ∃ sign ∈ signs, ∃ body, cs = sign ++ body ∧ SignFree body ∧
    (IsSpecial body ∨
      ∃ inner ∈ signs, ∃ digits, withoutUnderscores body = inner ++ digits ∧ IsMagnitude digits)

/-- Every underscore stands between two digits. -/
def UnderscoresBetween (cs : List Char) : Prop :=
  ∀ before after, cs = before ++ '_' :: after →
    (∃ c ∈ before.getLast?, c.isDigit = true) ∧ ∃ c ∈ after.head?, c.isDigit = true

/-- A sign, and a name or a decimal number that may have single underscores between digits. -/
def NumberText (cs : List Char) : Prop :=
  ∃ sign ∈ signs, ∃ body, cs = sign ++ body ∧
    (IsSpecial body ∨ DecimalText (withoutUnderscores body) ∧ UnderscoresBetween body)

theorem underscoresBetween_of_not_mem {cs : List Char} (h : '_' ∉ cs) : UnderscoresBetween cs := by
  rintro before after rfl
  exact absurd (List.mem_append_right before List.mem_cons_self) h

/-- A sign in front is no digit, and no underscore. -/
theorem underscoresBetween_sign {sign body : List Char} (hsign : sign ∈ signs) :
    UnderscoresBetween (sign ++ body) ↔ UnderscoresBetween body := by
  have hcons : ∀ {x : Char}, x ≠ '_' → x.isDigit = false →
      (UnderscoresBetween (x :: body) ↔ UnderscoresBetween body) := by
    intro x hplain hdigit
    constructor
    · rintro h before after rfl
      obtain ⟨⟨c, hc, hcdigit⟩, hafter⟩ := h (x :: before) after rfl
      refine ⟨⟨c, ?_, hcdigit⟩, hafter⟩
      cases before with
      | nil =>
        have hlast : x = c := by simpa using hc
        rw [← hlast, hdigit] at hcdigit
        cases hcdigit
      | cons y before => rwa [List.getLast?_cons_cons] at hc
    · intro h before after htext
      cases before with
      | nil =>
        cases htext
        exact absurd rfl hplain
      | cons y before =>
        rw [List.cons_append, List.cons.injEq] at htext
        obtain ⟨⟨c, hc, hcdigit⟩, hafter⟩ := h before after htext.2
        refine ⟨⟨c, ?_, hcdigit⟩, hafter⟩
        cases before with
        | nil => cases hc
        | cons z before => rwa [List.getLast?_cons_cons]
  simp only [signs, List.mem_cons, List.not_mem_nil, or_false] at hsign
  rcases hsign with rfl | rfl | rfl
  · rfl
  · exact hcons (by decide) (by decide)
  · exact hcons (by decide) (by decide)

/-- Without its underscores a text begins with a sign only if it does so itself, or begins with
    an underscore. -/
theorem signFree_withoutUnderscores {cs : List Char} (h : UnderscoresBetween cs) :
    SignFree (withoutUnderscores cs) ↔ SignFree cs := by
  cases cs with
  | nil => rfl
  | cons c cs =>
    by_cases hc : c = '_'
    · subst hc
      obtain ⟨⟨_, hnone, -⟩, -⟩ := h [] cs rfl
      cases hnone
    · have hkept : withoutUnderscores (c :: cs) = c :: withoutUnderscores cs :=
        List.filter_cons_of_pos (by simpa using hc)
      rw [hkept]
      rfl

/-- **The texts of numbers are those that `float` reads and whose underscores all stand between
two digits.** -/
theorem numberText_iff {cs : List Char} :
    NumberText cs ↔ FloatText cs ∧ UnderscoresBetween cs := by
  constructor
  · rintro ⟨sign, hsign, body, rfl, hspecial | ⟨hdecimal, hbetween⟩⟩
    · have hfree : SignFree body := IsMagnitude.signFree (Or.inl hspecial)
      refine ⟨⟨sign, hsign, body, rfl, hfree, Or.inl hspecial⟩, ?_⟩
      exact (underscoresBetween_sign hsign).mpr
        (underscoresBetween_of_not_mem hspecial.not_underscore)
    · have hmagnitude : IsMagnitude (withoutUnderscores body) := Or.inr hdecimal
      have hfree := (signFree_withoutUnderscores hbetween).mp hmagnitude.signFree
      refine ⟨⟨sign, hsign, body, rfl, hfree, Or.inr ?_⟩, ?_⟩
      · exact ⟨[], by simp [signs], _, rfl, hmagnitude⟩
      · exact (underscoresBetween_sign hsign).mpr hbetween
  · rintro ⟨⟨sign, hsign, body, rfl, hfree, hread⟩, hbetween⟩
    have hbetween := (underscoresBetween_sign hsign).mp hbetween
    refine ⟨sign, hsign, body, rfl, ?_⟩
    rcases hread with hspecial | ⟨inner, hinner, digits, htext, hmagnitude⟩
    · exact Or.inl hspecial
    · have hfree := (signFree_withoutUnderscores hbetween).mpr hfree
      have hdigits : withoutUnderscores body = digits := by
        have hsplit : SplitsAt ([] ++ withoutUnderscores body) [] _ :=
          .of_free (by simp [signs]) hfree
        have hsame := hsplit.splitSign_eq
        rw [List.nil_append, htext, (SplitsAt.of_free hinner hmagnitude.signFree).splitSign_eq,
          Prod.mk.injEq] at hsame
        rw [htext, ← hsame.2]
      rw [← hdigits] at hmagnitude
      rcases hmagnitude with hspecial | hdecimal
      · -- a name has no digits, so the text has no underscores
        have hplain : '_' ∉ body := by
          intro hmem
          obtain ⟨before, after, rfl⟩ := List.append_of_mem hmem
          obtain ⟨⟨c, hc, hdigit⟩, -⟩ := hbetween before after rfl
          have hkept : c ∈ withoutUnderscores (before ++ '_' :: after) := by
            refine List.mem_filter.mpr ⟨List.mem_append_left _ (List.mem_of_getLast? hc), ?_⟩
            simpa using digitClass_decimal.plain hdigit
          exact hspecial.not_digit hkept hdigit
        have hsame : withoutUnderscores body = body :=
          withoutUnderscores_of_forall fun d hd hdash => hplain (hdash ▸ hd)
        exact Or.inl (hsame ▸ hspecial)
      · exact Or.inr ⟨hdecimal, hbetween⟩

namespace Builtins

theorem readFloat?_isSome_iff {text : List Char} :
    (readFloat? text).isSome = true ↔ FloatText (trimBlanks text) := by
  obtain ⟨sign, body, hsplit⟩ := exists_splitsAt (trimBlanks text)
  have hbody : (readFloat? text).isSome = true ↔
      IsSpecial body ∨ SignFree body ∧ (readDouble? (withoutUnderscores body)).isSome = true := by
    rw [readFloat?, hsplit.splitSign_eq]
    dsimp only
    simp only [isSpecial_iff, Bool.or_eq_true, decide_eq_true_eq]
    split
    · next hinfinite => exact iff_of_true rfl (Or.inl (Or.inl hinfinite))
    · next hfinite =>
      split
      · next hnan => exact iff_of_true rfl (Or.inl (Or.inr hnan))
      · next hnumber =>
        rw [or_iff_right (not_or_intro hfinite hnumber)]
        split
        · next hsigned =>
          refine iff_of_false Bool.false_ne_true fun h => ?_
          rcases hsigned with hplus | hminus
          · exact (h.1 _ hplus).1 rfl
          · exact (h.1 _ hminus).2 rfl
        · next hunsigned =>
          have hfree : SignFree body := by
            intro c hc
            constructor <;> rintro rfl
            · exact hunsigned (Or.inl hc)
            · exact hunsigned (Or.inr hc)
          rw [Option.isSome_map, and_iff_right hfree]
  rw [hbody, readDouble?_isSome_iff]
  constructor
  · rintro (hspecial | ⟨hfree, hinner⟩)
    · have hfree : SignFree body := IsMagnitude.signFree (Or.inl hspecial)
      exact ⟨sign, hsplit.sign_mem, body, hsplit.eq, hfree, Or.inl hspecial⟩
    · exact ⟨sign, hsplit.sign_mem, body, hsplit.eq, hfree, Or.inr hinner⟩
  · rintro ⟨sign', hsign', body', htext, hfree', hread⟩
    -- the sign is split off in one way only
    have hsame := hsplit.splitSign_eq
    rw [htext, (SplitsAt.of_free hsign' hfree').splitSign_eq, Prod.mk.injEq] at hsame
    obtain ⟨-, rfl⟩ := hsame
    exact hread.imp_right fun hinner => ⟨hfree', hinner⟩

/-! ### Calls -/

def floatFunction : NativeFunction :=
  Library.native "float" { params := [⟨"x", .optional⟩], positionalOnly := 1 } (unary "float" float)

theorem floatFunction_mem : floatFunction ∈ builtins := by
  simp [builtins, floatFunction]

/-- **What `float` reads.**  A text is read if what is left between the blanks around it is a
`FloatText`, and refused otherwise, with an error that quotes it.  The texts of numbers are those
among the ones read in which no underscore is misplaced. -/
theorem float_reads {f : NativeFunction} (hf : f ∈ builtins) (hname : f.name = "float")
    (s : String) :
    let text := trimBlanks s.toList
    ((∃ x, f.Answers [.str s] (.ok (.float x))) ↔ FloatText text) ∧
    (¬ FloatText text → f.Answers [.str s] (.error { message := (Fault.notAFloat s).message })) ∧
    (NumberText text ↔ FloatText text ∧ UnderscoresBetween text) := by
  cases builtins_name_inj hf floatFunction_mem hname
  intro text
  have hrun : floatFunction.run [.str s] =
      (float (.str s)).mapError fun fault => { message := fault.message } := by
    simp only [floatFunction, Library.native, unary]
    cases float (.str s) <;> rfl
  have hfloat : float (.str s) =
      (readFloat? s.toList).elim (.error (.notAFloat s)) fun x => .ok (.float x) := by
    simp only [float, Value.given]
    cases readFloat? s.toList <;> rfl
  refine ⟨?_, ?_, numberText_iff⟩
  · rw [← readFloat?_isSome_iff]
    cases hread : readFloat? s.toList with
    | some x =>
      refine iff_of_true ⟨x, ?_⟩ rfl
      rw [NativeFunction.answers_iff [.str s] rfl, hrun, hfloat, hread]
      rfl
    | none =>
      refine iff_of_false ?_ Bool.false_ne_true
      rintro ⟨x, hx⟩
      rw [NativeFunction.answers_iff [.str s] rfl, hrun, hfloat, hread] at hx
      cases hx
  · intro hnot
    rw [← readFloat?_isSome_iff, Option.not_isSome_iff_eq_none] at hnot
    rw [NativeFunction.answers_iff [.str s] rfl, hrun, hfloat, hnot]
    rfl

/-- An underscore behind the digits, which neither `int` nor the grammar permits. -/
theorem float_reads_misplaced :
    (∃ x, floatFunction.Answers [.str "1_"] (.ok (.float x))) ∧ ¬ NumberText "1_".toList ∧
      intFunction.Answers [.str "1_"]
        (.error { message := (Fault.notAnInteger 10 "1_").message }) := by
  have htrim : trimBlanks "1_".toList = ['1', '_'] := by decide
  obtain ⟨hreads, -, hnumber⟩ := float_reads floatFunction_mem rfl "1_"
  rw [htrim] at hreads hnumber
  have hdecimal : DecimalText (['1'] ++ ([] ++ [])) :=
    .intro (by simp [AllDigits]) .absent (by simp) .absent
  refine ⟨hreads.mpr ⟨[], by simp [signs], ['1', '_'], rfl, by simp [SignFree], Or.inr ?_⟩, ?_, ?_⟩
  · exact ⟨[], by simp [signs], ['1'], rfl, Or.inr hdecimal⟩
  · intro h
    obtain ⟨-, _, hnone, -⟩ := (hnumber.mp h).2 ['1'] [] rfl
    cases hnone
  · rw [NativeFunction.answers_iff [.str "1_", .none] rfl, run_intFunction]
    rfl

end Builtins

end SafeExpr
