/-
  SafeExpr/Proofs/Text/Escape.lean
  ================================
  **What stands between quotes, piece by piece.**

  A text between quotes is cut from left to right into plain characters and escapes
  (`quotedPieces`).  A backslash takes the character behind it, and a numeric escape as many
  hexadecimal digits as it wants, or as there are.  A piece is good unless it is a numeric escape
  with too few digits or with a number that no character has.

  The decoder goes through the characters with an escape that may be open; it comes to the same
  as going through the pieces (`decodeText_eq`).  So it puts together what the pieces stand for,
  or reports the first that is not good, with its text and in its place (`readQuoted_ok_iff`,
  `readQuoted_bad`).
-/
import SafeExpr.Proofs.Number.Numeral
import SafeExpr.Proofs.Parse.Literal
import SafeExpr.Proofs.Text.Quoted

namespace SafeExpr

/-! ### Pieces -/

/-- One piece of the text between quotes. -/
inductive QuotedPiece where
  /-- A character that stands for itself. -/
  | plain (c : Char)
  /-- A backslash and one character. -/
  | escape (c : Char)
  /-- A backslash, the letter of a numeric escape, and digits. -/
  | numeric (letter : Char) (digits : List Char)
deriving DecidableEq, Repr

/-- The digits at the start of a text, at most `width` of them. -/
def leadingDigits (width : Nat) (cs : List Char) : List Char :=
  (cs.take width).takeWhile isHexDigit

/-- The pieces of the text between quotes. -/
def quotedPieces : List Char → List QuotedPiece
  | '\\' :: c :: rest =>
    match escapeWidth? c with
    | some width =>
      .numeric c (leadingDigits width rest) ::
        quotedPieces (rest.drop (leadingDigits width rest).length)
    | none => .escape c :: quotedPieces rest
  | c :: rest => .plain c :: quotedPieces rest
  | [] => []
termination_by cs => cs.length
decreasing_by
  all_goals simp only [List.length_drop, List.length_cons]
  all_goals omega

namespace QuotedPiece

/-- The characters of the piece, as they are written. -/
def text : QuotedPiece → List Char
  | plain c => [c]
  | escape c => ['\\', c]
  | numeric letter digits => '\\' :: letter :: digits

/-- A numeric escape has all digits that its letter wants, and they are the number of a
    character. -/
def Good : QuotedPiece → Prop
  | numeric letter digits =>
    escapeWidth? letter = some digits.length ∧ ∃ c : Char, c.toNat = numeral 16 digits
  | _ => True

/-- What the piece stands for. -/
def decoded : QuotedPiece → List Char
  | plain c => [c]
  | escape c => simpleEscape c
  | numeric _ digits => [Char.ofNat (numeral 16 digits)]

/-- The report of a piece that begins at byte `pos`. -/
def error (pos : Nat) (p : QuotedPiece) : ParseError :=
  ⟨.invalidEscape (String.ofList p.text), ⟨pos, pos + byteLength p.text⟩⟩

end QuotedPiece

theorem charOfCode?_eq_some_iff {n : Nat} {c : Char} : charOfCode? n = some c ↔ c.toNat = n := by
  constructor
  · intro h
    unfold charOfCode? at h
    split at h
    · next hn =>
      have hvalid : n.isValidChar := by simpa [Nat.isValidChar] using hn
      cases h
      rw [Char.ofNat, dif_pos hvalid]
      rfl
    · cases h
  · rintro rfl
    exact charOfCode?_toNat c

instance : DecidablePred QuotedPiece.Good
  | .plain _ => .isTrue trivial
  | .escape _ => .isTrue trivial
  | .numeric letter digits =>
    have : Decidable (∃ c : Char, c.toNat = numeral 16 digits) :=
      decidable_of_iff ((charOfCode? (numeral 16 digits)).isSome = true) (by
        simp only [Option.isSome_iff_exists, charOfCode?_eq_some_iff])
    inferInstanceAs (Decidable (_ ∧ _))

/-- The pieces are the whole text. -/
theorem flatMap_text_quotedPieces (cs : List Char) :
    (quotedPieces cs).flatMap QuotedPiece.text = cs := by
  fun_induction quotedPieces cs with
  | case1 c rest width hwidth ih =>
    have hprefix : leadingDigits width rest <+: rest :=
      (List.takeWhile_prefix _).trans (List.take_prefix _ _)
    rw [List.flatMap_cons, ih, QuotedPiece.text, List.cons_append, List.cons_append,
      List.prefix_iff_eq_append.mp hprefix]
  | case2 c rest hwidth ih =>
    rw [List.flatMap_cons, ih]
    rfl
  | case3 c rest hplain ih =>
    rw [List.flatMap_cons, ih]
    rfl
  | case4 => rfl

/-- Decodes the pieces from byte `pos` on, up to the first that is not good. -/
def decodePieces : Nat → List QuotedPiece → Except ParseError (List Char)
  | _, [] => .ok []
  | pos, p :: rest =>
    if p.Good then (p.decoded ++ ·) <$> decodePieces (pos + byteLength p.text) rest
    else .error (p.error pos)

/-! ### Digits -/

theorem isHexDigit_of_isHex {c : Char} (h : decodeText.isHex c = true) : isHexDigit c = true := by
  simp only [decodeText.isHex, digitValue?] at h
  simp only [isHexDigit, Bool.or_eq_true, Bool.and_eq_true, decide_eq_true_eq]
  have hle : ∀ {high : Char}, c.toNat ≤ high.toNat → c ≤ high := fun h => h
  split at h
  · next hdigit => exact Or.inl (Or.inl hdigit)
  · split at h
    · next hsmall =>
      simp only [Option.any_some, decide_eq_true_eq, Bool.and_eq_true] at h hsmall
      have hlow : 'a'.toNat ≤ c.toNat := hsmall.1
      have hbase : 'a'.toNat + 5 = 'f'.toNat := rfl
      exact Or.inl (Or.inr ⟨hsmall.1, hle (by omega)⟩)
    · split at h
      · next hcapital =>
        simp only [Option.any_some, decide_eq_true_eq, Bool.and_eq_true] at h hcapital
        have hlow : 'A'.toNat ≤ c.toNat := hcapital.1
        have hbase : 'A'.toNat + 5 = 'F'.toNat := rfl
        exact Or.inr ⟨hcapital.1, hle (by omega)⟩
      · cases h

/-- The decoder takes the digits of the grammar. -/
theorem isHex_iff {c : Char} : decodeText.isHex c = true ↔ isHexDigit c = true := by
  constructor
  · exact isHexDigit_of_isHex
  · intro h
    simp [decodeText.isHex, digitClass_hex.value h, digitClass_hex.bound h]

theorem byteLength_of_isHexDigit {ds : List Char} (h : ∀ d ∈ ds, isHexDigit d = true) :
    byteLength ds = ds.length := by
  induction ds with
  | nil => rfl
  | cons d ds ih =>
    rw [List.forall_mem_cons] at h
    rw [byteLength_cons, utf8Size_of_isHex (isHex_iff.mpr h.1), ih h.2, List.length_cons,
      Nat.add_comm]

/-- What a whole numeric escape is decoded to, where it is of any character. -/
theorem charOfDigits {ds : List Char} (h : ∀ d ∈ ds, isHexDigit d = true) (hne : ds ≠ []) :
    (readNat? 16 ds).bind charOfCode? = charOfCode? (numeral 16 ds) := by
  rw [digitClass_hex.readNat?_eq h hne, Option.bind_some]

theorem leadingDigits_nil (width : Nat) : leadingDigits width [] = [] := by
  rw [leadingDigits, List.take_nil, List.takeWhile_nil]

theorem leadingDigits_zero (cs : List Char) : leadingDigits 0 cs = [] := rfl

theorem leadingDigits_cons (width : Nat) (d : Char) (rest : List Char) :
    leadingDigits (width + 1) (d :: rest) =
      if isHexDigit d then d :: leadingDigits width rest else [] := by
  rw [leadingDigits, List.take_succ_cons, List.takeWhile_cons]
  rfl

theorem forall_mem_leadingDigits (width : Nat) (cs : List Char) :
    ∀ d ∈ leadingDigits width cs, isHexDigit d = true := by
  intro d hd
  exact List.all_eq_true.mp (List.all_takeWhile) d hd

/-! ### An escape that is open -/

section Open

variable {letter : Char} {width : Nat} (hwidth : escapeWidth? letter = some width)
include hwidth

/-- The error of an open escape is that of its piece. -/
theorem OpenEscape.error_eq {start : Nat} {ds : List Char} (hds : ∀ d ∈ ds, isHexDigit d = true) :
    (OpenEscape.mk start letter width ds).error = (QuotedPiece.numeric letter ds).error start := by
  have hlength : byteLength ('\\' :: letter :: ds) = 2 + ds.length := by
    rw [byteLength_cons, byteLength_cons, utf8Size_of_escapeWidth? hwidth,
      byteLength_of_isHexDigit hds, ← Nat.add_assoc]
    rfl
  rw [OpenEscape.error, QuotedPiece.error, QuotedPiece.text, hlength, Nat.add_assoc]

/-- A whole escape stands for a character only if it is good. -/
theorem charOfCode?_of_full {ds : List Char} (hfull : ds.length = width) :
    charOfCode? (numeral 16 ds) =
      if (QuotedPiece.numeric letter ds).Good then some (Char.ofNat (numeral 16 ds)) else none := by
  have hgood : (QuotedPiece.numeric letter ds).Good ↔
      ∃ c, charOfCode? (numeral 16 ds) = some c := by
    simp only [QuotedPiece.Good, hwidth, hfull, true_and, charOfCode?_eq_some_iff]
  cases hc : charOfCode? (numeral 16 ds) with
  | some c => rw [if_pos (hgood.mpr ⟨c, hc⟩), ← charOfCode?_eq_some_iff.mp hc, Char.ofNat_toNat]
  | none => rw [if_neg (by simp [hgood, hc])]

theorem not_good_of_short {ds : List Char} (hshort : ds.length < width) :
    ¬ (QuotedPiece.numeric letter ds).Good := by
  rintro ⟨hwidth', -⟩
  rw [hwidth, Option.some.injEq] at hwidth'
  omega

/-- An open escape takes the digits that it still wants, or as many as there are. -/
theorem decodeText_open (start : Nat) (rest : List Char) :
    ∀ (ds : List Char) (pos : Nat), (∀ d ∈ ds, isHexDigit d = true) → ds.length < width →
      ∀ more (p : QuotedPiece), more = leadingDigits (width - ds.length) rest →
        p = .numeric letter (ds ++ more) →
        decodeText (some ⟨start, letter, width, ds⟩) pos rest =
          if p.Good then
            (p.decoded ++ ·) <$> decodeText none (pos + more.length) (rest.drop more.length)
          else .error (p.error start) := by
  induction rest with
  | nil =>
    rintro ds pos hds hshort _ _ rfl rfl
    have hbad := not_good_of_short hwidth hshort
    rw [leadingDigits_nil, List.append_nil, if_neg hbad, decodeText,
      OpenEscape.error_eq hwidth hds]
  | cons d rest ih =>
    rintro ds pos hds hshort _ _ rfl rfl
    have hroom : width - ds.length = width - (ds.length + 1) + 1 := by omega
    rw [decodeText, hroom, leadingDigits_cons]
    by_cases hd : isHexDigit d = true
    · have hds' : ∀ c ∈ ds ++ [d], isHexDigit c = true :=
        List.forall_mem_append.mpr ⟨hds, List.forall_mem_singleton.mpr hd⟩
      have hlength : (ds ++ [d]).length = ds.length + 1 := List.length_append
      rw [if_pos (isHex_iff.mpr hd), if_pos hd]
      dsimp only
      by_cases hfull : ds.length + 1 = width
      · -- the last digit closes the escape
        rw [hlength, if_pos hfull, hfull, Nat.sub_self, leadingDigits_zero,
          charOfDigits hds' (by simp), charOfCode?_of_full hwidth (hlength.trans hfull)]
        by_cases hgood : (QuotedPiece.numeric letter (ds ++ [d])).Good
        · rw [if_pos hgood, if_pos hgood]
          rfl
        · rw [if_neg hgood, if_neg hgood, OpenEscape.error_eq hwidth hds']
      · have hrest := ih (ds ++ [d]) (pos + 1) hds' (by omega) _ _ rfl rfl
        rw [hlength, List.append_assoc, List.singleton_append] at hrest
        rw [hlength, if_neg hfull, hrest, List.length_cons, List.drop_succ_cons, Nat.add_assoc,
          Nat.add_comm 1]
    · have hbad := not_good_of_short hwidth hshort
      rw [if_neg (fun h => hd (isHex_iff.mp h)), if_neg hd, List.append_nil, if_neg hbad,
        OpenEscape.error_eq hwidth hds]

end Open

/-- **Text is decoded piece by piece.** -/
theorem decodeText_eq (pos : Nat) (cs : List Char) :
    decodeText none pos cs = decodePieces pos (quotedPieces cs) := by
  fun_induction quotedPieces cs generalizing pos with
  | case1 c rest width hwidth ih =>
    have hwants : 0 < width := by
      unfold escapeWidth? at hwidth
      split at hwidth <;> cases hwidth <;> decide
    have hopen := decodeText_open hwidth pos rest [] (pos + 2) (List.forall_mem_nil _) hwants _ _
      rfl rfl
    have hdigits := forall_mem_leadingDigits width rest
    rw [decodeText, hwidth, decodePieces]
    dsimp only
    rw [hopen, List.length_nil, Nat.sub_zero, List.nil_append, ih, QuotedPiece.text,
      byteLength_cons, byteLength_cons, utf8Size_of_escapeWidth? hwidth,
      byteLength_of_isHexDigit hdigits]
    rw [show '\\'.utf8Size = 1 from rfl, ← Nat.add_assoc 1, ← Nat.add_assoc pos]
  | case2 c rest hwidth ih =>
    have hgood : (QuotedPiece.escape c).Good := trivial
    rw [decodeText, hwidth, decodePieces, if_pos hgood, QuotedPiece.text, byteLength_cons,
      byteLength_cons, byteLength_nil, Nat.add_zero, ← Nat.add_assoc, ← ih]
    rfl
  | case3 c rest hplain ih =>
    have hgood : (QuotedPiece.plain c).Good := trivial
    have htext : byteLength (QuotedPiece.plain c).text = c.utf8Size := Nat.add_zero _
    rw [decodePieces, if_pos hgood, htext, ← ih]
    by_cases hlone : c = '\\' ∧ rest = []
    · obtain ⟨rfl, rfl⟩ := hlone
      rfl
    · rw [decodeText]
      · rfl
      · exact fun hc hrest => hlone ⟨hc, hrest⟩
      · exact hplain
  | case4 => rfl

/-! ### Good pieces and the first bad one -/

/-- Behind good pieces, this is the first that is not good. -/
structure FirstBad (ps before : List QuotedPiece) (p : QuotedPiece) : Prop where
  pieces : ∃ after, ps = before ++ p :: after
  good : ∀ b ∈ before, b.Good
  bad : ¬ p.Good

/-- If not all pieces are good, one of them is the first that is not. -/
theorem exists_firstBad {ps : List QuotedPiece} (h : ¬ ∀ p ∈ ps, p.Good) :
    ∃ before p, FirstBad ps before p := by
  cases hfind : ps.find? (fun p => !decide p.Good) with
  | none =>
    refine absurd (fun p hp => ?_) h
    simpa using List.find?_eq_none.mp hfind p hp
  | some p =>
    obtain ⟨hp, before, after, hps, hbefore⟩ := List.find?_eq_some_iff_append.mp hfind
    exact ⟨before, p, ⟨after, hps⟩, by simpa using hbefore, by simpa using hp⟩

/-- Where all pieces are good, what they stand for is put together. -/
theorem decodePieces_good {ps : List QuotedPiece} (h : ∀ p ∈ ps, p.Good) (pos : Nat) :
    decodePieces pos ps = .ok (ps.flatMap QuotedPiece.decoded) := by
  induction ps generalizing pos with
  | nil => rfl
  | cons p ps ih =>
    rw [List.forall_mem_cons] at h
    rw [decodePieces, if_pos h.1, ih h.2, List.flatMap_cons]
    rfl

/-- The first piece that is not good is reported. -/
theorem decodePieces_bad {ps before : List QuotedPiece} {p : QuotedPiece}
    (h : FirstBad ps before p) (pos : Nat) :
    decodePieces pos ps =
      .error (p.error (pos + byteLength (before.flatMap QuotedPiece.text))) := by
  obtain ⟨⟨after, rfl⟩, hbefore, hp⟩ := h
  induction before generalizing pos with
  | nil =>
    rw [List.nil_append, decodePieces, if_neg hp, List.flatMap_nil, byteLength_nil, Nat.add_zero]
  | cons b before ih =>
    rw [List.forall_mem_cons] at hbefore
    rw [List.cons_append, decodePieces, if_pos hbefore.1, ih _ hbefore.2, List.flatMap_cons,
      byteLength_append, Nat.add_assoc]
    rfl

section Token

variable {q : Char} {body : List Char} {before : List QuotedPiece} {p : QuotedPiece}

theorem readQuoted_eq (start : Nat) (q : Char) (body : List Char) :
    readQuoted start (q :: (body ++ [q])) =
      String.ofList <$> decodePieces (start + 1) (quotedPieces body) := by
  rw [readQuoted, List.drop_one, List.tail_cons, List.dropLast_concat, decodeText_eq]

/-- **The first piece that is not good is reported.** -/
theorem readQuoted_bad (h : FirstBad (quotedPieces body) before p) (start : Nat) :
    readQuoted start (q :: (body ++ [q])) =
      .error (p.error (start + 1 + byteLength (before.flatMap QuotedPiece.text))) := by
  rw [readQuoted_eq, decodePieces_bad h]
  rfl

/-- **A text is read only if all its pieces are good, as what they stand for.** -/
theorem readQuoted_ok_iff {start : Nat} {s : String} :
    readQuoted start (q :: (body ++ [q])) = .ok s ↔
      (∀ p ∈ quotedPieces body, p.Good) ∧
        s = String.ofList ((quotedPieces body).flatMap QuotedPiece.decoded) := by
  by_cases hgood : ∀ p ∈ quotedPieces body, p.Good
  · rw [readQuoted_eq, decodePieces_good hgood]
    constructor
    · rintro ⟨⟩
      exact ⟨hgood, rfl⟩
    · rintro ⟨-, rfl⟩
      rfl
  · obtain ⟨before, p, hbad⟩ := exists_firstBad hgood
    rw [readQuoted_bad hbad]
    constructor
    · rintro ⟨⟩
    · rintro ⟨hall, -⟩
      exact absurd hall hgood

/-- The report of a piece covers just its text. -/
theorem FirstBad.slice_error (h : FirstBad (quotedPieces body) before p) {source : String}
    {front behind : List Char} (hq : q.utf8Size = 1)
    (hsource : source.toList = front ++ q :: (body ++ [q]) ++ behind) :
    (p.error (byteLength front + 1 + byteLength (before.flatMap QuotedPiece.text))).span.slice
      source = String.ofList p.text := by
  obtain ⟨after, hpieces⟩ := h.pieces
  have hbody := flatMap_text_quotedPieces body
  rw [hpieces, List.flatMap_append, List.flatMap_cons] at hbody
  have hfront : byteLength front + 1 + byteLength (before.flatMap QuotedPiece.text) =
      byteLength (front ++ q :: before.flatMap QuotedPiece.text) := by
    rw [byteLength_append, byteLength_cons, hq, Nat.add_assoc]
  rw [QuotedPiece.error, hfront]
  apply Span.slice_of_append (after.flatMap QuotedPiece.text ++ q :: behind)
  rw [hsource, ← hbody]
  simp

end Token

end SafeExpr
