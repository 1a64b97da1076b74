/-
  SafeExpr/Proofs/Text/QuotedLiteral.lean
  =======================================
  **Quoted literals tell their texts apart.**

  Every character of a string literal in rendered syntax is written in one of three ways
  (`LiteralPiece`): as it is, as a letter behind a backslash, or by its code point in braces.  Not all
  of them can be read by the grammar, but each is taken apart again (`firstOf`), so that literals of
  different texts differ (`quoteLiteral_injective`).
-/
import SafeExpr.Proofs.Number.Numeral
import SafeExpr.Proofs.Text.Quoted

namespace SafeExpr

/-- The letters behind a backslash, and what they stand for. -/
def letterEscapes : List (Char × Char) :=
  [('\\', '\\'), ('"', '"'), ('n', '\n'), ('t', '\t'), ('r', '\r'), ('0', '\x00')]

/-- The ways in which a character is written in a literal. -/
inductive LiteralPiece (c : Char) : List Char → Prop
  | plain (hquote : c ≠ '"') (hbackslash : c ≠ '\\') (hline : c ≠ '\n') : LiteralPiece c [c]
  | letter {x : Char} (hx : (x, c) ∈ letterEscapes) : LiteralPiece c ['\\', x]
  | code : LiteralPiece c ('\\' :: 'u' :: '\x7b' :: (hexDigits c.toNat ++ ['\x7d']))

theorem literalPiece_literalChar (c : Char) : LiteralPiece c (literalChar c) := by
  unfold literalChar
  split
  · exact .letter (by decide)
  · exact .letter (by decide)
  · exact .letter (by decide)
  · exact .letter (by decide)
  · exact .letter (by decide)
  · exact .letter (by decide)
  · next hbackslash hquote hline _ _ _ =>
    split
    · exact .plain hquote hbackslash hline
    · exact .code

theorem isHexDigit_of_mem_hexDigits {n : Nat} : ∀ d ∈ hexDigits n, isHexDigit d = true :=
  accepts_of_mem_toDigits (m := ⟨16, 'x', 'X', isHexDigit⟩) List.mem_cons_self n

theorem LiteralPiece.ne_nil {c : Char} {cs : List Char} (h : LiteralPiece c cs) : cs ≠ [] := by
  cases h with
  | plain | letter | code => exact List.cons_ne_nil _ _

/-! ### Between quotes -/

theorem quotedBody_literalPiece {c : Char} {cs rest : List Char} (h : LiteralPiece c cs)
    (hrest : QuotedBody '"' rest) : QuotedBody '"' (cs ++ rest) := by
  cases h with
  | plain hquote hbackslash hline => exact .plain hquote hbackslash hline hrest
  | letter hx => exact .escape hrest
  | code =>
    have hplain : ∀ {ds : List Char}, (∀ d ∈ ds, d ≠ '"' ∧ d ≠ '\\' ∧ d ≠ '\n') →
        QuotedBody '"' (ds ++ rest) := by
      intro ds hds
      induction ds with
      | nil => exact hrest
      | cons d ds ih =>
        obtain ⟨⟨hquote, hbackslash, hline⟩, hds⟩ := List.forall_mem_cons.mp hds
        exact .plain hquote hbackslash hline (ih hds)
    have hdigits : ∀ d ∈ hexDigits c.toNat, d ≠ '"' ∧ d ≠ '\\' ∧ d ≠ '\n' := by
      intro d hd
      have hhex := isHexDigit_of_mem_hexDigits d hd
      refine ⟨?_, ?_, ?_⟩ <;>
      · rintro rfl
        cases hhex
    have hbraces : ∀ d ∈ '\x7b' :: (hexDigits c.toNat ++ ['\x7d']),
        d ≠ '"' ∧ d ≠ '\\' ∧ d ≠ '\n' :=
      List.forall_mem_cons.mpr ⟨by decide, List.forall_mem_append.mpr
        ⟨hdigits, List.forall_mem_singleton.mpr (by decide)⟩⟩
    exact .escape (hplain hbraces)

theorem quotedBody_literalChars (cs : List Char) : QuotedBody '"' (cs.flatMap literalChar) := by
  induction cs with
  | nil => exact .nil
  | cons c cs ih => exact quotedBody_literalPiece (literalPiece_literalChar c) ih

/-! ### Taken apart -/

/-- The character that a text begins with the piece of, and what follows it. -/
def firstOf : List Char → Option (Char × List Char)
  | '\\' :: 'u' :: rest =>
    some (Char.ofNat (numeral 16 ((rest.drop 1).takeWhile (· ≠ '\x7d'))),
      ((rest.drop 1).dropWhile (· ≠ '\x7d')).drop 1)
  | '\\' :: x :: rest => (letterEscapes.lookup x).map (·, rest)
  | c :: rest => some (c, rest)
  | [] => none

theorem firstOf_literalPiece {c : Char} {cs : List Char} (h : LiteralPiece c cs)
    (rest : List Char) : firstOf (cs ++ rest) = some (c, rest) := by
  cases h with
  | plain hquote hbackslash hline =>
    rw [List.singleton_append, firstOf]
    · rintro _ ⟨⟩
      exact absurd rfl hbackslash
    · rintro _ _ ⟨⟩
      exact absurd rfl hbackslash
  | letter hx =>
    simp only [letterEscapes, List.mem_cons, Prod.mk.injEq, List.not_mem_nil, or_false] at hx
    rcases hx with ⟨rfl, rfl⟩ | ⟨rfl, rfl⟩ | ⟨rfl, rfl⟩ | ⟨rfl, rfl⟩ | ⟨rfl, rfl⟩ | ⟨rfl, rfl⟩ <;> rfl
  | code =>
    have hdigits : ∀ d ∈ hexDigits c.toNat, decide (d ≠ '\x7d') = true := by
      intro d hd
      rw [decide_eq_true_iff]
      rintro rfl
      cases isHexDigit_of_mem_hexDigits _ hd
    have hbrace : ∀ d ∈ ('\x7d' :: rest).head?, decide (d ≠ '\x7d') = false := by
      rintro _ ⟨⟩
      decide
    obtain ⟨htake, hdrop⟩ := span_of_ends hdigits hbrace
    have hvalue : numeral 16 (hexDigits c.toNat) = c.toNat :=
      numeral_toDigits digitClass_hex (by decide) (by decide) isHexDigit_of_mem_hexDigits
    simp only [List.cons_append, List.append_assoc, List.nil_append, firstOf, List.drop_succ_cons,
      List.drop_zero, htake, hdrop, hvalue, Char.ofNat_toNat]

theorem flatMap_literalChar_injective {cs ds : List Char}
    (h : cs.flatMap literalChar = ds.flatMap literalChar) : cs = ds := by
  have hne : ∀ (c : Char) (rest : List Char), literalChar c ++ rest ≠ [] := fun c rest hnil =>
    (literalPiece_literalChar c).ne_nil (List.append_eq_nil_iff.mp hnil).1
  induction cs generalizing ds with
  | nil =>
    cases ds with
    | nil => rfl
    | cons d ds => exact absurd h.symm (hne d _)
  | cons c cs ih =>
    cases ds with
    | nil => exact absurd h (hne c _)
    | cons d ds =>
      rw [List.flatMap_cons, List.flatMap_cons] at h
      have hfirst := congrArg firstOf h
      rw [firstOf_literalPiece (literalPiece_literalChar c),
        firstOf_literalPiece (literalPiece_literalChar d), Option.some.injEq, Prod.mk.injEq] at hfirst
      rw [hfirst.1, ih hfirst.2]

theorem toList_quoteLiteral (s : String) :
    (quoteLiteral s).toList = '"' :: (s.toList.flatMap literalChar ++ ['"']) := by
  simp [quoteLiteral]

/-- **Literals of different texts differ.** -/
theorem quoteLiteral_injective {s t : String} (h : quoteLiteral s = quoteLiteral t) : s = t := by
  have hlist := congrArg String.toList h
  rw [toList_quoteLiteral, toList_quoteLiteral, List.cons.injEq] at hlist
  exact String.toList_inj.mp (flatMap_literalChar_injective (List.append_cancel_right hlist.2))

end SafeExpr
