/-
  SafeExpr/Proofs/Value/Spelling.lean
  ===================================
  **How a value is spelled, and which values the language can spell.**

  The text of a container is that of its items with commas between them.  `Value.Writable`
  are the values whose text is an expression for them: a float may be no literal (`inf`), the
  smallest integer has no negation, and the empty set is written as a call.  `Value.levels`
  is how deep such a text nests.
-/
import Mathlib.Data.List.Basic
import SafeExpr.Value.Render

namespace SafeExpr

/-! ### Texts of numbers -/

namespace Decimal

theorem positional_ne_nil (d : Decimal) : d.positional ≠ [] := by
  unfold positional
  dsimp only
  split
  · simp
  · split
    · simp
    · simp

theorem scientific_ne_nil (style : FloatStyle) (d : Decimal) : d.scientific style ≠ [] := by
  simp [scientific]

end Decimal

theorem Double.render_ne_empty {style : FloatStyle} (hnan : style.nan ≠ "") (x : Double) :
    x.render style ≠ "" := by
  unfold Double.render
  dsimp only
  split
  · exact hnan
  · split
    · simp
    · rw [Ne, String.ofList_eq_empty_iff, List.append_eq_nil_iff]
      rintro ⟨-, hbody⟩
      split at hbody
      · exact Decimal.positional_ne_nil _ hbody
      · exact Decimal.scientific_ne_nil _ _ hbody

/-! ### Texts of several items -/

/-- The texts behind one another, with a comma and a blank in front of each. -/
def continued (texts : List (List Char)) : List Char := texts.flatMap fun cs => ',' :: ' ' :: cs

/-- The texts, separated by a comma and a blank. -/
def separated : List (List Char) → List Char
  | [] => []
  | cs :: texts => cs ++ continued texts

/-- What stands behind a comma. -/
def behindComma : List (List Char) → List Char
  | [] => []
  | texts => ' ' :: separated texts

/-- The text between the parentheses of a tuple: a single item has a comma behind it. -/
def tupled : List (List Char) → List Char
  | [] => []
  | cs :: texts => cs ++ ',' :: behindComma texts

namespace Value

/-! ### The text of a value -/

/-- The characters of the text. -/
def spelling (v : Value) : List Char := v.render.toList

/-- A key, a colon and a value. -/
def entrySpelling (entry : Value × Value) : List Char :=
  entry.1.spelling ++ ':' :: ' ' :: entry.2.spelling

mutual

/-- What is written goes behind what was there. -/
theorem toList_write (out : String) (v : Value) :
    (write out v).toList = out.toList ++ v.spelling := by
  unfold spelling render
  cases v with
  | none | int n | float x | str s => simp [write]
  | bool b => cases b <;> simp [write]
  | list items => simp [write, toList_writeItems]
  | tuple items =>
    rcases items with _ | ⟨x, _ | ⟨y, rest⟩⟩
    · simp [write, writeItems]
    · simp [write, toList_write _ x]
    · simp [write, toList_writeItems]
  | dict entries => simp [write, toList_writeEntries]
  | set items =>
    rcases items with _ | ⟨x, rest⟩
    · simp [write]
    · simp [write, toList_writeItems]

theorem toList_writeItems (out : String) (vs : List Value) :
    (writeItems out vs).toList = out.toList ++ separated (vs.map spelling) := by
  rcases vs with _ | ⟨x, _ | ⟨y, rest⟩⟩
  · simp [writeItems, separated]
  · simp [writeItems, separated, continued, toList_write _ x]
  · simp [writeItems, separated, continued, toList_write _ x, toList_writeItems _ (y :: rest)]

theorem toList_writeEntries (out : String) (es : List (Value × Value)) :
    (writeEntries out es).toList = out.toList ++ separated (es.map entrySpelling) := by
  rcases es with _ | ⟨⟨k, v⟩, _ | ⟨e, rest⟩⟩
  · simp [writeEntries, separated]
  · simp [writeEntries, separated, continued, entrySpelling, toList_write _ k, toList_write _ v]
  · simp [writeEntries, separated, continued, entrySpelling, toList_write _ k, toList_write _ v,
      toList_writeEntries _ (e :: rest)]

end

/-! ### Constructor by constructor -/

theorem spelling_str (s : String) : (str s).spelling = (quoteValue s).toList := by
  simp [spelling, render, write]

/-- A whole number is its digits, with a minus sign in front if it is negative. -/
theorem spelling_int (n : Int64) :
    (int n).spelling =
      if n.toInt < 0 then '-' :: Nat.toDigits 10 n.toInt.natAbs
      else Nat.toDigits 10 n.toInt.natAbs := by
  have htext : (int n).spelling = n.toInt.repr.toList := by
    simp only [spelling, render, write, String.empty_append]
    rfl
  rw [htext]
  rcases n.toInt with m | m
  · have hsign : ¬ Int.ofNat m < 0 := Int.not_lt.mpr (Int.natCast_nonneg m)
    rw [if_neg hsign]
    simp [Int.repr]
  · rw [if_pos (Int.negSucc_lt_zero m)]
    simp [Int.repr]

theorem spelling_list (vs : List Value) :
    (list vs).spelling = '[' :: separated (vs.map spelling) ++ [']'] := by
  simp [spelling, render, write, toList_writeItems]

theorem spelling_tuple (vs : List Value) :
    (tuple vs).spelling = '(' :: tupled (vs.map spelling) ++ [')'] := by
  rcases vs with _ | ⟨x, _ | ⟨y, rest⟩⟩
  · simp [spelling, render, write, writeItems, tupled]
  · rw [spelling, render, write, String.toList_append, toList_write]
    simp [tupled, behindComma]
  · simp [spelling, render, write, toList_writeItems, tupled, behindComma, separated, continued]

theorem spelling_dict (es : List (Value × Value)) :
    (dict es).spelling = '\x7b' :: separated (es.map entrySpelling) ++ ['\x7d'] := by
  simp [spelling, render, write, toList_writeEntries]

theorem spelling_set {vs : List Value} (hne : vs ≠ []) :
    (set vs).spelling = '\x7b' :: separated (vs.map spelling) ++ ['\x7d'] := by
  rcases vs with _ | ⟨x, rest⟩
  · exact absurd rfl hne
  · simp [spelling, render, write, toList_writeItems]

/-- No value has an empty text. -/
theorem spelling_ne_nil (v : Value) : v.spelling ≠ [] := by
  cases v with
  | none => decide
  | bool b => cases b <;> decide
  | int n =>
    rw [spelling_int]
    split
    · exact List.cons_ne_nil _ _
    · exact Nat.toDigits_ne_nil
  | float x => simpa [spelling, render, write] using Double.render_ne_empty (by decide) x
  | str s => simp [spelling_str, quoteValue]
  | list vs => simp [spelling_list]
  | tuple vs => simp [spelling_tuple]
  | dict es => simp [spelling_dict]
  | set vs =>
    cases vs with
    | nil => decide
    | cons v vs => simp [spelling_set]

/-! ### Values that the language can spell -/

inductive Writable : Value → Prop
  | none : Writable none
  | bool (b : Bool) : Writable (bool b)
  | int {n : Int64} (h : n ≠ Int64.minValue) : Writable (int n)
  | str (s : String) : Writable (str s)
  | list {vs : List Value} (h : ∀ v ∈ vs, Writable v) : Writable (list vs)
  | tuple {vs : List Value} (h : ∀ v ∈ vs, Writable v) : Writable (tuple vs)
  | dict {es : List (Value × Value)} (hkeys : ∀ e ∈ es, Writable e.1)
    (hvalues : ∀ e ∈ es, Writable e.2) (hhash : ∀ e ∈ es, e.1.isHashable = true)
    (hdiffer : es.Pairwise fun e e' => e.1.eq e'.1 = false) : Writable (dict es)
  | set {vs : List Value} (hne : vs ≠ []) (h : ∀ v ∈ vs, Writable v)
    (hhash : ∀ v ∈ vs, v.isHashable = true)
    (hdiffer : vs.Pairwise fun v w => v.eq w = false) : Writable (set vs)

mutual

/-- The levels that the text of a value nests.  A minus sign is one of its own. -/
def levels : Value → Nat
  | int n => if n.toInt < 0 then 2 else 1
  | list vs | tuple vs | set vs => 1 + levelsAll vs
  | dict es => 1 + levelsEntries es
  | _ => 1

def levelsAll : List Value → Nat
  | [] => 0
  | v :: rest => max (levels v) (levelsAll rest)

def levelsEntries : List (Value × Value) → Nat
  | [] => 0
  | (k, v) :: rest => max (max (levels k) (levels v)) (levelsEntries rest)

end

theorem levels_list (vs : List Value) : (list vs).levels = 1 + levelsAll vs := rfl

theorem levels_tuple (vs : List Value) : (tuple vs).levels = 1 + levelsAll vs := rfl

theorem levels_set (vs : List Value) : (set vs).levels = 1 + levelsAll vs := rfl

theorem levels_dict (es : List (Value × Value)) : (dict es).levels = 1 + levelsEntries es := rfl

theorem levels_negative {n : Int64} (h : n.toInt < 0) : (int n).levels = 2 := if_pos h

theorem levels_natural {n : Int64} (h : 0 ≤ n.toInt) : (int n).levels = 1 :=
  if_neg (Int.not_lt.mpr h)

theorem levels_le_of_mem {v : Value} {vs : List Value} (h : v ∈ vs) :
    v.levels ≤ levelsAll vs := by
  induction vs with
  | nil => cases h
  | cons x rest ih =>
    rw [levelsAll]
    rcases List.mem_cons.mp h with rfl | h
    · exact Nat.le_max_left _ _
    · exact Nat.le_trans (ih h) (Nat.le_max_right _ _)

theorem levels_le_of_mem_entries {e : Value × Value} {es : List (Value × Value)} (h : e ∈ es) :
    e.1.levels ≤ levelsEntries es ∧ e.2.levels ≤ levelsEntries es := by
  induction es with
  | nil => cases h
  | cons x rest ih =>
    obtain ⟨k, v⟩ := x
    rw [levelsEntries]
    rcases List.mem_cons.mp h with rfl | h
    · dsimp only
      omega
    · have := ih h
      omega

end Value

end SafeExpr
