/-
  SafeExpr/Proofs/Text/Rewriting.lean
  ===================================
  **Other words in a text.**

  A rewriting puts other texts for the words, the numbers and the quoted texts of a text, and
  leaves everything between them as it is.  It reads the text once, from left to right, and
  holds what it has of the token that it is in (`OpenToken`).  A token ends where the next
  character does not go on with it (`Breaks`); so the text of several parts is rewritten part by
  part (`run_word` and its siblings).
-/
import SafeExpr.Proofs.Syntax.Fits
import SafeExpr.Proofs.Text.Quoted

namespace SafeExpr

/-- What has been read of a token. -/
inductive OpenToken where
  | none
  | sign (c : Char)
  | word (cs : List Char)
  | number (cs : List Char)
  /-- A number and a point, which belongs to it if a digit follows. -/
  | point (cs : List Char)
  /-- From a quote up to where the text goes on, … -/
  | quoted (cs : List Char)
  /-- … behind a backslash, … -/
  | escape (cs : List Char)
  /-- … and to the other quote. -/
  | string (cs : List Char)

namespace OpenToken

/-- The token that begins with the character. -/
def start (c : Char) : OpenToken :=
  if c = '"' then quoted [c]
  else if c.isDigit then number [c]
  else if isWordStart c then word [c]
  else sign c

/-- The token with one character more, if it belongs to it. -/
def extend : OpenToken → Char → Option OpenToken
  | word cs, c => if isWordChar c then some (word (cs ++ [c])) else Option.none
  | number cs, c =>
    if isWordChar c || c = '+' || c = '-' then some (number (cs ++ [c]))
    else if c = '.' then some (point cs)
    else Option.none
  | point cs, c => if c.isDigit then some (number (cs ++ ['.', c])) else Option.none
  | quoted cs, c =>
    if c = '"' then some (string (cs ++ [c]))
    else if c = '\\' then some (escape (cs ++ [c]))
    else some (quoted (cs ++ [c]))
  | escape cs, c => some (quoted (cs ++ [c]))
  | none, _ | sign _, _ | string _, _ => Option.none

/-- The token may be the whole of one. -/
def isComplete : OpenToken → Bool
  | point _ | quoted _ | escape _ => false
  | _ => true

end OpenToken

/-- What is put for words, numbers and quoted texts. -/
structure Rewriting where
  word : List Char → List Char
  number : List Char → List Char
  quoted : List Char → List Char

namespace Rewriting

variable (f : Rewriting)

/-- What is put for a token that ends. -/
def close : OpenToken → List Char
  | .none => []
  | .sign c => [c]
  | .word cs => f.word cs
  | .number cs => f.number cs
  | .point cs => f.number cs ++ ['.']
  | .quoted cs | .escape cs => cs
  | .string cs => f.quoted cs

/-- The rewritten text, where a token stands in front that has begun. -/
def runFrom : OpenToken → List Char → List Char
  | t, [] => f.close t
  | t, c :: cs =>
    match t.extend c with
    | some t' => runFrom t' cs
    | none => f.close t ++ runFrom (.start c) cs

/-- The rewritten text. -/
def run : List Char → List Char := f.runFrom .none

/-! ### Where tokens end -/

theorem run_cons (c : Char) (cs : List Char) : f.run (c :: cs) = f.runFrom (.start c) cs := rfl

/-- A token that has no continuation ends. -/
theorem runFrom_of_extend {t : OpenToken} {c : Char} (h : t.extend c = none) (rest : List Char) :
    f.runFrom t (c :: rest) = f.close t ++ f.run (c :: rest) := by
  rw [runFrom, h]
  rfl

/-- Every token that may end does so in front of the text. -/
def Breaks (rest : List Char) : Prop :=
  ∀ t : OpenToken, t.isComplete = true → f.runFrom t rest = f.close t ++ f.run rest

theorem breaks_nil : f.Breaks [] := fun _ _ => (List.append_nil _).symm

/-- The characters in front of which every token ends. -/
def isBreak (c : Char) : Bool := !isWordChar c && c != '+' && c != '-' && c != '.'

theorem breaks_cons {c : Char} (h : isBreak c = true) (rest : List Char) :
    f.Breaks (c :: rest) := by
  simp only [isBreak, Bool.and_eq_true, Bool.not_eq_true', bne_iff_ne] at h
  obtain ⟨⟨⟨hword, hplus⟩, hminus⟩, hpoint⟩ := h
  intro t ht
  refine f.runFrom_of_extend ?_ rest
  cases t with
  | none | sign | string => rfl
  | word cs => simp [OpenToken.extend, hword]
  | number cs => simp [OpenToken.extend, hword, hplus, hminus, hpoint]
  | point | quoted | escape => cases ht

/-- A token that is always complete. -/
theorem runFrom_sign (c : Char) (rest : List Char) : f.runFrom (.sign c) rest = c :: f.run rest := by
  cases rest with
  | nil => rfl
  | cons x rest => exact f.runFrom_of_extend rfl rest

theorem runFrom_string (cs rest : List Char) :
    f.runFrom (.string cs) rest = f.quoted cs ++ f.run rest := by
  cases rest with
  | nil => exact (List.append_nil _).symm
  | cons x rest => exact f.runFrom_of_extend rfl rest

/-- Between tokens nothing changes. -/
def isBetween (c : Char) : Bool := c != '"' && !c.isDigit && !isWordStart c

theorem run_plain {c : Char} (h : isBetween c = true) (rest : List Char) :
    f.run (c :: rest) = c :: f.run rest := by
  simp only [isBetween, Bool.and_eq_true, Bool.not_eq_true', bne_iff_ne] at h
  obtain ⟨⟨hquote, hdigit⟩, hword⟩ := h
  have hstart : OpenToken.start c = .sign c := by
    simp [OpenToken.start, hquote, hdigit, hword]
  rw [run_cons, hstart, runFrom_sign]

/-- A point is no part of a number if no digit follows. -/
theorem breaks_point {c : Char} (h : c.isDigit = false) (rest : List Char) :
    f.Breaks ('.' :: c :: rest) := by
  intro t ht
  cases t with
  | none | sign | string => exact f.runFrom_of_extend rfl _
  | word cs => exact f.runFrom_of_extend rfl _
  | number cs =>
    have hpoint : (OpenToken.number cs).extend '.' = some (.point cs) := rfl
    have hends : (OpenToken.point cs).extend c = none := by simp [OpenToken.extend, h]
    rw [runFrom, hpoint]
    dsimp only
    rw [f.runFrom_of_extend hends, f.run_plain (show isBetween '.' = true by decide)]
    exact List.append_assoc _ _ _
  | point | quoted | escape => cases ht

/-! ### Whole tokens -/

theorem isDigit_of_isWordStart {c : Char} (h : isWordStart c = true) : c.isDigit = false := by
  have hnone : "0123456789".toList.all (fun c => !isWordStart c) = true := by decide
  rw [← Bool.not_eq_true]
  intro hdigit
  have hnot := List.all_eq_true.mp hnone c (mem_of_isDigit hdigit)
  rw [h] at hnot
  cases hnot

theorem runFrom_word {cs : List Char} (hcs : cs.all isWordChar = true) (w rest : List Char) :
    f.runFrom (.word w) (cs ++ rest) = f.runFrom (.word (w ++ cs)) rest := by
  induction cs generalizing w with
  | nil => rw [List.nil_append, List.append_nil]
  | cons c cs ih =>
    rw [List.all_cons, Bool.and_eq_true] at hcs
    have hext : (OpenToken.word w).extend c = some (.word (w ++ [c])) := if_pos hcs.1
    rw [List.cons_append, runFrom, hext]
    dsimp only
    rw [ih hcs.2, List.append_assoc]
    rfl

theorem run_word {w rest : List Char} (hw : isWord w = true) (hrest : f.Breaks rest) :
    f.run (w ++ rest) = f.word w ++ f.run rest := by
  cases w with
  | nil => cases hw
  | cons c cs =>
    rw [isWord, Bool.and_eq_true] at hw
    obtain ⟨hstart, hcs⟩ := hw
    have hquote : c ≠ '"' := by
      rintro rfl
      cases hstart
    have hopen : OpenToken.start c = .word [c] := by
      simp [OpenToken.start, hquote, isDigit_of_isWordStart hstart, hstart]
    rw [List.cons_append, run_cons, hopen, f.runFrom_word hcs]
    exact hrest (.word (c :: cs)) rfl

/-- The characters with which a number goes on, but for a point. -/
def isNumberChar (c : Char) : Bool := isWordChar c || c = '+' || c = '-'

theorem runFrom_number {cs : List Char} (hcs : cs.all isNumberChar = true) (w rest : List Char) :
    f.runFrom (.number w) (cs ++ rest) = f.runFrom (.number (w ++ cs)) rest := by
  induction cs generalizing w with
  | nil => rw [List.nil_append, List.append_nil]
  | cons c cs ih =>
    rw [List.all_cons, Bool.and_eq_true] at hcs
    have hext : (OpenToken.number w).extend c = some (.number (w ++ [c])) := if_pos hcs.1
    rw [List.cons_append, runFrom, hext]
    dsimp only
    rw [ih hcs.2, List.append_assoc]
    rfl

/-- A point with a digit behind it belongs to the number. -/
theorem runFrom_number_point {d : Char} (hd : d.isDigit = true) (w rest : List Char) :
    f.runFrom (.number w) ('.' :: d :: rest) = f.runFrom (.number (w ++ ['.', d])) rest := by
  have hpoint : (OpenToken.number w).extend '.' = some (.point w) := rfl
  have hdigit : (OpenToken.point w).extend d = some (.number (w ++ ['.', d])) := if_pos hd
  rw [runFrom, hpoint]
  dsimp only
  rw [runFrom, hdigit]

/-- A backslash takes the next character with it. -/
theorem runFrom_quoted {body : List Char} (hbody : QuotedBody '"' body) (w rest : List Char) :
    f.runFrom (.quoted w) (body ++ rest) = f.runFrom (.quoted (w ++ body)) rest := by
  induction hbody generalizing w with
  | nil => rw [List.nil_append, List.append_nil]
  | @plain c cs hq hbackslash hline hcs ih =>
    have hext : (OpenToken.quoted w).extend c = some (.quoted (w ++ [c])) := by
      simp [OpenToken.extend, hq, hbackslash]
    rw [List.cons_append, runFrom, hext]
    dsimp only
    rw [ih, List.append_assoc]
    rfl
  | @escape c cs hcs ih =>
    have hopen : (OpenToken.quoted w).extend '\\' = some (.escape (w ++ ['\\'])) := rfl
    have hclose : (OpenToken.escape (w ++ ['\\'])).extend c =
        some (.quoted (w ++ ['\\'] ++ [c])) := rfl
    rw [List.cons_append, List.cons_append, runFrom, hopen]
    dsimp only
    rw [runFrom, hclose]
    dsimp only
    rw [ih, List.append_assoc, List.append_assoc]
    rfl

theorem run_quoted {body : List Char} (hbody : QuotedBody '"' body) (rest : List Char) :
    f.run ('"' :: (body ++ ['"']) ++ rest) = f.quoted ('"' :: (body ++ ['"'])) ++ f.run rest := by
  have hopen : OpenToken.start '"' = .quoted ['"'] := rfl
  have hclose : ∀ w, f.runFrom (.quoted w) ('"' :: rest) = f.quoted (w ++ ['"']) ++ f.run rest :=
    fun w => f.runFrom_string (w ++ ['"']) rest
  have htext : body ++ ['"'] ++ rest = body ++ '"' :: rest := List.append_assoc _ _ _
  rw [List.cons_append, run_cons, hopen, htext, f.runFrom_quoted hbody, hclose]
  rfl

end Rewriting

end SafeExpr
