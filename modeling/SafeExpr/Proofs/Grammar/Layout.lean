/-
  SafeExpr/Proofs/Grammar/Layout.lean
  ===================================
  **What may stand between two tokens.**

  Layout is made of blanks, of line continuations and of comments that end with their lines
  (`Layout`).  What stands between two tokens is layout; at the end of a text it may also be a
  comment that no line end closes (`Gap`).  All of it is skipped where the grammar permits blanks
  (`Gap.skip`), and whatever a text begins with, it is a gap with something behind it that is not
  skipped any more (`exists_gap`).
-/
import Mathlib.Data.Bool.AllAny
import SafeExpr.Proofs.Grammar.Eats

namespace SafeExpr.Grammar

/-- Blanks, line continuations, and comments with the ends of their lines. -/
inductive Layout : List Char → Prop
  | nil : Layout []
  | blank {c : Char} {g : List Char} (hc : c ∈ " \t\r\n".toList) (h : Layout g) :
    Layout (c :: g)
  | continued {lineEnd g : List Char} (hend : lineEnd = ['\n'] ∨ lineEnd = ['\r', '\n'])
    (h : Layout g) : Layout ('\\' :: (lineEnd ++ g))
  | comment {text g : List Char} (htext : '\n' ∉ text) (h : Layout g) :
    Layout ('#' :: (text ++ '\n' :: g))

/-- What stands between two tokens, the second of which begins the text `rest`. -/
inductive Gap : List Char → List Char → Prop
  | layout {g : List Char} (h : Layout g) (rest : List Char) : Gap g rest
  | comment {g text : List Char} (h : Layout g) (htext : '\n' ∉ text) : Gap (g ++ '#' :: text) []

/-- The characters that a gap can begin with. -/
def gapStarts : List Char := " \t\r\n\\#".toList

theorem Layout.append {a b : List Char} (ha : Layout a) (hb : Layout b) : Layout (a ++ b) := by
  induction ha with
  | nil => exact hb
  | blank hc _ ih => exact .blank hc ih
  | continued hend _ ih =>
    rw [List.cons_append, List.append_assoc]
    exact .continued hend ih
  | comment htext _ ih =>
    rw [List.cons_append, List.append_assoc, List.cons_append]
    exact .comment htext ih

theorem Layout.head_mem {g : List Char} (h : Layout g) : ∀ c ∈ g.head?, c ∈ gapStarts := by
  intro c hc
  cases h with
  | nil => cases hc
  | blank hblank =>
    cases hc
    have hsub : " \t\r\n".toList ⊆ gapStarts := by decide
    exact hsub hblank
  | continued =>
    cases hc
    decide
  | comment =>
    cases hc
    decide

theorem dropWhile_line {front behind : List Char} (h : '\n' ∉ front) :
    (front ++ '\n' :: behind).dropWhile (· ≠ '\n') = '\n' :: behind := by
  rw [List.dropWhile_append_of_pos, List.dropWhile_cons_of_neg (by simp)]
  intro c hc
  simpa using fun heq : c = '\n' => h (heq ▸ hc)

/-- What is left of layout behind the end of its first line. -/
theorem Layout.of_line {front behind : List Char} (hfront : '\n' ∉ front)
    (h : Layout (front ++ '\n' :: behind)) : Layout behind := by
  generalize hall : front ++ '\n' :: behind = g at h
  have hline : ∀ (first : List Char) {front g : List Char}, '\n' ∉ first → '\n' ∉ front →
      Layout g → front ++ '\n' :: behind = first ++ '\n' :: g → Layout behind := by
    intro first front g hfirst hfront hg heq
    have hdrop := congrArg (List.dropWhile (· ≠ '\n')) heq
    rw [dropWhile_line hfront, dropWhile_line hfirst, List.cons.injEq] at hdrop
    exact hdrop.2 ▸ hg
  induction h generalizing front with
  | nil => simp at hall
  | @blank c g hc h ih =>
    cases front with
    | nil =>
      cases hall
      exact h
    | cons x front =>
      cases hall
      exact ih (fun hmem => hfront (List.mem_cons_of_mem _ hmem)) rfl
  | @continued lineEnd g hend h ih =>
    rcases hend with rfl | rfl
    · exact hline ['\\'] (by simp) hfront h hall
    · exact hline ['\\', '\r'] (by simp) hfront h hall
  | @comment text g htext h ih =>
    exact hline ('#' :: text) (by simpa using htext) hfront h hall

namespace Gap

variable {a b g rest : List Char}

theorem nil (rest : List Char) : Gap [] rest := .layout .nil rest

theorem head_mem (h : Gap g rest) : ∀ c ∈ g.head?, c ∈ gapStarts := by
  cases h with
  | layout h => exact h.head_mem
  | @comment g text h htext =>
    intro c hc
    cases g with
    | nil =>
      cases hc
      decide
    | cons x g => exact h.head_mem c hc

/-- More layout in front. -/
theorem prepend (ha : Layout a) (h : Gap g rest) : Gap (a ++ g) rest := by
  cases h with
  | layout h => exact .layout (ha.append h) rest
  | comment h htext =>
    rw [← List.append_assoc]
    exact .comment (ha.append h) htext

/-- More layout behind: what is behind a comment that is still open belongs to it, up to the end
    of a line. -/
theorem append (h : Gap g rest) (hb : Layout b) : Gap (g ++ b) rest := by
  cases h with
  | layout h => exact .layout (h.append hb) rest
  | @comment g text h htext =>
    rw [List.append_assoc, List.cons_append]
    by_cases hline : '\n' ∈ b
    · obtain ⟨front, behind, rfl, hfront⟩ := List.eq_append_cons_of_mem hline
      rw [← List.append_assoc]
      refine .layout (h.append (.comment ?_ (hb.of_line hfront))) []
      exact List.not_mem_append htext hfront
    · exact .comment h (List.not_mem_append htext hline)

end Gap

/-! ### Skipping -/

theorem skipComment_line {text : List Char} (htext : '\n' ∉ text) (pos : Nat)
    (rest : List Char) :
    skipComment pos (text ++ '\n' :: rest) = skipLayout (pos + byteLength text + 1) rest := by
  induction text generalizing pos with
  | nil =>
    rw [List.nil_append, skipComment]
    rfl
  | cons c text ih =>
    rw [List.mem_cons, not_or] at htext
    rw [List.cons_append, skipComment, ih htext.2, byteLength_cons, ← Nat.add_assoc]
    exact fun h => htext.1 h.symm

theorem skipComment_end {text : List Char} (htext : '\n' ∉ text) (pos : Nat) :
    skipComment pos text = ⟨pos + byteLength text, []⟩ := by
  induction text generalizing pos with
  | nil => rw [skipComment, byteLength_nil, Nat.add_zero]
  | cons c text ih =>
    rw [List.mem_cons, not_or] at htext
    rw [skipComment, ih htext.2, byteLength_cons, ← Nat.add_assoc]
    exact fun h => htext.1 h.symm

/-- Layout is skipped, and what follows it as well. -/
theorem skipLayout_append {g : List Char} (h : Layout g) (pos : Nat) (rest : List Char) :
    skipLayout pos (g ++ rest) = skipLayout (pos + byteLength g) rest := by
  induction h generalizing pos with
  | nil => rw [List.nil_append, byteLength_nil, Nat.add_zero]
  | @blank c g hc h ih =>
    rw [List.cons_append, byteLength_cons, ← Nat.add_assoc, ← ih]
    have hone : ∀ c ∈ " \t\r\n".toList, c.utf8Size = 1 :=
      List.all_iff_forall_prop.mp (by decide)
    rw [hone c hc]
    simp only [String.reduceToList, List.mem_cons, List.not_mem_nil, or_false] at hc
    rcases hc with rfl | rfl | rfl | rfl <;> rw [skipLayout]
  | continued hend h ih =>
    rcases hend with rfl | rfl
    · rw [byteLength_cons, byteLength_append, ← Nat.add_assoc, ← Nat.add_assoc, ← ih]
      simp only [List.cons_append, List.nil_append]
      rw [skipLayout]
      rfl
    · rw [byteLength_cons, byteLength_append, ← Nat.add_assoc, ← Nat.add_assoc, ← ih]
      simp only [List.cons_append, List.nil_append]
      rw [skipLayout]
      rfl
  | @comment text g htext h ih =>
    have hbytes : pos + byteLength ('#' :: (text ++ '\n' :: g)) =
        pos + 1 + byteLength text + 1 + byteLength g := by
      have hmark : ('#').utf8Size = 1 := rfl
      have hline : ('\n').utf8Size = 1 := rfl
      rw [byteLength_cons, byteLength_append, byteLength_cons]
      omega
    rw [hbytes, ← ih, List.cons_append, List.append_assoc, List.cons_append, skipLayout,
      skipComment_line htext]

/-- **A gap is skipped as a whole.** -/
theorem Gap.skip {g rest : List Char} (h : Gap g rest) (hrest : Solid rest) (pos : Nat) :
    skipLayout pos (g ++ rest) = ⟨pos + byteLength g, rest⟩ := by
  cases h with
  | layout h => rw [skipLayout_append h, hrest]
  | @comment g text h htext =>
    have hbytes : pos + byteLength (g ++ '#' :: text) = pos + byteLength g + 1 + byteLength text := by
      have hmark : ('#').utf8Size = 1 := rfl
      rw [byteLength_append, byteLength_cons]
      omega
    rw [hbytes, List.append_nil, skipLayout_append h, skipLayout, skipComment_end htext]

/-- A backslash that continues no line is not skipped. -/
theorem solid_backslash {cs : List Char}
    (h : ∀ lineEnd rest, lineEnd = ['\n'] ∨ lineEnd = ['\r', '\n'] → cs ≠ lineEnd ++ rest) :
    Solid ('\\' :: cs) := by
  intro pos
  unfold skipLayout
  split
  case h_5 rest heq => exact absurd (List.cons.inj heq).2 (h _ rest (Or.inl rfl))
  case h_6 rest heq => exact absurd (List.cons.inj heq).2 (h _ rest (Or.inr rfl))
  case h_8 => rfl
  all_goals
    next heq => exact absurd (List.cons.inj heq).1 (by decide)

theorem Gap.skip_rest {g rest : List Char} (h : Gap g rest) (hrest : Solid rest) {c : Cursor}
    (hc : c.rest = g ++ rest) : (expression.gap false c).rest = rest := by
  rcases c with ⟨pos, cs⟩
  obtain rfl : cs = g ++ rest := hc
  rw [show expression.gap false ⟨pos, g ++ rest⟩ = ⟨pos + byteLength g, rest⟩ from h.skip hrest pos]

/-- A text begins with a piece of layout, or with a comment that is all of it, or with nothing
    that is skipped. -/
theorem layout_or_solid (cs : List Char) :
    (∃ piece rest, piece ≠ [] ∧ Layout piece ∧ cs = piece ++ rest) ∨
      (∃ text, '\n' ∉ text ∧ cs = '#' :: text) ∨ Solid cs := by
  cases cs with
  | nil => exact Or.inr (Or.inr solid_nil)
  | cons c cs =>
    by_cases hblank : c ∈ " \t\r\n".toList
    · exact Or.inl ⟨[c], cs, List.cons_ne_nil _ _, .blank hblank .nil, rfl⟩
    · by_cases hmark : c = '#'
      · subst hmark
        by_cases hline : '\n' ∈ cs
        · obtain ⟨front, behind, rfl, hfront⟩ := List.eq_append_cons_of_mem hline
          have hcomment : Layout ('#' :: (front ++ ['\n'])) := .comment hfront .nil
          exact Or.inl ⟨_, behind, List.cons_ne_nil _ _, hcomment, by simp⟩
        · exact Or.inr (Or.inl ⟨cs, hline, rfl⟩)
      · by_cases hslash : c = '\\'
        · subst hslash
          by_cases hend : ∃ lineEnd rest, (lineEnd = ['\n'] ∨ lineEnd = ['\r', '\n']) ∧
              cs = lineEnd ++ rest
          · obtain ⟨lineEnd, rest, hend, rfl⟩ := hend
            exact Or.inl ⟨_, rest, List.cons_ne_nil _ _, .continued hend .nil, by simp⟩
          · exact Or.inr (Or.inr (solid_backslash fun lineEnd rest hline heq =>
              hend ⟨lineEnd, rest, hline, heq⟩))
        · refine Or.inr (Or.inr (solid_cons ?_ cs))
          simp only [String.reduceToList, List.mem_cons, List.not_mem_nil, or_false, not_or]
            at hblank
          simp [solid, hblank, hmark, hslash]

/-- **Whatever a text begins with, it is a gap, and then something that is not skipped.** -/
theorem exists_gap (cs : List Char) : ∃ g rest, cs = g ++ rest ∧ Gap g rest ∧ Solid rest := by
  generalize hn : cs.length = n
  induction n using Nat.strongRecOn generalizing cs with
  | ind n ih =>
    rcases layout_or_solid cs with ⟨piece, rest, hne, hpiece, rfl⟩ | ⟨text, htext, rfl⟩ | hsolid
    · have hlength := List.length_pos_iff.mpr hne
      rw [List.length_append] at hn
      obtain ⟨g, rest, rfl, hgap, hsolid⟩ := ih rest.length (by omega) rest rfl
      exact ⟨piece ++ g, rest, (List.append_assoc _ _ _).symm, hgap.prepend hpiece, hsolid⟩
    · exact ⟨'#' :: text, [], (List.append_nil _).symm, .comment .nil htext, solid_nil⟩
    · exact ⟨[], cs, rfl, .nil cs, hsolid⟩

end SafeExpr.Grammar
