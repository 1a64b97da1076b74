/-
  SafeExpr/Proofs/Parse/Brackets.lean
  ===================================
  **Texts that close the brackets they open.**

  `Balanced k cs` says that the text `cs`, wherever it stands outside of quotes, opens at
  most `k` brackets at a time and leaves as many open as there were.  Such texts are built
  from one another; quoted values are among them, whatever they contain.
-/
import SafeExpr.Parse.Limit
import SafeExpr.Proofs.Text.Quoted

namespace SafeExpr

/-! ### One character -/

/-- The characters that mean something to the scan of the brackets. -/
def marks : List Char := ['(', '[', '\x7b', ')', ']', '\x7d', '"', '\'', '#']

def isMark (x : Char) : Bool := marks.contains x

section Characters

variable {x q : Char} {depth pos : Nat} {rest : List Char}

/-- A class that holds none of the marks. -/
theorem isMark_eq_false {accepts : Char → Bool} (h : marks.all (fun y => !accepts y) = true)
    (hx : accepts x = true) : isMark x = false := by
  rw [← Bool.not_eq_true, isMark, List.contains_iff_mem]
  intro hmark
  have hnot := List.all_eq_true.mp h x hmark
  rw [hx] at hnot
  cases hnot

theorem openings_unmarked (hx : isMark x = false) :
    openings .code depth pos (x :: rest) = openings .code depth (pos + x.utf8Size) rest := by
  simp only [isMark, marks, List.contains_eq_mem, List.mem_cons, List.not_mem_nil, or_false,
    decide_eq_false_iff_not, not_or] at hx
  simp [openings, isOpening, isClosing, hx]

theorem openings_opening (hx : isOpening x = true) :
    openings .code depth pos (x :: rest) =
      (pos, depth + 1) :: openings .code (depth + 1) (pos + x.utf8Size) rest := by
  have hsize : x.utf8Size = 1 := by
    simp only [isOpening, Bool.or_eq_true, decide_eq_true_eq] at hx
    rcases hx with (rfl | rfl) | rfl <;> rfl
  rw [openings, if_pos hx, hsize]

theorem openings_closing (hx : isClosing x = true) :
    openings .code (depth + 1) pos (x :: rest) =
      openings .code depth (pos + x.utf8Size) rest := by
  simp only [isClosing, Bool.or_eq_true, decide_eq_true_eq] at hx
  rcases hx with (rfl | rfl) | rfl <;> rfl

/-- A quote begins quoted text, and ends it. -/
theorem openings_quote (hq : IsQuote q) :
    openings .code depth pos (q :: rest) = openings (.quoted q) depth (pos + q.utf8Size) rest ∧
      openings (.quoted q) depth pos (q :: rest) =
        openings .code depth (pos + q.utf8Size) rest := by
  rcases hq with rfl | rfl <;> exact ⟨rfl, rfl⟩

theorem openings_quoted {c : Char} (hq : c ≠ q) (hbackslash : c ≠ '\\') (hline : c ≠ '\n') :
    openings (.quoted q) depth pos (c :: rest) =
      openings (.quoted q) depth (pos + c.utf8Size) rest := by
  simp [openings, hq, hbackslash, hline]

end Characters

/-! ### Balanced texts -/

def Balanced (k : Nat) (cs : List Char) : Prop :=
  ∀ depth pos rest, ∃ os,
    openings .code depth pos (cs ++ rest) =
        os ++ openings .code depth (pos + byteLength cs) rest ∧
      ∀ o ∈ os, o.2 ≤ depth + k

namespace Balanced

variable {k l : Nat} {cs ds : List Char}

theorem nil : Balanced k [] := fun _ _ _ => ⟨[], rfl, nofun⟩

theorem mono (h : Balanced k cs) (hle : k ≤ l) : Balanced l cs := by
  intro depth pos rest
  obtain ⟨os, heq, hos⟩ := h depth pos rest
  refine ⟨os, heq, fun o ho => ?_⟩
  have := hos o ho
  omega

theorem append (hc : Balanced k cs) (hd : Balanced k ds) : Balanced k (cs ++ ds) := by
  intro depth pos rest
  obtain ⟨os, hos, hle⟩ := hc depth pos (ds ++ rest)
  obtain ⟨os', hos', hle'⟩ := hd depth (pos + byteLength cs) rest
  refine ⟨os ++ os', ?_, ?_⟩
  · rw [List.append_assoc, hos, hos', List.append_assoc, byteLength_append, Nat.add_assoc]
  · intro o ho
    rcases List.mem_append.mp ho with ho | ho
    · exact hle o ho
    · exact hle' o ho

theorem plain {c : Char} (h : isMark c = false) : Balanced k [c] := by
  intro depth pos rest
  refine ⟨[], ?_, nofun⟩
  rw [List.singleton_append, openings_unmarked h, byteLength_cons, byteLength_nil, Nat.add_zero,
    List.nil_append]

theorem unmarked (h : cs.any isMark = false) : Balanced k cs := by
  induction cs with
  | nil => exact .nil
  | cons c cs ih =>
    rw [List.any_cons, Bool.or_eq_false_iff] at h
    obtain ⟨hfirst, hrest⟩ := h
    have hplain : Balanced k [c] := .plain hfirst
    exact hplain.append (ih hrest)

/-- A text in brackets opens one more. -/
theorem enclosed {x y : Char} (hopen : isOpening x = true) (hclose : isClosing y = true)
    (h : Balanced k cs) : Balanced (k + 1) (x :: cs ++ [y]) := by
  intro depth pos rest
  obtain ⟨os, hos, hle⟩ := h (depth + 1) (pos + x.utf8Size) ([y] ++ rest)
  refine ⟨(pos, depth + 1) :: os, ?_, ?_⟩
  · rw [List.append_assoc, List.cons_append, openings_opening hopen, hos, List.singleton_append,
      openings_closing hclose, List.cons_append, byteLength_append, byteLength_cons,
      byteLength_cons, byteLength_nil]
    simp only [Nat.add_assoc, Nat.add_zero]
  · intro o ho
    rcases List.mem_cons.mp ho with rfl | ho
    · dsimp only
      omega
    · have := hle o ho
      omega

end Balanced

/-! ### Quoted text -/

theorem openings_body {q : Char} {body : List Char} (h : QuotedBody q body) (depth pos : Nat)
    (rest : List Char) :
    openings (.quoted q) depth pos (body ++ rest) =
      openings (.quoted q) depth (pos + byteLength body) rest := by
  induction h generalizing pos with
  | nil => rfl
  | plain hne hbackslash hline _ ih =>
    rw [List.cons_append, openings_quoted hne hbackslash hline, ih, byteLength_cons, Nat.add_assoc]
  | escape _ ih =>
    have hsize : '\\'.utf8Size = 1 := rfl
    rw [List.cons_append, List.cons_append, openings, ih, byteLength_cons, byteLength_cons, hsize]
    simp only [Nat.add_assoc]

/-- Quoted text is passed as a whole. -/
theorem openings_string {cs : List Char} (h : StringText cs) (depth pos : Nat)
    (rest : List Char) :
    openings .code depth pos (cs ++ rest) = openings .code depth (pos + byteLength cs) rest := by
  cases h with
  | intro hq hbody =>
    rw [List.cons_append, (openings_quote hq).1, List.append_assoc, openings_body hbody,
      List.singleton_append, (openings_quote hq).2, byteLength_cons, byteLength_append,
      byteLength_cons, byteLength_nil]
    simp only [Nat.add_assoc, Nat.add_zero]

/-- **Brackets in quoted text are not counted.** -/
theorem balanced_string {cs : List Char} (h : StringText cs) : Balanced 0 cs :=
  fun depth pos rest => ⟨[], openings_string h depth pos rest, List.forall_mem_nil _⟩

/-- **A balanced text passes the check of its brackets.** -/
theorem checkBrackets_of_balanced {k maxDepth : Nat} {cs : List Char} (h : Balanced k cs)
    (hle : k ≤ maxDepth) : checkBrackets maxDepth cs = .ok () := by
  obtain ⟨os, heq, hos⟩ := h 0 0 []
  rw [List.append_nil] at heq
  rw [openings_nil, List.append_nil] at heq
  rw [checkBrackets, heq]
  split
  · next pos depth hfind =>
    have hover := List.find?_some hfind
    have hopen := hos _ (List.mem_of_find?_eq_some hfind)
    simp only [decide_eq_true_eq] at hover
    omega
  · rfl

end SafeExpr
