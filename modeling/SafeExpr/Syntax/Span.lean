/-
  SafeExpr/Syntax/Span.lean
  =========================
  **Where in the source a piece of syntax stands.**

  A `Span` is a half-open range of byte offsets into the UTF-8 text of an
  expression.  Every node of a syntax tree and every error that concerns the text
  carries one.
-/

namespace SafeExpr

/-! ### Byte offsets -/

/-- The number of bytes that characters take in UTF-8. -/
def byteLength (cs : List Char) : Nat := cs.foldr (fun c n => c.utf8Size + n) 0

/-- The first characters of a text, as many as fit into `n` bytes. -/
def takeBytes : Nat → List Char → List Char
  | _, [] => []
  | n, c :: rest => if c.utf8Size ≤ n then c :: takeBytes (n - c.utf8Size) rest else []

/-- The text from byte `n` on. -/
def dropBytes : Nat → List Char → List Char
  | _, [] => []
  | n, c :: rest => if n = 0 then c :: rest else dropBytes (n - c.utf8Size) rest

@[simp] theorem byteLength_nil : byteLength [] = 0 := rfl

theorem byteLength_cons (c : Char) (cs : List Char) :
    byteLength (c :: cs) = c.utf8Size + byteLength cs := rfl

theorem byteLength_append (cs ds : List Char) :
    byteLength (cs ++ ds) = byteLength cs + byteLength ds := by
  induction cs with
  | nil => rw [List.nil_append, byteLength_nil, Nat.zero_add]
  | cons c cs ih => rw [List.cons_append, byteLength_cons, byteLength_cons, ih, Nat.add_assoc]

theorem takeBytes_byteLength (cs ds : List Char) : takeBytes (byteLength cs) (cs ++ ds) = cs := by
  induction cs with
  | nil =>
    cases ds with
    | nil => rfl
    | cons d ds =>
      have := d.utf8Size_pos
      rw [List.nil_append, takeBytes, if_neg (by simp only [byteLength_nil]; omega)]
  | cons c cs ih =>
    rw [List.cons_append, takeBytes, byteLength_cons, if_pos (Nat.le_add_right _ _),
      Nat.add_sub_cancel_left, ih]

/-! ### Spans -/

/-- The bytes from `start` up to, and without, `stop`. -/
structure Span where
  start : Nat
  stop : Nat
deriving DecidableEq, Repr, Inhabited

namespace Span

/-- From the start of the first span to the end of the second. -/
def combine (a b : Span) : Span := ⟨a.start, b.stop⟩

/-- The span of no bytes at `pos`. -/
def point (pos : Nat) : Span := ⟨pos, pos⟩

/-- A span is empty when it ends where it starts (or before). -/
def isEmpty (s : Span) : Bool := s.stop ≤ s.start

/-- `start..stop`. -/
def text (s : Span) : String := toString s.start ++ ".." ++ toString s.stop

/-- The part of a source that a span covers. -/
def slice (s : Span) (source : String) : String :=
  String.ofList (takeBytes (s.stop - s.start) (dropBytes s.start source.toList))

end Span

end SafeExpr
