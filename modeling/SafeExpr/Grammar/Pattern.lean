/-
  SafeExpr/Grammar/Pattern.lean
  =============================
  **Grammars of ordered choice, and what they match.**

  A `Pattern` describes texts.  Choice is ordered and final: the second alternative is
  tried only where the first one fails, and repetition takes as much as it can.  A text
  therefore has at most one reading, and `Grammar.match` computes it.

  *Rules* are the named patterns of a grammar.  A `token` is read as a solid piece; in
  every other rule blanks may stand between the parts of a sequence and between
  repetitions.  Blanks are taken before the next part is tried, so they are also taken
  where that part then matches no text at all.

  *Trees.*  Each rule that matches outside of a token leaves a node with the span of
  the text it matched.

  *Trail.*  Failures are recorded for error messages: the farthest place at which a
  rule failed, and the rules that failed there.  A rule is recorded in place of the
  rules tried inside it at the same place, except where exactly one was.

  The recursion is bounded by fuel, one unit per nested pattern.
-/
import SafeExpr.Syntax.Span

namespace SafeExpr

/-! ### Patterns and trees -/

/-- What can stand in the text, over a set `R` of rules. -/
inductive Pattern (R : Type) where
  /-- Exactly these characters. -/
  | text (cs : List Char)
  /-- One character of a class. -/
  | char (accepts : Char → Bool)
  | rule (r : R)
  | seq (p q : Pattern R)
  | choice (p q : Pattern R)
  | optional (p : Pattern R)
  /-- Any number of times. -/
  | many (p : Pattern R)
  /-- `p` does not follow; nothing is taken. -/
  | unless (p : Pattern R)
  | endOfText

namespace Pattern

variable {R : Type}

instance : Append (Pattern R) := ⟨seq⟩
instance : OrOp (Pattern R) := ⟨choice⟩

/-- The characters of a string. -/
def lit (s : String) : Pattern R := .text s.toList

/-- The first of the alternatives that matches. -/
def oneOf : List (Pattern R) → Pattern R
  | [] => .char fun _ => false
  | [p] => p
  | p :: ps => .choice p (oneOf ps)

/-- One time or more. -/
def some (p : Pattern R) : Pattern R := p ++ many p

/-- Nothing, or `p`s separated by commas, perhaps with a comma after the last. -/
def commaList (p : Pattern R) : Pattern R :=
  optional (p ++ many (lit "," ++ p) ++ optional (lit ","))

end Pattern

/-- What was matched: the nodes of the rules, each with its span. -/
inductive Tree (R : Type) where
  /-- A token and its text. -/
  | leaf (rule : R) (span : Span) (text : List Char)
  | node (rule : R) (span : Span) (children : List (Tree R))
deriving Repr

namespace Tree

variable {R : Type}

def rule : Tree R → R
  | leaf r _ _ | node r _ _ => r

def span : Tree R → Span
  | leaf _ s _ | node _ s _ => s

def children : Tree R → List (Tree R)
  | leaf .. => []
  | node _ _ cs => cs

end Tree

/-! ### Reading -/

/-- A place in the text: its byte offset and the text from there on. -/
structure Cursor where
  pos : Nat
  rest : List Char
deriving DecidableEq, Repr

namespace Cursor

def start (cs : List Char) : Cursor := ⟨0, cs⟩

/-- The cursor after `cs`, if they come next. -/
def take? (cs : List Char) (c : Cursor) : Option Cursor :=
  if cs.isPrefixOf c.rest then .some ⟨c.pos + byteLength cs, c.rest.drop cs.length⟩ else none

/-- The cursor after one character of a class, if one comes next. -/
def char? (accepts : Char → Bool) (c : Cursor) : Option Cursor :=
  match c.rest with
  | x :: rest => if accepts x then .some ⟨c.pos + x.utf8Size, rest⟩ else none
  | [] => none

/-- The characters between `c` and the later place `d`. -/
def upTo (c d : Cursor) : List Char := takeBytes (d.pos - c.pos) c.rest

end Cursor

/-- The farthest place at which rules failed, and those rules, in the order of their
    failure. -/
structure Trail (R : Type) where
  pos : Nat
  tried : List R

namespace Trail

variable {R : Type}

def start : Trail R := ⟨0, []⟩

/-- The rules that failed at `pos`. -/
def triedAt (t : Trail R) (pos : Nat) : List R := if t.pos = pos then t.tried else []

/-- The trail after rule `r`, entered at `pos` with the trail `before`, has failed and
    left the trail `after`. -/
def fail (before after : Trail R) (pos : Nat) (r : R) : Trail R :=
  if pos < after.pos then after
  else if (after.triedAt pos).length = (before.triedAt pos).length + 1 then after
  else ⟨pos, before.triedAt pos ++ [r]⟩

end Trail

/-- A set of rules: the pattern of each, which of them are tokens, and the blanks that
    may stand between the parts of the others. -/
structure Grammar (R : Type) where
  pattern : R → Pattern R
  isToken : R → Bool
  skipBlanks : Cursor → Cursor

/-- The outcome of matching a pattern. -/
inductive Outcome (R : Type) where
  /-- The place after the matched text, and the nodes found in it. -/
  | matched (next : Cursor) (trees : List (Tree R))
  | failed
  | outOfFuel

namespace Grammar

variable {R : Type} (g : Grammar R)

/-- The place at which the next part of a sequence begins. -/
def gap (inToken : Bool) (c : Cursor) : Cursor := if inToken then c else g.skipBlanks c

mutual

/-- Matches a pattern at a place. -/
def run : Nat → Bool → Pattern R → Cursor → Trail R → Outcome R × Trail R
  | 0, _, _, _, t => (.outOfFuel, t)
  | fuel + 1, inToken, p, c, t =>
    match p with
    | .text cs =>
      match c.take? cs with
      | some d => (.matched d [], t)
      | none => (.failed, t)
    | .char accepts =>
      match c.char? accepts with
      | some d => (.matched d [], t)
      | none => (.failed, t)
    | .endOfText => (if c.rest.isEmpty then .matched c [] else .failed, t)
    | .rule r =>
      match run fuel (inToken || g.isToken r) (g.pattern r) c t with
      | (.matched d trees, t') =>
        if inToken then (.matched d [], t')
        else if g.isToken r then (.matched d [.leaf r ⟨c.pos, d.pos⟩ (c.upTo d)], t')
        else (.matched d [.node r ⟨c.pos, d.pos⟩ trees], t')
      | (.failed, t') => (.failed, if inToken then t' else t.fail t' c.pos r)
      | (.outOfFuel, t') => (.outOfFuel, t')
    | .seq p q =>
      match run fuel inToken p c t with
      | (.matched d ts, t) =>
        match run fuel inToken q (g.gap inToken d) t with
        | (.matched e us, t) => (.matched e (ts ++ us), t)
        | other => other
      | other => other
    | .choice p q =>
      match run fuel inToken p c t with
      | (.failed, t) => run fuel inToken q c t
      | other => other
    | .optional p =>
      match run fuel inToken p c t with
      | (.failed, t) => (.matched c [], t)
      | other => other
    | .many p =>
      match run fuel inToken p c t with
      | (.matched d ts, t) => runAgain fuel inToken p ts.reverse d t
      | (.failed, t) => (.matched c [], t)
      | other => other
    | .unless p =>
      match run fuel inToken p c t with
      | (.matched _ _, t) => (.failed, t)
      | (.failed, t) => (.matched c [], t)
      | other => other

/-- Matches a pattern any number of further times, taking blanks before each.  The
    nodes found so far come in reverse. -/
def runAgain :
    Nat → Bool → Pattern R → List (Tree R) → Cursor → Trail R → Outcome R × Trail R
  | 0, _, _, _, _, t => (.outOfFuel, t)
  | fuel + 1, inToken, p, found, c, t =>
    match run fuel inToken p (g.gap inToken c) t with
    | (.matched d ts, t) => runAgain fuel inToken p (ts.reverseAux found) d t
    | (.failed, t) => (.matched c found.reverse, t)
    | other => other

end

end Grammar

end SafeExpr
