/-
  SafeExpr/Proofs/Parse/Scan.lean
  ===============================
  **The scan of the brackets sees the brackets of the grammar.**

  The scan goes through a text character by character and knows of quotes and comments
  only.  Still, where the grammar reads a text as an expression or an assignment, the scan
  lists just the nodes in brackets: blanks, comments and string tokens are passed as a
  whole, the other tokens consist of characters that it does not mind, and a node in
  brackets opens one with its first character and closes it with its last (`scans_of_reads`).
-/
import SafeExpr.Proofs.Grammar.Nesting
import SafeExpr.Proofs.Grammar.Quoted
import SafeExpr.Proofs.Parse.Brackets

namespace SafeExpr

/-! ### From one place to a later one -/

/-- Between two places the scan lists `os`.  What the next characters belong to, and how
    many brackets are open, is `s` at the first place and `s'` at the second. -/
def Scans (s : Region × Nat) (c : Cursor) (os : List (Nat × Nat)) (s' : Region × Nat)
    (d : Cursor) : Prop :=
  openings s.1 s.2 c.pos c.rest = os ++ openings s'.1 s'.2 d.pos d.rest

namespace Scans

variable {s s' s'' : Region × Nat} {c d e : Cursor} {os os' : List (Nat × Nat)}

theorem refl (s : Region × Nat) (c : Cursor) : Scans s c [] s c := rfl

theorem trans (h : Scans s c os s' d) (h' : Scans s' d os' s'' e) :
    Scans s c (os ++ os') s'' e := by
  unfold Scans at h h' ⊢
  rw [h, h', List.append_assoc]

/-- What lists nothing, in front. -/
theorem pass (h : Scans s c [] s' d) (h' : Scans s' d os s'' e) : Scans s c os s'' e :=
  h.trans h'

/-- One character. -/
theorem step {x : Char} (h : c.Passes d [x])
    (hx : openings s.1 s.2 c.pos (x :: d.rest) =
      os ++ openings s'.1 s'.2 (c.pos + x.utf8Size) d.rest) : Scans s c os s' d := by
  unfold Scans
  rw [h.rest, h.pos, List.singleton_append, hx, byteLength_cons, byteLength_nil, Nat.add_zero]

end Scans

/-- The scan passes characters that it does not mind. -/
theorem scans_unmarked {mid : List Char} (hmid : mid.any isMark = false) (k : Nat) :
    ∀ {c d : Cursor}, c.Passes d mid → Scans (.code, k) c [] (.code, k) d := by
  induction mid with
  | nil =>
    intro c d h
    unfold Scans
    rw [h.rest, h.pos]
    rfl
  | cons x mid ih =>
    intro c d h
    obtain ⟨hx, hmid⟩ := Bool.or_eq_false_iff.mp hmid
    have hfirst : c.Passes ⟨c.pos + x.utf8Size, mid ++ d.rest⟩ [x] := ⟨h.rest, rfl⟩
    have hrest : (Cursor.mk (c.pos + x.utf8Size) (mid ++ d.rest)).Passes d mid :=
      ⟨rfl, by rw [h.pos, byteLength_cons, Nat.add_assoc]⟩
    have hstep : Scans (.code, k) c [] (.code, k) ⟨c.pos + x.utf8Size, mid ++ d.rest⟩ :=
      .step hfirst (openings_unmarked hx)
    exact hstep.pass (ih hmid hrest)

namespace Grammar

open Outcome (matched)
open Pattern (lit)

/-! ### Blanks and comments -/

theorem scans_skip (k n : Nat) : ∀ pos (cs : List Char), cs.length ≤ n →
    Scans (.code, k) ⟨pos, cs⟩ [] (.code, k) (skipLayout pos cs) ∧
      Scans (.comment, k) ⟨pos, cs⟩ [] (.code, k) (skipComment pos cs) := by
  induction n with
  | zero =>
    intro pos cs hcs
    rw [List.length_eq_zero_iff.mp (Nat.le_zero.mp hcs)]
    simp [Scans, skipLayout, skipComment, openings]
  | succ n ih =>
    intro pos cs hcs
    constructor
    · -- what is skipped as one piece, and then the rest
      have hskip : ∀ piece rest, piece.any isMark = false → rest.length ≤ n →
          Scans (.code, k) ⟨pos, piece ++ rest⟩ [] (.code, k)
            (skipLayout (pos + byteLength piece) rest) := by
        intro piece rest hpiece hrest
        have hpasses : (Cursor.mk pos (piece ++ rest)).Passes
            ⟨pos + byteLength piece, rest⟩ piece := ⟨rfl, rfl⟩
        exact (scans_unmarked hpiece k hpasses).pass (ih _ rest hrest).1
      unfold skipLayout
      split
      · exact hskip [' '] _ (by decide) (Nat.le_of_succ_le_succ hcs)
      · exact hskip ['\t'] _ (by decide) (Nat.le_of_succ_le_succ hcs)
      · exact hskip ['\r'] _ (by decide) (Nat.le_of_succ_le_succ hcs)
      · exact hskip ['\n'] _ (by decide) (Nat.le_of_succ_le_succ hcs)
      · exact hskip ['\\', '\n'] _ (by decide) (Nat.le_of_succ_le (Nat.le_of_succ_le_succ hcs))
      · exact hskip ['\\', '\r', '\n'] _ (by decide)
          (Nat.le_of_succ_le (Nat.le_of_succ_le (Nat.le_of_succ_le_succ hcs)))
      · next rest => exact (ih (pos + 1) rest (Nat.le_of_succ_le_succ hcs)).2
      · exact .refl _ _
    · unfold skipComment
      split
      · rfl
      · next rest => exact (ih (pos + 1) rest (Nat.le_of_succ_le_succ hcs)).1
      · next x rest hx =>
        have hpasses : (Cursor.mk pos (x :: rest)).Passes ⟨pos + x.utf8Size, rest⟩ [x] :=
          ⟨rfl, rfl⟩
        have hline : x ≠ '\n' := by
          rintro rfl
          exact hx rfl
        have hfirst : Scans (.comment, k) ⟨pos, x :: rest⟩ [] (.comment, k)
            ⟨pos + x.utf8Size, rest⟩ := .step hpasses (by simp [openings, hline])
        exact hfirst.pass (ih _ rest (Nat.le_of_succ_le_succ hcs)).2

theorem scans_gap (b : Bool) (c : Cursor) (k : Nat) :
    Scans (.code, k) c [] (.code, k) (expression.gap b c) := by
  unfold gap
  split
  · exact .refl _ c
  · exact (scans_skip k _ c.pos c.rest (Nat.le_refl _)).1

/-! ### String tokens -/

theorem scans_string {c d : Cursor} {ts : List (Tree Rule)}
    (h : Reads expression true (.one (rulePattern .string)) c (matched d ts)) (k : Nat) :
    Scans (.code, k) c [] (.code, k) d := by
  obtain ⟨cs, hcs, hpasses⟩ := stringText_of_reads h
  unfold Scans
  rw [hpasses.rest, hpasses.pos, openings_string hcs]
  rfl

/-! ### Roles of patterns -/

/-- What a part of a pattern does to the brackets. -/
inductive Role where
  /-- It closes those that it opens. -/
  | keeps
  /-- Its first character opens one. -/
  | opens
  /-- Its last character closes one. -/
  | closes
  | encloses
deriving DecidableEq

namespace Role

/-- How many are open before the part, inside of it and behind it, where `k` are open
    around the brackets. -/
def before (k : Nat) : Role → Nat
  | closes => k + 1
  | _ => k

def inside (k : Nat) : Role → Nat
  | keeps => k
  | _ => k + 1

def after (k : Nat) : Role → Nat
  | opens => k + 1
  | _ => k

/-- The bracket that the part opens itself. -/
def opened (pos k : Nat) : Role → List (Nat × Nat)
  | keeps | closes => []
  | opens | encloses => [(pos, k + 1)]

/-- The role of the first part of a sequence, and that of the second. -/
def first : Role → Role
  | keeps | closes => keeps
  | opens | encloses => opens

def second : Role → Role
  | keeps | opens => keeps
  | closes | encloses => closes

end Role

/-- The rules that are at work in an expression or an assignment. -/
def isInner : Rule → Bool
  | .source | .statement | .statementBody | .statementKeyword => false
  | _ => true

/-- Does the pattern have this role, inside of a token or outside? -/
def plays (inToken : Bool) : Role → Pattern Rule → Bool
  | .keeps, .text cs => !cs.any isMark
  | .opens, .text [x] => isOpening x
  | .closes, .text [x] => isClosing x
  | .keeps, .char accepts => marks.all fun x => !accepts x
  | .keeps, .rule r => !inToken && isInner r
  | role, .seq p q => plays inToken role.first p && plays inToken role.second q
  | role, .choice p q => plays inToken role p && plays inToken role q
  | .keeps, .optional p | .keeps, .many p => plays inToken .keeps p
  | .keeps, .unless _ | .keeps, .endOfText => true
  | _, _ => false

/-- The role of what a rule reads. -/
def ruleRole (r : Rule) : Role := if r.isBracketed then .encloses else .keeps

theorem plays_rulePattern {r : Rule} (hr : isInner r = true) (hstring : r ≠ .string) :
    plays (isSolid r) (ruleRole r) (rulePattern r) = true := by
  cases r with
  | before op => cases op <;> decide
  | between op => cases op <;> decide
  | keyword k => cases k <;> decide
  | string => exact absurd rfl hstring
  | source | statement | statementBody | statementKeyword => cases hr
  | _ => decide

/-- Further repetitions have the role of the whole repetition. -/
def playsGoal (inToken : Bool) (role : Role) : Goal Rule → Bool
  | .one p => plays inToken role p
  | .more p => plays inToken role (.many p)

/-! ### What is read -/

variable {c d e : Cursor} {b : Bool} {ts us : List (Tree Rule)}

/-- What the scan lists where a part with this role is read, which leaves the nodes. -/
def Lists (role : Role) (c d : Cursor) (ts : List (Tree Rule)) : Prop :=
  ∀ k, Scans (.code, role.before k) c
    (role.opened c.pos k ++ Tree.bracketsAll (role.inside k) ts) (.code, role.after k) d

theorem Lists.of_skip (h : ∀ k, Scans (.code, k) c [] (.code, k) d) : Lists .keeps c d [] := h

theorem lists_text {cs : List Char} {role : Role} (h : c.Passes d cs)
    (hrole : plays b role (.text cs) = true) : Lists role c d [] := by
  cases role with
  | keeps =>
    have hcs : cs.any isMark = false := by rwa [plays, Bool.not_eq_true'] at hrole
    exact .of_skip fun k => scans_unmarked hcs k h
  | opens =>
    rcases cs with - | ⟨x, - | ⟨y, cs⟩⟩
    · cases hrole
    · exact fun k => Scans.step h (openings_opening hrole)
    · cases hrole
  | closes =>
    rcases cs with - | ⟨x, - | ⟨y, cs⟩⟩
    · cases hrole
    · exact fun k => Scans.step h (openings_closing hrole)
    · cases hrole
  | encloses => cases hrole

theorem lists_char {x : Char} {accepts : Char → Bool} {role : Role} (h : c.Passes d [x])
    (hx : accepts x = true) (hrole : plays b role (.char accepts) = true) :
    Lists role c d [] := by
  cases role with
  | keeps =>
    have hunmarked : [x].any isMark = false := by
      rw [List.any_cons, List.any_nil, Bool.or_false]
      exact isMark_eq_false hrole hx
    exact .of_skip fun k => scans_unmarked hunmarked k h
  | opens | closes | encloses => cases hrole

theorem Lists.append (hts : Lists .keeps c d ts) (hus : Lists .keeps d e us) :
    Lists .keeps c e (ts ++ us) := by
  intro k
  rw [Tree.bracketsAll_append]
  exact (hts k).trans (hus k)

theorem Lists.of_gap (h : Lists .keeps (expression.gap b c) d ts) : Lists .keeps c d ts :=
  fun k => (scans_gap b c k).pass (h k)

/-- One part, the blanks behind it, and the other part. -/
theorem Lists.seq {role : Role} (hp : Lists role.first c d ts)
    (hq : Lists role.second (expression.gap b d) e us) : Lists role c e (ts ++ us) := by
  intro k
  cases role with
  | keeps => exact hp.append hq.of_gap k
  | opens =>
    rw [Tree.bracketsAll_append]
    exact (hp k).trans (hq.of_gap (k + 1))
  | closes =>
    rw [Tree.bracketsAll_append]
    exact (hp (k + 1)).trans ((scans_gap b d (k + 1)).pass (hq k))
  | encloses =>
    rw [Tree.bracketsAll_append]
    exact (hp k).trans ((scans_gap b d (k + 1)).pass (hq k))

theorem isBracketed_eq_false {r : Rule} (hr : isSolid r = true) : r.isBracketed = false := by
  cases r with
  | callOp | subscriptOp | grouped | tuple | generator | list | listComp | dict | dictComp | set
  | setComp => cases hr
  | _ => rfl

/-- A token lists nothing. -/
theorem lists_leaf {r : Rule} (hr : isSolid r = true)
    (hread : Reads expression true (.one (rulePattern r)) c (matched d ts))
    (hparts : r ≠ .string → Lists (ruleRole r) c d ts) :
    Lists .keeps c d [.leaf r ⟨c.pos, d.pos⟩ (c.upTo d)] := by
  intro k
  have hplain := isBracketed_eq_false hr
  have hleaf : Tree.bracketsAll k [.leaf r ⟨c.pos, d.pos⟩ (c.upTo d)] = [] := by
    simp [Tree.bracketsAll, Tree.brackets, hplain]
  change Scans _ c ([] ++ Tree.bracketsAll k _) _ d
  rw [hleaf]
  by_cases hstring : r = .string
  · subst hstring
    exact scans_string hread k
  · have hkeeps := hparts hstring
    rw [ruleRole, hplain, trees_eq_nil_of_reads hread _ _ rfl rfl] at hkeeps
    exact hkeeps k

/-- Another node lists its own bracket, if it has one, and those of its parts. -/
theorem lists_node {r : Rule} (h : Lists (ruleRole r) c d ts) :
    Lists .keeps c d [.node r ⟨c.pos, d.pos⟩ ts] := by
  intro k
  have hnode : Tree.bracketsAll k [.node r ⟨c.pos, d.pos⟩ ts] =
      (ruleRole r).opened c.pos k ++ Tree.bracketsAll ((ruleRole r).inside k) ts := by
    unfold ruleRole
    by_cases hb : r.isBracketed = true <;>
      simp [Tree.bracketsAll, Tree.brackets, hb, Role.opened, Role.inside]
  have hk := h k
  rw [← hnode] at hk
  unfold ruleRole at hk
  split at hk
  · exact hk
  · exact hk

theorem lists_rule {r : Rule}
    (hread : Reads expression (isSolid r) (.one (rulePattern r)) c (matched d ts))
    (hparts : r ≠ .string → Lists (ruleRole r) c d ts) :
    Lists .keeps c d (expression.leaves false r c d ts) := by
  unfold leaves
  rw [if_neg Bool.false_ne_true]
  split
  · next htoken =>
    have hr : isSolid r = true := htoken
    rw [hr] at hread
    exact lists_leaf hr hread hparts
  · next htoken =>
    refine lists_node (hparts ?_)
    rintro rfl
    exact htoken rfl

/-! ### Roles of the parts -/

theorem plays_seq {role : Role} {p q : Pattern Rule} :
    plays b role (.seq p q) = (plays b role.first p && plays b role.second q) := by
  cases role <;> rfl

theorem plays_choice {role : Role} {p q : Pattern Rule} :
    plays b role (.choice p q) = (plays b role p && plays b role q) := by
  cases role <;> rfl

/-- A repetition keeps the brackets, and so does each time. -/
theorem keeps_of_plays_many {role : Role} {p : Pattern Rule}
    (h : plays b role (.many p) = true) : role = .keeps ∧ plays b .keeps p = true := by
  cases role with
  | keeps => exact ⟨rfl, h⟩
  | opens | closes | encloses => cases h

theorem keeps_of_plays_rule {role : Role} {r : Rule} (h : plays b role (.rule r) = true) :
    role = .keeps ∧ b = false ∧ isInner r = true := by
  cases role with
  | keeps =>
    rw [plays, Bool.and_eq_true, Bool.not_eq_true'] at h
    exact ⟨rfl, h⟩
  | opens | closes | encloses => cases h

/-- **The scan lists the nodes in brackets.** -/
theorem scans_of_reads {goal : Goal Rule} {o : Outcome Rule} (h : Reads expression b goal c o) :
    ∀ d ts role, o = matched d ts → playsGoal b role goal = true → Lists role c d ts := by
  induction h with
  | textFails | charFails | endOfTextFails | seqFails | seqFailsLater | ruleFails
  | unlessFails =>
    intro d ts role ho
    cases ho
  | text h =>
    rintro d ts role ⟨⟩ hrole
    exact lists_text (Cursor.passes_of_take? h) hrole
  | char h =>
    rintro d ts role ⟨⟩ hrole
    obtain ⟨x, hx, hpasses⟩ := Cursor.passes_of_char? h
    exact lists_char hpasses hx hrole
  | endOfText | optionalSkips | «unless» | manySkips | moreEnds =>
    rintro d ts role ⟨⟩ hrole
    cases role with
    | keeps => exact .of_skip fun k => .refl _ _
    | opens | closes | encloses => cases hrole
  | optional hp ih =>
    rintro d ts role ⟨⟩ hrole
    cases role with
    | keeps => exact ih _ _ _ rfl hrole
    | opens | closes | encloses => cases hrole
  | choice hp ih =>
    rintro d ts role ⟨⟩ hrole
    rw [playsGoal, plays_choice, Bool.and_eq_true] at hrole
    exact ih _ _ _ rfl hrole.1
  | choiceLater hp hq ihp ihq =>
    intro d ts role ho hrole
    rw [playsGoal, plays_choice, Bool.and_eq_true] at hrole
    exact ihq _ _ _ ho hrole.2
  | seq hp hq ihp ihq =>
    rintro _ _ role ⟨⟩ hrole
    rw [playsGoal, plays_seq, Bool.and_eq_true] at hrole
    exact (ihp _ _ _ rfl hrole.1).seq (ihq _ _ _ rfl hrole.2)
  | many hp hmore ihp ihmore =>
    rintro _ _ role ⟨⟩ hrole
    obtain ⟨rfl, heach⟩ := keeps_of_plays_many hrole
    exact (ihp _ _ _ rfl heach).append (ihmore _ _ _ rfl heach)
  | more hp hmore ihp ihmore =>
    rintro _ _ role ⟨⟩ hrole
    obtain ⟨rfl, heach⟩ := keeps_of_plays_many hrole
    exact (ihp _ _ _ rfl heach).of_gap.append (ihmore _ _ _ rfl heach)
  | rule hp ih =>
    rintro _ _ role ⟨⟩ hrole
    obtain ⟨rfl, rfl, hr⟩ := keeps_of_plays_rule hrole
    exact lists_rule hp fun hstring => ih _ _ _ rfl (plays_rulePattern hr hstring)

end Grammar

end SafeExpr
