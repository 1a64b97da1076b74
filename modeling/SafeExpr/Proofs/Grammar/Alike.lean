/-
  SafeExpr/Proofs/Grammar/Alike.lean
  ==================================
  **Texts of the same tokens are read in the same way.**

  Two texts are alike if the same tokens stand in both, whatever is between them (`Alike`).  What
  reads token by token comes to the same outcome in both: it fails, or it leaves the same nodes,
  their spans aside, and alike texts behind them (`same_of_reads`).
-/
import SafeExpr.Proofs.Grammar.Piece
import SafeExpr.Proofs.Parse.Unplaced

namespace SafeExpr.Grammar

open Outcome (matched failed)
open Pattern (lit)

/-! ### Texts of the same tokens -/

/-- The same tokens stand in both texts, from where they begin. -/
inductive Alike : List Char → List Char → Prop
  | nil : Alike [] []
  | cons {t g g' xs ys : List Char} (ht : TokenText t) (h : Follows t (g ++ xs))
    (h' : Follows t (g' ++ ys)) (hgap : Gap g xs) (hgap' : Gap g' ys) (hrest : Alike xs ys) :
    Alike (t ++ (g ++ xs)) (t ++ (g' ++ ys))

/-- The same tokens stand in both texts behind their gaps. -/
inductive AlikeBehind : List Char → List Char → Prop
  | intro {g g' xs ys : List Char} (hgap : Gap g xs) (hgap' : Gap g' ys) (h : Alike xs ys) :
    AlikeBehind (g ++ xs) (g' ++ ys)

theorem Tokens.alike {ls ls' : List Lexeme} (h : Tokens Follows ls) (hr : Relaid ls ls') :
    Alike (spell ls) (spell ls') := by
  have h' := h.relaid hr
  induction hr with
  | nil => exact .nil
  | cons hgap' hparted hr ih =>
    cases h with
    | cons ht hfollows hgap h =>
      cases h' with
      | cons _ hfollows' _ h' => exact .cons ht hfollows hfollows' hgap hgap' (ih h h')

namespace Alike

variable {xs ys : List Char}

theorem symm (h : Alike xs ys) : Alike ys xs := by
  induction h with
  | nil => exact .nil
  | cons ht h h' hgap hgap' _ ih => exact .cons ht h' h hgap' hgap ih

theorem solid (h : Alike xs ys) : Solid xs := by
  cases h with
  | nil => exact solid_nil
  | cons ht => exact ht.solid _

theorem behind (h : Alike xs ys) : AlikeBehind xs ys := .intro (.nil xs) (.nil ys) h

theorem isEmpty_eq (h : Alike xs ys) : ys.isEmpty = xs.isEmpty := by
  cases h with
  | nil => rfl
  | @cons t g g' xs ys ht =>
    have hne := ht.ne_nil
    cases t with
    | nil => exact absurd rfl hne
    | cons c cs => rfl

end Alike

theorem AlikeBehind.skip {c c' : Cursor} (h : AlikeBehind c.rest c'.rest) :
    Alike (expression.gap false c).rest (expression.gap false c').rest := by
  rcases c with ⟨pos, cs⟩
  rcases c' with ⟨pos', cs'⟩
  cases h with
  | @intro g g' xs ys hgap hgap' h =>
    have hleft : expression.gap false ⟨pos, g ++ xs⟩ = ⟨pos + byteLength g, xs⟩ :=
      hgap.skip h.solid pos
    have hright : expression.gap false ⟨pos', g' ++ ys⟩ = ⟨pos' + byteLength g', ys⟩ :=
      hgap'.skip h.symm.solid pos'
    change Alike (expression.gap false ⟨pos, g ++ xs⟩).rest (expression.gap false ⟨pos', g' ++ ys⟩).rest
    rw [hleft, hright]
    exact h

/-! ### The same outcomes -/

/-- Both readings fail, or both leave the same nodes, their spans aside, and alike texts. -/
inductive SameOutcome : Outcome Rule → Outcome Rule → Prop
  | failed : SameOutcome failed failed
  | matched {d d' : Cursor} {ts ts' : List (Tree Rule)} (h : AlikeBehind d.rest d'.rest)
    (hts : ts'.map Tree.unplaced = ts.map Tree.unplaced) :
    SameOutcome (matched d ts) (matched d' ts')

/-- Readings of one goal at two places, the first of which comes to `o`. -/
def SameReading (goal : Goal Rule) (c' : Cursor) (o : Outcome Rule) : Prop :=
  ∃ o', Reads expression false goal c' o' ∧ SameOutcome o o'

/-- A sign is spelled in both texts or in neither. -/
theorem sign_alike {s : String} (hs : s ∈ bracketTexts ++ operatorTexts) {xs ys : List Char}
    (h : Alike xs ys) :
    (¬ s.toList <+: xs ∧ ¬ s.toList <+: ys) ∨
      ∃ xs' ys', xs = s.toList ++ xs' ∧ ys = s.toList ++ ys' ∧ AlikeBehind xs' ys' := by
  have hne : ∀ s ∈ bracketTexts ++ operatorTexts, s.toList ≠ [] := by decide
  have htoken : ∀ s ∈ bracketTexts ++ operatorTexts, TokenText s.toList := by
    intro s hs
    rcases List.mem_append.mp hs with h | h
    · exact .mark (mark_of_bracket s h).1
    · exact .operator h
  cases h with
  | nil => exact Or.inl (by simpa using hne s hs)
  | @cons t g g' xs ys ht h h' hgap hgap' hrest =>
    by_cases hstarts : s.toList <+: t
    · refine Or.inr ?_
      have hspelled : t = s.toList ∨ ∃ tail, t = s.toList ++ tail ∧ TokenText tail ∧
          ∀ rest, Follows t rest → Follows tail rest := by
        rcases List.mem_append.mp hs with hbracket | hoperator
        · exact Or.inl (bracket_of_begins hbracket ht (hstarts.trans (List.prefix_append t xs)))
        · exact operator_or_tail hoperator ht h (hstarts.trans (List.prefix_append t _))
      rcases hspelled with rfl | ⟨tail, rfl, htail, hfollows⟩
      · exact ⟨_, _, rfl, rfl, .intro hgap hgap' hrest⟩
      · refine ⟨_, _, List.append_assoc _ _ _, List.append_assoc _ _ _, ?_⟩
        exact (Alike.cons htail (hfollows _ h) (hfollows _ h') hgap hgap' hrest).behind
    · exact Or.inl ⟨fun hp => hstarts (h.longest _ (htoken s hs) hp),
        fun hp => hstarts (h'.longest _ (htoken s hs) hp)⟩

theorem begins_nil : Begins [.end] [] :=
  ⟨_, List.mem_singleton_self _, [], rfl, fun _ => rfl⟩

theorem piece_fails_nil {r : Rule} (hr : isSolid r = true) (hbody : r ≠ .statementBody) :
    Fails (.rule r) [] := by
  refine fails_of_begins begins_nil (by decide) ?_
  cases r with
  | statementBody => exact absurd rfl hbody
  | before op => cases op <;> decide
  | between op => cases op <;> decide
  | keyword k => cases k <;> decide
  | _ => first | decide | cases hr

/-- A rule that is read as one piece takes the same token in both texts or fails in both. -/
theorem piece_alike {r : Rule} (hr : isSolid r = true) (hbody : r ≠ .statementBody)
    {xs ys : List Char} (h : Alike xs ys)
    (hguard : r = .integer → ∃ pos, Reads expression false (.one (.rule .float)) ⟨pos, xs⟩ failed) :
    (Fails (.rule r) xs ∧ Fails (.rule r) ys) ∨
      ∃ t xs' ys', xs = t ++ xs' ∧ ys = t ++ ys' ∧ Takes (rulePattern r) t xs' ∧
        Takes (rulePattern r) t ys' ∧ AlikeBehind xs' ys' := by
  cases h with
  | nil => exact Or.inl ⟨piece_fails_nil hr hbody, piece_fails_nil hr hbody⟩
  | @cons t g g' xs ys ht hfollows hfollows' hgap hgap' hrest =>
    have hinteger : r = .integer → ¬ FloatLiteral t := by
      intro heq hfloat
      obtain ⟨es, behind, hsplit, -, htakes⟩ := hfloat.atLeast (g ++ xs)
      obtain ⟨pos, hfail⟩ := hguard heq
      have hread := htakes.leaf (r := .float) rfl pos
      rw [List.append_assoc, ← hsplit] at hread
      cases hread.deterministic hfail
    cases atToken hr hbody ht hinteger with
    | takes htakes =>
      exact Or.inr ⟨t, _, _, rfl, rfl, htakes _ hfollows, htakes _ hfollows',
        .intro hgap hgap' hrest⟩
    | fails hfails => exact Or.inl ⟨hfails _ hfollows, hfails _ hfollows'⟩

theorem piece_same {r : Rule} (hr : isSolid r = true) (hbody : r ≠ .statementBody)
    {c c' : Cursor} {o : Outcome Rule} (h : Reads expression false (.one (.rule r)) c o)
    (halike : Alike c.rest c'.rest)
    (hguard : r = .integer → Reads expression false (.one (.rule .float)) c failed) :
    SameReading (.one (.rule r)) c' o := by
  rcases c with ⟨pos, cs⟩
  rcases c' with ⟨pos', cs'⟩
  have hguard' : r = .integer →
      ∃ pos, Reads expression false (.one (.rule .float)) ⟨pos, cs⟩ failed :=
    fun heq => ⟨pos, hguard heq⟩
  rcases piece_alike hr hbody halike hguard' with
    ⟨hleft, hright⟩ | ⟨t, xs, ys, rfl, rfl, hleft, hright, hbehind⟩
  · rw [h.deterministic (hleft pos)]
    exact ⟨_, hright pos', .failed⟩
  · rw [h.deterministic (hleft.leaf hr pos)]
    exact ⟨_, hright.leaf hr pos', .matched hbehind rfl⟩

/-! ### A point and a name -/

/-- Where the token is no point, no member is read. -/
theorem memberOp_fails {t rest : List Char} (ht : TokenText t) (hfollows : Follows t rest)
    (hpoint : t ≠ ['.']) : Fails (.rule .memberOp) (t ++ rest) := by
  refine Fails.rule (fun pos => ?_) rfl
  by_cases hstarts : ['.'] <+: t ++ rest
  · have hbegun : Begun .point t := ht.begun_behind hstarts
    cases hbegun with
    | point => exact absurd rfl hpoint
    | fraction hfloat =>
      -- the point belongs to a float: what follows is no name
      obtain ⟨more, rfl⟩ := hfollows.longest ['.'] (.mark (t := ".") (by decide)) hstarts
      obtain ⟨d, ds, rfl, hd⟩ := hfloat.behind_point
      have hsolid : Solid (d :: (ds ++ rest)) :=
        solid_of_head (not_gapStart_of_word (by simp [isWordChar, Char.isAlphanum, hd])) _
      have hname : Fails (.rule .memberName) (d :: (ds ++ rest)) := by
        have hdigits : ∀ c ∈ "0123456789".toList, isWordStart c = false :=
          List.all_iff_forall_prop.mp (by decide)
        exact fails_of_pattern rfl fun pos =>
          .seqFails (char_start_fails (hdigits d (mem_of_isDigit hd)) pos _)
      have hread := Reads.text (g := expression) (b := false)
        (take?_append pos ['.'] (d :: (ds ++ rest)))
      exact hread.andThenFails (hsolid.gap_eq false _) (hname _)
  · exact .seqFails (.textFails (take?_eq_none hstarts pos))

theorem memberOp_same {c c' : Cursor} {o : Outcome Rule}
    (h : Reads expression false (.one (.rule .memberOp)) c o) (halike : Alike c.rest c'.rest) :
    SameReading (.one (.rule .memberOp)) c' o := by
  rcases c with ⟨pos, cs⟩
  rcases c' with ⟨pos', cs'⟩
  cases halike with
  | nil =>
    have hfail : Fails (.rule .memberOp) [] := fails_of_begins begins_nil (by decide) (by decide)
    rw [h.deterministic (hfail pos)]
    exact ⟨_, hfail pos', .failed⟩
  | @cons t g g' xs ys ht hfollows hfollows' hgap hgap' hrest =>
    by_cases hpoint : t = ['.']
    · subst hpoint
      have hskip : ∀ {g xs : List Char}, Gap g xs → Solid xs → ∀ pos,
          Reads expression false (.one (lit ".")) ⟨pos, ['.'] ++ (g ++ xs)⟩
            (matched ⟨pos + byteLength ['.'], g ++ xs⟩ []) ∧
          expression.gap false ⟨pos + byteLength ['.'], g ++ xs⟩ =
            ⟨pos + byteLength ['.'] + byteLength g, xs⟩ :=
        fun hgap hsolid pos => ⟨.text (take?_append pos _ _), hgap.skip hsolid _⟩
      obtain ⟨hleft, hleftGap⟩ := hskip hgap hrest.solid pos
      obtain ⟨hright, hrightGap⟩ := hskip hgap' hrest.symm.solid pos'
      rcases piece_alike (r := .memberName) rfl nofun hrest nofun with
        ⟨hfail, hfail'⟩ | ⟨t, xs, ys, rfl, rfl, htakes, htakes', hbehind⟩
      · have hread := hleft.andThenFails hleftGap (hfail _)
        have hread' := hright.andThenFails hrightGap (hfail' _)
        rw [h.deterministic (.ruleFails hread)]
        exact ⟨_, .ruleFails hread', .failed⟩
      · have hread := hleft.andThen hleftGap (htakes.leaf (r := .memberName) rfl _)
        have hread' := hright.andThen hrightGap (htakes'.leaf (r := .memberName) rfl _)
        rw [h.deterministic (.rule hread)]
        exact ⟨_, .rule hread', .matched hbehind rfl⟩
    · rw [h.deterministic (memberOp_fails ht hfollows hpoint pos)]
      exact ⟨_, memberOp_fails ht hfollows' hpoint pos', .failed⟩

/-! ### Token by token -/

section Goals

variable {p q : Pattern Rule} {c c' d d' : Cursor} {o : Outcome Rule}

def Goal.tokenwise : Goal Rule → Bool
  | .one p => Grammar.tokenwise p
  | .more p => Grammar.tokenwise p && !Grammar.guarded p

def Goal.guarded : Goal Rule → Bool
  | .one p => Grammar.guarded p
  | .more _ => false

/-- Further repetitions begin behind a gap. -/
def Goal.Starts : Goal Rule → List Char → List Char → Prop
  | .one _ => Alike
  | .more _ => AlikeBehind

/-- An integer is only looked for where there is no float. -/
def Goal.Guard (goal : Goal Rule) (c : Cursor) : Prop :=
  goal.guarded = true → Reads expression false (.one (.rule .float)) c failed

theorem guard_one (h : guarded p = false) : Goal.Guard (.one p) c := by
  intro hguarded
  rw [Goal.guarded, h] at hguarded
  cases hguarded

theorem guard_more : Goal.Guard (.more p) c := nofun

theorem tokenwise_alone (h : (tokenwise p && !guarded p) = true) :
    tokenwise p = true ∧ guarded p = false := by
  rwa [Bool.and_eq_true, Bool.not_eq_true'] at h

theorem tokenwise_optional (h : Goal.tokenwise (.one (.optional p)) = true) :
    tokenwise p = true ∧ guarded p = false := tokenwise_alone h

theorem tokenwise_unless (h : Goal.tokenwise (.one (.unless p)) = true) :
    tokenwise p = true ∧ guarded p = false := tokenwise_alone h

theorem tokenwise_many (h : Goal.tokenwise (.more p) = true) :
    tokenwise p = true ∧ guarded p = false := tokenwise_alone h

theorem tokenwise_seq (h : Goal.tokenwise (.one (.seq p q)) = true) :
    tokenwise p = true ∧ tokenwise q = true ∧ guarded p = false ∧ guarded q = false := by
  have hparts : (tokenwise p && tokenwise q && !guarded p && !guarded q) = true := h
  simpa [and_assoc] using hparts

theorem tokenwise_choice (h : Goal.tokenwise (.one (.choice p q)) = true) :
    tokenwise p = true ∧ tokenwise q = true ∧ (guarded q = true → p = .rule .float) := by
  have hparts : (tokenwise p && tokenwise q && (!guarded q || isFloat p)) = true := h
  simp only [Bool.and_eq_true, Bool.or_eq_true, Bool.not_eq_true'] at hparts
  refine ⟨hparts.1.1, hparts.1.2, fun hguarded => ?_⟩
  have hfloat := hparts.2.resolve_left (by simp [hguarded])
  unfold isFloat at hfloat
  split at hfloat
  · rfl
  · cases hfloat

theorem text_same {cs : List Char} (h : Reads expression false (.one (.text cs)) c o)
    (hcs : tokenwise (.text cs) = true) (halike : Alike c.rest c'.rest) :
    SameReading (.one (.text cs)) c' o := by
  rw [tokenwise, List.any_eq_true] at hcs
  obtain ⟨s, hs, heq⟩ := hcs
  obtain rfl := of_decide_eq_true heq
  rcases c with ⟨pos, cs⟩
  rcases c' with ⟨pos', cs'⟩
  rcases sign_alike hs halike with ⟨hleft, hright⟩ | ⟨xs, ys, rfl, rfl, hbehind⟩
  · rw [h.deterministic (.textFails (take?_eq_none hleft pos))]
    exact ⟨_, .textFails (take?_eq_none hright pos'), .failed⟩
  · rw [h.deterministic (.text (take?_append pos _ xs))]
    exact ⟨_, .text (take?_append pos' _ ys), .matched hbehind rfl⟩

theorem endOfText_same (h : Reads expression false (.one .endOfText) c o)
    (halike : Alike c.rest c'.rest) : SameReading (.one .endOfText) c' o := by
  cases h with
  | endOfText h => exact ⟨_, .endOfText (halike.isEmpty_eq.trans h), .matched halike.behind rfl⟩
  | endOfTextFails h => exact ⟨_, .endOfTextFails (halike.isEmpty_eq.trans h), .failed⟩

/-- A rule is read as one piece, or is a point with a name, or reads token by token. -/
theorem rule_kind {r : Rule} (hr : isInner r = true) :
    (isSolid r = true ∧ r ≠ .statementBody) ∨ r = .memberOp ∨
      isSolid r = false ∧ tokenwise (rulePattern r) = true ∧ guarded (rulePattern r) = false := by
  by_cases hsolid : isSolid r = true
  · refine Or.inl ⟨hsolid, ?_⟩
    rintro rfl
    cases hr
  · rw [Bool.not_eq_true] at hsolid
    by_cases hmember : r = .memberOp
    · exact Or.inr (Or.inl hmember)
    · exact Or.inr (Or.inr ⟨hsolid, tokenwise_rulePattern hr hsolid hmember⟩)

end Goals

/-- **What reads token by token comes to the same outcome in alike texts.** -/
theorem same_of_reads {b : Bool} {goal : Goal Rule} {c : Cursor} {o : Outcome Rule}
    (h : Reads expression b goal c o) : b = false → goal.tokenwise = true → goal.Guard c →
      ∀ c' : Cursor, goal.Starts c.rest c'.rest → SameReading goal c' o := by
  induction h with
  | text h =>
    rintro rfl hp - c' halike
    exact text_same (.text h) hp halike
  | textFails h =>
    rintro rfl hp - c' halike
    exact text_same (.textFails h) hp halike
  | char | charFails =>
    intro _ hp
    cases hp
  | endOfText h =>
    rintro rfl - - c' halike
    exact endOfText_same (.endOfText h) halike
  | endOfTextFails h =>
    rintro rfl - - c' halike
    exact endOfText_same (.endOfTextFails h) halike
  | optional h ih =>
    rintro rfl hp - c' halike
    obtain ⟨hp, hfree⟩ := tokenwise_optional hp
    obtain ⟨_, hread, _ | ⟨hd, hts⟩⟩ := ih rfl hp (guard_one hfree) c' halike
    exact ⟨_, .optional hread, .matched hd hts⟩
  | optionalSkips h ih =>
    rintro rfl hp - c' halike
    obtain ⟨hp, hfree⟩ := tokenwise_optional hp
    obtain ⟨_, hread, ⟨⟩⟩ := ih rfl hp (guard_one hfree) c' halike
    exact ⟨_, .optionalSkips hread, .matched (Alike.behind halike) rfl⟩
  | «unless» h ih =>
    rintro rfl hp - c' halike
    obtain ⟨hp, hfree⟩ := tokenwise_unless hp
    obtain ⟨_, hread, ⟨⟩⟩ := ih rfl hp (guard_one hfree) c' halike
    exact ⟨_, .unless hread, .matched (Alike.behind halike) rfl⟩
  | unlessFails h ih =>
    rintro rfl hp - c' halike
    obtain ⟨hp, hfree⟩ := tokenwise_unless hp
    obtain ⟨_, hread, _ | ⟨hd, hts⟩⟩ := ih rfl hp (guard_one hfree) c' halike
    exact ⟨_, .unlessFails hread, .failed⟩
  | seq hp hq ihp ihq =>
    rintro rfl hpq - c' halike
    obtain ⟨hp, hq, hfree, hfree'⟩ := tokenwise_seq hpq
    obtain ⟨_, hread, _ | ⟨hd, hts⟩⟩ := ihp rfl hp (guard_one hfree) c' halike
    obtain ⟨_, hread', _ | ⟨he, hus⟩⟩ := ihq rfl hq (guard_one hfree') _ hd.skip
    exact ⟨_, .seq hread hread', .matched he (by rw [List.map_append, List.map_append, hts, hus])⟩
  | seqFails hp ihp =>
    rintro rfl hpq - c' halike
    obtain ⟨hp, hq, hfree, hfree'⟩ := tokenwise_seq hpq
    obtain ⟨_, hread, ⟨⟩⟩ := ihp rfl hp (guard_one hfree) c' halike
    exact ⟨_, .seqFails hread, .failed⟩
  | seqFailsLater hp hq ihp ihq =>
    rintro rfl hpq - c' halike
    obtain ⟨hp, hq, hfree, hfree'⟩ := tokenwise_seq hpq
    obtain ⟨_, hread, _ | ⟨hd, hts⟩⟩ := ihp rfl hp (guard_one hfree) c' halike
    obtain ⟨_, hread', ⟨⟩⟩ := ihq rfl hq (guard_one hfree') _ hd.skip
    exact ⟨_, .seqFailsLater hread hread', .failed⟩
  | choice hp ihp =>
    rintro rfl hpq hguard c' halike
    obtain ⟨hp, hq, -⟩ := tokenwise_choice hpq
    obtain ⟨_, hread, _ | ⟨hd, hts⟩⟩ := ihp rfl hp hguard c' halike
    exact ⟨_, .choice hread, .matched hd hts⟩
  | choiceLater hp hq ihp ihq =>
    rintro rfl hpq hguard c' halike
    obtain ⟨hpw, hqw, hlater⟩ := tokenwise_choice hpq
    obtain ⟨_, hread, ⟨⟩⟩ := ihp rfl hpw hguard c' halike
    obtain ⟨o', hread', hsame⟩ := ihq rfl hqw (fun hguarded => hlater hguarded ▸ hp) c' halike
    exact ⟨o', .choiceLater hread hread', hsame⟩
  | many hp hmore ihp ihmore =>
    rintro rfl hp - c' halike
    obtain ⟨hp, hfree⟩ := tokenwise_many hp
    obtain ⟨_, hread, _ | ⟨hd, hts⟩⟩ := ihp rfl hp (guard_one hfree) c' halike
    obtain ⟨_, hread', _ | ⟨he, hus⟩⟩ := ihmore rfl (by simp [Goal.tokenwise, hp, hfree]) guard_more _ hd
    exact ⟨_, .many hread hread', .matched he (by rw [List.map_append, List.map_append, hts, hus])⟩
  | manySkips hp ihp =>
    rintro rfl hp - c' halike
    obtain ⟨hp, hfree⟩ := tokenwise_many hp
    obtain ⟨_, hread, ⟨⟩⟩ := ihp rfl hp (guard_one hfree) c' halike
    exact ⟨_, .manySkips hread, .matched (Alike.behind halike) rfl⟩
  | more hp hmore ihp ihmore =>
    rintro rfl hpm - c' hbehind
    obtain ⟨hp, hfree⟩ := tokenwise_many hpm
    obtain ⟨_, hread, _ | ⟨hd, hts⟩⟩ := ihp rfl hp (guard_one hfree) _ (AlikeBehind.skip hbehind)
    obtain ⟨_, hread', _ | ⟨he, hus⟩⟩ := ihmore rfl hpm guard_more _ hd
    exact ⟨_, .more hread hread', .matched he (by rw [List.map_append, List.map_append, hts, hus])⟩
  | moreEnds hp ihp =>
    rintro rfl hpm - c' hbehind
    obtain ⟨hp, hfree⟩ := tokenwise_many hpm
    obtain ⟨_, hread, ⟨⟩⟩ := ihp rfl hp (guard_one hfree) _ (AlikeBehind.skip hbehind)
    exact ⟨_, .moreEnds hread, .matched hbehind rfl⟩
  | @rule b r c d ts h ih =>
    rintro rfl hr hguard c' halike
    rcases rule_kind hr with ⟨hsolid, hbody⟩ | rfl | ⟨hsolid, hp, hfree⟩
    · exact piece_same hsolid hbody (.rule h) halike fun heq => hguard (by rw [heq]; rfl)
    · exact memberOp_same (.rule h) halike
    · have htoken : expression.isToken r = false := hsolid
      rw [htoken] at ih
      obtain ⟨_, hread, _ | ⟨hd, hts⟩⟩ := ih rfl hp (guard_one hfree) c' halike
      refine ⟨_, .rule (by rw [htoken]; exact hread), .matched hd ?_⟩
      simp [leaves, htoken, Tree.unplaced, hts]
  | @ruleFails b r c h ih =>
    rintro rfl hr hguard c' halike
    rcases rule_kind hr with ⟨hsolid, hbody⟩ | rfl | ⟨hsolid, hp, hfree⟩
    · exact piece_same hsolid hbody (.ruleFails h) halike fun heq => hguard (by rw [heq]; rfl)
    · exact memberOp_same (.ruleFails h) halike
    · have htoken : expression.isToken r = false := hsolid
      rw [htoken] at ih
      obtain ⟨_, hread, ⟨⟩⟩ := ih rfl hp (guard_one hfree) c' halike
      exact ⟨_, .ruleFails (by rw [htoken]; exact hread), .failed⟩

end SafeExpr.Grammar
