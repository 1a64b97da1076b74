/-
  SafeExpr/Proofs/Names.lean
  ==========================
  **What a host may call a name is what the grammar reads as one.**

  A namespace asks `isIdentifier` before it binds a name, without the parser.  The two agree: a
  text is an identifier if, and only if, it is parsed as a name that is all of it
  (`identifiers_parse`).  Whatever a namespace binds can therefore be written in an expression,
  and no reserved word can, in any source.
-/
import SafeExpr.Proofs.Namespace.Build
import SafeExpr.Proofs.Parse.Fits
import SafeExpr.Proofs.Parse.ReadBack
import SafeExpr.Proofs.RoundTrip

namespace SafeExpr

open Grammar (Reads Opens Cut expression followers letterStarts operandPart prefixPart)
open Outcome (matched)

theorem isIdentifier_eq_isName (name : String) : isIdentifier name = isName name := by
  unfold isIdentifier isName isWord
  cases name.toList <;> rfl

/-! ### From a name to its node -/

/-- A name that is all of a text is matched as one token. -/
theorem matchSource_name {n : String} (hn : isName n = true) :
    ∃ span inner s span', matchSource n.toList = .ok (.node .source span
      [.node .expression inner [.leaf .ident s n.toList], .node .endOfInput span' []]) := by
  have hcut : Cut [] := Grammar.stops_nil.cut
  have hopens : Opens (n.toList ++ []) := (headed_name hn).opens hcut.word
  have hskip : expression.skipBlanks ⟨0, n.toList ++ []⟩ = ⟨0, n.toList ++ []⟩ := hopens.solid 0
  have hbefore : Reads expression false (.one (.many prefixPart)) ⟨0, n.toList ++ []⟩
      (matched ⟨0, n.toList ++ []⟩ []) := .manySkips (hopens.before_fails 0)
  have hbegins : Begins letterStarts (n.toList ++ []) :=
    Grammar.begins_word (isWord_of_isName hn) []
  have hleaf := (Grammar.takes_ident hn hcut.word).leaf (r := .ident) rfl 0
  have hoperand := Grammar.reads_operand (r := .ident) [.boolean, .none] (by decide) hbegins
    (by decide) (by decide) (fun q hq => fails_constant_of_isName hn hcut.word q hq 0) hleaf
  have hend : Begins followers [] := ⟨⟨[], true⟩, by decide, [], rfl, fun _ => rfl⟩
  have hread := Grammar.reads_expression hbefore hskip hoperand hend
  rw [List.append_nil] at hskip hread hopens
  obtain ⟨span, span', hmatch⟩ :=
    matchSource_of_expression hskip (Opens.statement_fails hopens 0) hread
  exact ⟨span, _, _, span', hmatch⟩

/-- A name that is all of a text is parsed as itself, and covers the text. -/
theorem parseWith_name {n : String} (hn : isName n = true) {maxDepth : Nat}
    (hroom : 1 ≤ maxDepth) :
    parseWith maxDepth n = .ok (.name ⟨0, byteLength n.toList⟩ n) := by
  obtain ⟨span, inner, s, span', hmatch⟩ := matchSource_name hn
  have hchars := all_isWordChar_of_isWord (isWord_of_isName hn)
  rw [parseWith_of_token hmatch (balanced_of_word hchars) rfl rfl hroom, Build.literal,
    String.ofList_toList]

/-! ### From a node to its name -/

/-- Every name of a parsed tree is one. -/
theorem isName_of_mem_nodes {source n : String} {maxDepth : Nat} {e : Expr} {span : Span}
    (h : parseWith maxDepth source = .ok e) (hmem : .name span n ∈ e.nodes) : isName n = true :=
  (parseWith_fits h).2 (.name span n) hmem

theorem isName_of_reserved {w : String} (h : w ∈ reservedWords ∨ w ∈ statementWords) :
    isName w = false := by
  have hwords : statementWords ⊆ reservedWords := by decide
  have hw : w ∈ reservedWords := h.elim id (@hwords w)
  simp [isName, hw]

/-! ### Identifiers -/

/-- **A text is an identifier exactly if it is parsed as a name that is all of it.**  So every
name of a namespace, exported or builtin, can be written as an expression; and no word that the
grammar reserves or that opens a statement is an identifier, or a name anywhere in a parsed
source. -/
theorem identifiers_parse :
    (∀ name, isIdentifier name = true ↔ ∃ span, parse name = .ok (.name span name)) ∧
    (∀ m selection ns, Namespace.build m selection = .ok ns →
      ∀ name, name ∈ ns.exports ∨ (ns.lookup name).isSome = true →
        parse name = .ok (.name ⟨0, byteLength name.toList⟩ name)) ∧
    ∀ word, word ∈ reservedWords ∨ word ∈ statementWords →
      isIdentifier word = false ∧ ∀ maxDepth source e, parseWith maxDepth source = .ok e →
        ∀ span, .name span word ∉ e.nodes := by
  have hroom : 1 ≤ defaultMaxDepth := by decide
  refine ⟨fun name => ?_, fun m selection ns hbuild name hname => ?_, fun word hword => ?_⟩
  · rw [isIdentifier_eq_isName]
    constructor
    · intro hn
      exact ⟨_, parseWith_name hn hroom⟩
    · rintro ⟨span, hparse⟩
      exact isName_of_mem_nodes hparse (Expr.mem_nodes_self _)
  · refine parseWith_name ?_ hroom
    have hbuildable := Namespace.build_eq_ok_iff.mp ⟨ns, hbuild⟩
    obtain ⟨ns', hbuild', -, hexportable, hlookup⟩ := Namespace.build_of_buildable hbuildable
    cases hbuild.symm.trans hbuild'
    rw [← isIdentifier_eq_isName]
    rcases hname with hexported | hbound
    · exact hexportable.identifiers name hexported
    · rw [hlookup] at hbound
      exact (Namespace.named_of_grants hexportable hbound).1
  · have hnot := isName_of_reserved hword
    refine ⟨by rw [isIdentifier_eq_isName, hnot], ?_⟩
    intro maxDepth source e hparse span hmem
    have hn := isName_of_mem_nodes hparse hmem
    rw [hnot] at hn
    cases hn

open Namespace in
/-- Words that begin with a reserved one, as an export and alone, and two reserved words. -/
theorem identifiers_parse_prefixed :
    let m := Module.ofHistory "host" [.constant "forest" (.int 1), .declare ["forest"]]
    (∃ ns, build m (.only ["abs"]) = .ok ns ∧ parse "forest" = .ok (.name ⟨0, 6⟩ "forest") ∧
      parse "abs" = .ok (.name ⟨0, 3⟩ "abs")) ∧
    (∃ span, parse "not_in" = .ok (.name span "not_in")) ∧
    isIdentifier "elif" = false ∧ isIdentifier "for" = false := by
  intro m
  obtain ⟨hiff, hbound, hreserved⟩ := identifiers_parse
  refine ⟨?_, (hiff "not_in").mp (by decide), (hreserved "elif" (.inl (by decide))).1,
    (hreserved "for" (.inr (by decide))).1⟩
  have hbuilt : (build m (.only ["abs"])).toOption.map (fun ns =>
      ns.exports.contains "forest" && (ns.lookup "abs").isSome) = some true := by
    decide +kernel
  obtain ⟨ns, hns, hnames⟩ := Option.map_eq_some_iff.mp hbuilt
  have hok := Except.toOption_eq_some_iff.mp hns
  rw [Bool.and_eq_true, List.contains_iff_mem] at hnames
  exact ⟨ns, hok, hbound m _ ns hok "forest" (.inl hnames.1),
    hbound m _ ns hok "abs" (.inr hnames.2)⟩

end SafeExpr
