/-
  SafeExpr/Proofs/Syntax/Naming.lean
  ==================================
  **Names for quoted texts and fractions.**

  The words of a text other than those of the grammar, its quoted texts and its fractions are
  each spelled in letters (`tagged`), so that what they were can still be told
  (`tagged_injective`).  What is left is a text of names and whole numbers, which the grammar reads
  back.  On trees this puts names for the names, texts and fractions of a tree (`naming`), and two of
  them become the same only where an infinite fraction meets the name `inf`, as which it is written
  (`seen_of_named`).
-/
import SafeExpr.Proofs.Number.Notation
import SafeExpr.Proofs.Syntax.Rewriting
import SafeExpr.Proofs.Text.QuotedLiteral

namespace SafeExpr

/-! ### Characters in letters -/

/-- As many letters as the code point says, and one to end them. -/
def letters (cs : List Char) : List Char :=
  cs.flatMap fun c => List.replicate c.toNat 'a' ++ ['b']

/-- A word that no word of the grammar is. -/
def tagged (c : Char) (cs : List Char) : List Char := c :: '_' :: letters cs

theorem letters_cons (c : Char) (cs : List Char) :
    letters (c :: cs) = List.replicate c.toNat 'a' ++ 'b' :: letters cs := by
  rw [letters, List.flatMap_cons, List.append_assoc]
  rfl

theorem letters_injective {cs ds : List Char} (h : letters cs = letters ds) : cs = ds := by
  have hne : ∀ (c : Char) (cs : List Char), letters (c :: cs) ≠ [] := by
    intro c cs
    simp [letters_cons]
  have hspan : ∀ (c : Char) (cs : List Char),
      (letters (c :: cs)).takeWhile (· = 'a') = List.replicate c.toNat 'a' ∧
        (letters (c :: cs)).dropWhile (· = 'a') = 'b' :: letters cs := by
    intro c cs
    rw [letters_cons]
    refine span_of_ends (fun d hd => ?_) (by rintro _ ⟨⟩; decide)
    rw [List.eq_of_mem_replicate hd]
    decide
  induction cs generalizing ds with
  | nil =>
    cases ds with
    | nil => rfl
    | cons d ds => exact absurd h.symm (hne d ds)
  | cons c cs ih =>
    cases ds with
    | nil => exact absurd h (hne c cs)
    | cons d ds =>
      have htake := (hspan c cs).1
      have hdrop := (hspan c cs).2
      rw [h, (hspan d ds).1] at htake
      rw [h, (hspan d ds).2, List.cons.injEq] at hdrop
      have hcode := congrArg List.length htake
      rw [List.length_replicate, List.length_replicate] at hcode
      rw [Char.toNat_inj.mp hcode.symm, ih hdrop.2.symm]

theorem tagged_injective {c d : Char} {cs ds : List Char} (h : tagged c cs = tagged d ds) :
    c = d ∧ cs = ds := by
  rw [tagged, tagged, List.cons.injEq, List.cons.injEq] at h
  exact ⟨h.1, letters_injective h.2.2⟩

theorem isName_tagged {c : Char} (hc : isWordStart c = true) (cs : List Char) :
    isName (String.ofList (tagged c cs)) = true := by
  have hletters : (letters cs).all isWordChar = true := by
    rw [List.all_eq_true]
    intro d hd
    obtain ⟨x, -, hd⟩ := List.mem_flatMap.mp hd
    rcases List.mem_append.mp hd with hd | hd
    · rw [List.eq_of_mem_replicate hd]
      decide
    · rw [List.mem_singleton.mp hd]
      decide
  have hreserved : ∀ w ∈ reservedWords, w.toList.contains '_' = false := by decide
  rw [isName, Bool.and_eq_true, Bool.not_eq_true', String.toList_ofList]
  refine ⟨?_, ?_⟩
  · rw [tagged, isWord, hc, List.all_cons, hletters]
    decide
  · rw [List.contains_eq_mem, decide_eq_false_iff_not]
    intro hmem
    have hnone := hreserved _ hmem
    rw [String.toList_ofList, List.contains_eq_mem, decide_eq_false_iff_not] at hnone
    exact hnone (by simp [tagged])

/-! ### Numbers in a text -/

theorem AllDigits.all_isNumberChar {ds : List Char} (h : AllDigits ds) :
    ds.all Rewriting.isNumberChar = true := by
  rw [List.all_eq_true]
  intro d hd
  simp [Rewriting.isNumberChar, isWordChar, Char.isAlphanum, h d hd]

/-- A number is one token: digits, perhaps a point and digits, and what goes on behind them. -/
theorem Rewriting.rewrites_number (f : Rewriting) {whole places more : List Char}
    (hwhole : AllDigits whole) (hne : whole ≠ []) (hplaces : AllDigits places)
    (hmore : more.all isNumberChar = true) :
    f.Rewrites (whole ++ pointed places ++ more) (f.number (whole ++ pointed places ++ more)) := by
  intro rest hrest
  obtain ⟨c, cs, rfl⟩ := List.exists_cons_of_ne_nil hne
  obtain ⟨hc, hcs : AllDigits cs⟩ := List.forall_mem_cons.mp hwhole
  have hopen : OpenToken.start c = .number [c] := by
    have hquote : c ≠ '"' := by
      rintro rfl
      cases hc
    simp [OpenToken.start, hquote, hc]
  have hpointed : ∀ w rest, f.runFrom (.number w) (pointed places ++ rest) =
      f.runFrom (.number (w ++ pointed places)) rest := by
    intro w rest
    cases places with
    | nil => simp [pointed]
    | cons d ds =>
      obtain ⟨hd, hds : AllDigits ds⟩ := List.forall_mem_cons.mp hplaces
      have hpoint := f.runFrom_number_point hd w (ds ++ rest)
      rw [f.runFrom_number hds.all_isNumberChar, List.append_assoc] at hpoint
      exact hpoint
  rw [List.append_assoc, List.append_assoc, List.append_assoc, List.cons_append, run_cons, hopen,
    f.runFrom_number hcs.all_isNumberChar, hpointed, f.runFrom_number hmore,
    hrest (.number _) rfl, close, List.append_assoc, List.append_assoc]
  rfl

namespace Decimal

variable {d : Decimal} {text : List Char}

theorem Written.rewrites (h : d.Written text) (f : Rewriting) : f.Rewrites text (f.number text) := by
  cases h with
  | @positional whole places hwhole hne hplaces =>
    have htext : f.Rewrites (whole ++ pointed places ++ []) (f.number (whole ++ pointed places ++ [])) :=
      f.rewrites_number hwhole hne hplaces rfl
    rwa [List.append_nil] at htext
  | @scientific whole places sign ds hwhole hne hplaces hsign hds =>
    have hsigns : ∀ s ∈ signs, s.all Rewriting.isNumberChar = true := by decide
    refine f.rewrites_number hwhole hne hplaces ?_
    rw [List.all_cons, List.all_append, hsigns sign hsign, hds.all_isNumberChar]
    decide

/-- No text of a decimal is that of a whole number. -/
theorem Written.not_digits (h : d.Written text) : text.all Char.isDigit = false := by
  rw [List.all_eq_false]
  cases h with
  | positional hwhole hne hplaces hsome =>
    refine ⟨'.', ?_, by decide⟩
    rw [pointed_of_ne_nil hsome]
    simp
  | scientific => exact ⟨'e', by simp, by decide⟩

end Decimal

/-! ### Names for everything -/

/-- Names for words, for numbers with a fraction and for quoted texts, each in a spelling of its own. -/
def Rewriting.naming : Rewriting where
  word cs := if String.ofList cs ∈ reservedWords then cs else tagged 'n' cs
  number cs := if cs.all Char.isDigit then cs else tagged 'f' cs
  quoted cs := tagged 's' cs

namespace Atom

/-- The text that an atom is named after, and in which spelling, if it is. -/
def tag? : Atom → Option (Char × List Char)
  | .name n => some ('n', n.toList)
  | .constant (.str s) => some ('s', (quoteLiteral s).toList)
  | .constant (.float x) =>
    if x.isInfinite then some ('n', "inf".toList) else some ('f', (x.render .literal).toList)
  | .constant _ => none

/-- The name of an atom. -/
def named (a : Atom) : Atom :=
  match a.tag? with
  | some (c, cs) => .name (String.ofList (tagged c cs))
  | none => a

/-- The atom as its text shows it: an infinite fraction is written as a name. -/
def seen : Atom → Atom
  | .constant (.float x) => if x.isInfinite then .name "inf" else .constant (.float x)
  | a => a

/-- What the texts of atoms say. -/
inductive Shown : Atom → Char × List Char → Prop
  | name (n : String) : Shown (.name n) ('n', n.toList)
  | str (s : String) : Shown (.constant (.str s)) ('s', (quoteLiteral s).toList)
  | float {x : Double} (hnan : x.isNaN = false) :
    Shown (.constant (.float x)) ('f', (x.render .literal).toList)

variable {a b : Atom} {s s' : Span} {t t' : Char × List Char}

theorem shown_of_tag? (hfits : (a.expr s).Fits) (h : a.tag? = some t) : a.seen.Shown t := by
  cases a with
  | name n =>
    cases h
    exact .name n
  | constant v =>
    cases v with
    | none | bool | int => cases h
    | str s =>
      cases h
      exact .str s
    | float x =>
      rw [tag?] at h
      rw [seen]
      split at h
      · next hinfinite =>
        cases h
        rw [if_pos hinfinite]
        exact .name "inf"
      · next hfinite =>
        cases h
        rw [if_neg hfinite]
        exact .float hfits.2

/-- The text tells what is shown. -/
theorem Shown.eq (ha : a.Shown t) (hb : b.Shown t') (h : t = t') : a = b := by
  cases ha with
  | name n =>
    cases hb with
    | name m =>
      have htext : n = m := String.toList_inj.mp (Prod.mk.inj h).2
      rw [htext]
    | str | float => cases congrArg Prod.fst h
  | str s =>
    cases hb with
    | str s' =>
      have htext : quoteLiteral s = quoteLiteral s' := String.toList_inj.mp (Prod.mk.inj h).2
      rw [quoteLiteral_injective htext]
    | name | float => cases congrArg Prod.fst h
  | @float x hx =>
    cases hb with
    | @float y hy =>
      have htext : x.render .literal = y.render .literal :=
        String.toList_inj.mp (Prod.mk.inj h).2
      rw [Double.render_injective hx hy htext]
    | name | str => cases congrArg Prod.fst h

theorem tag?_of_named (h : a.named = b.named) : a.tag? = b.tag? := by
  unfold named at h
  split at h
  · next c cs ha =>
    split at h
    · next d ds hb =>
      have htagged := String.ofList_inj.mp (Atom.name.inj h)
      obtain ⟨rfl, rfl⟩ := tagged_injective htagged
      rw [ha, hb]
    · next hb =>
      rw [← h] at hb
      cases hb
  · next ha =>
    split at h
    · next d ds hb =>
      rw [h] at ha
      cases ha
    · rw [h]

/-- **Atoms with the same name look the same.** -/
theorem seen_of_named (ha : (a.expr s).Fits) (hb : (b.expr s').Fits) (h : a.named = b.named) :
    a.seen = b.seen := by
  have htag := tag?_of_named h
  cases hat : a.tag? with
  | some t => exact (shown_of_tag? ha hat).eq (shown_of_tag? hb (htag.symm.trans hat)) rfl
  | none =>
    have hbt := htag.symm.trans hat
    rw [named, hat, named, hbt] at h
    exact congrArg seen h

section Tagged

variable {c : Char} {cs : List Char} (h : a.tag? = some (c, cs))
include h

theorem isWordStart_of_tag? : isWordStart c = true := by
  unfold tag? at h
  split at h
  · cases h
    decide
  · cases h
    decide
  · split at h
    · cases h
      decide
    · cases h
      decide
  · cases h

theorem named_of_tag? : a.named = .name (String.ofList (tagged c cs)) := by
  rw [named, h]

end Tagged

theorem named_of_none (h : a.tag? = none) : a.named = a := by
  rw [named, h]

end Atom

/-! ### The rewording -/

namespace Rewriting

theorem naming_reserved {n : String} (h : n ∈ reservedWords) : naming.word n.toList = n.toList :=
  if_pos (by rwa [String.ofList_toList])

theorem naming_free {n : String} (h : n ∉ reservedWords) :
    naming.word n.toList = tagged 'n' n.toList :=
  if_neg (by rwa [String.ofList_toList])

theorem keepsWords_naming : naming.KeepsWords := fun _ hw => naming_reserved hw

end Rewriting

namespace Rewording

open Rewriting (naming_reserved naming_free)

/-- A name for every name, quoted text and fraction. -/
def naming : Rewording where
  word n := String.ofList (Rewriting.naming.word n.toList)
  atom := Atom.named

/-- Trees as their texts show them. -/
def seen : Rewording := ⟨id, Atom.seen⟩

theorem naming_word (n : String) :
    naming.word n = String.ofList (Rewriting.naming.word n.toList) := rfl

theorem naming_atom (a : Atom) : naming.atom a = a.named := rfl

theorem naming_word_reserved {n : String} (h : n ∈ reservedWords) : naming.word n = n := by
  rw [naming_word, naming_reserved h, String.ofList_toList]

theorem isName_naming {n : String} (h : n ∉ reservedWords) : isName (naming.word n) = true := by
  rw [naming_word, naming_free h]
  exact isName_tagged (by decide) _

theorem not_mem_of_isName {n : String} (h : isName n = true) : n ∉ reservedWords := by
  rw [isName, Bool.and_eq_true, Bool.not_eq_true', List.contains_eq_mem,
    decide_eq_false_iff_not] at h
  exact h.2

theorem naming_word_injective : Function.Injective naming.word := by
  intro n m h
  by_cases hn : n ∈ reservedWords
  · by_cases hm : m ∈ reservedWords
    · rwa [naming_word_reserved hn, naming_word_reserved hm] at h
    · rw [naming_word_reserved hn] at h
      exact absurd (h ▸ hn) (not_mem_of_isName (isName_naming hm))
  · by_cases hm : m ∈ reservedWords
    · rw [naming_word_reserved hm] at h
      exact absurd (h ▸ hm) (not_mem_of_isName (isName_naming hn))
    · rw [naming_word, naming_word, naming_free hn, naming_free hm, String.ofList_inj] at h
      exact String.toList_inj.mp (tagged_injective h).2

theorem proper_naming : naming.Proper where
  name h := isName_naming (not_mem_of_isName h)
  word {n} h := by
    by_cases hn : n ∈ reservedWords
    · rwa [naming_word_reserved hn]
    · have hname := isName_naming hn
      rw [isName, Bool.and_eq_true] at hname
      exact hname.1
  fits {a s} h := by
    cases htag : a.tag? with
    | some t =>
      obtain ⟨c, cs⟩ := t
      rw [naming_atom, Atom.named_of_tag? htag]
      exact isName_tagged (Atom.isWordStart_of_tag? htag) cs
    | none =>
      rwa [naming_atom, Atom.named_of_none htag]
  simple a s := by
    cases htag : a.tag? with
    | some t =>
      obtain ⟨c, cs⟩ := t
      rw [naming_atom, Atom.named_of_tag? htag]
      rfl
    | none =>
      rw [naming_atom, Atom.named_of_none htag]
      cases a with
      | name => rfl
      | constant v =>
        cases v with
        | none | bool | int => rfl
        | str => cases htag
        | float x =>
          rw [Atom.tag?] at htag
          split at htag
          · cases htag
          · cases htag

end Rewording

/-! ### The rewriting -/

namespace Rewriting

theorem rewrites_name {n : String} (h : isName n = true) :
    naming.Rewrites n.toList (tagged 'n' n.toList) := by
  have hfree := Rewording.not_mem_of_isName h
  rw [isName, Bool.and_eq_true] at h
  rw [← naming_free hfree]
  exact rewrites_word h.1

theorem rewrites_float {x : Double} (hfits : x.isNegative = false ∧ x.isNaN = false)
    (hfinite : ¬ x.isInfinite = true) :
    naming.Rewrites (x.render .literal).toList (tagged 'f' (x.render .literal).toList) := by
  obtain ⟨body, hbody, htext⟩ := Double.spelled_render .literal hfits.2
  rw [hfits.1] at htext
  rcases hbody with ⟨hinfinite, -⟩ | ⟨-, hwritten⟩
  · exact absurd hinfinite hfinite
  · have hnumber : naming.number body = tagged 'f' body := if_neg (by simp [hwritten.not_digits])
    have hrewrites := hwritten.rewrites naming
    rw [hnumber] at hrewrites
    rw [htext]
    exact hrewrites

theorem rewrites_quoted (s : String) :
    naming.Rewrites (quoteLiteral s).toList (tagged 's' (quoteLiteral s).toList) := by
  intro rest _
  rw [toList_quoteLiteral]
  exact naming.run_quoted (quotedBody_literalChars s.toList) rest

theorem rewrites_int {n : Int64} (s : Span) (hn : 0 ≤ n.toInt) :
    naming.Rewrites (Expr.literal s (.int n)).chars (Expr.literal s (.int n)).chars := by
  rw [Expr.chars_natural s hn]
  have hdigits : AllDigits (Nat.toDigits 10 n.toInt.natAbs) := isDigit_of_mem_decimal
  have hnumber := naming.rewrites_number hdigits Nat.toDigits_ne_nil
    (List.forall_mem_nil _ : AllDigits []) (List.all_nil : ([] : List Char).all isNumberChar = true)
  have hsame : naming.number (Nat.toDigits 10 n.toInt.natAbs) = Nat.toDigits 10 n.toInt.natAbs :=
    if_pos (List.all_eq_true.mpr hdigits)
  rw [show pointed [] = [] from rfl, List.append_nil, List.append_nil, hsame] at hnumber
  exact hnumber

theorem rewrites_atom {a : Atom} {s : Span} (h : (a.expr s).Fits) :
    naming.Rewrites (a.expr s).chars (a.named.expr s).chars := by
  have htagged : ∀ cs, (Atom.expr s (.name (String.ofList cs))).chars = cs :=
    fun cs => String.toList_ofList
  cases a with
  | name n =>
    have htag : (Atom.name n).tag? = some ('n', n.toList) := rfl
    rw [Atom.named_of_tag? htag, htagged]
    exact rewrites_name h
  | constant v =>
    cases v with
    | none => exact rewrites_reserved keepsWords_naming (w := "None") (by decide)
    | bool b =>
      cases b with
      | true => exact rewrites_reserved keepsWords_naming (w := "True") (by decide)
      | false => exact rewrites_reserved keepsWords_naming (w := "False") (by decide)
    | int n => exact rewrites_int s h
    | str t =>
      have hchars : (Atom.expr s (.constant (.str t))).chars = (quoteLiteral t).toList := rfl
      have htag : (Atom.constant (.str t)).tag? = some ('s', (quoteLiteral t).toList) := rfl
      rw [Atom.named_of_tag? htag, htagged, hchars]
      exact rewrites_quoted t
    | float x =>
      have hchars : (Atom.expr s (.constant (.float x))).chars = (x.render .literal).toList := rfl
      by_cases hinfinite : x.isInfinite = true
      · have htag : (Atom.constant (.float x)).tag? = some ('n', "inf".toList) := if_pos hinfinite
        rw [Atom.named_of_tag? htag, htagged, hchars, Double.render_infinite h.1 hinfinite]
        exact rewrites_name (by decide)
      · have htag : (Atom.constant (.float x)).tag? = some ('f', (x.render .literal).toList) :=
          if_neg hinfinite
        rw [Atom.named_of_tag? htag, htagged, hchars]
        exact rewrites_float h hinfinite

theorem follows_naming : naming.Follows Rewording.naming where
  keeps := keepsWords_naming
  word _ := String.toList_ofList
  atom h := rewrites_atom h

end Rewriting

end SafeExpr
