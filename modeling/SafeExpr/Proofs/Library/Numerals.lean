/-
  SafeExpr/Proofs/Library/Numerals.lean
  =====================================
  **Integers written as text, and texts read as integers.**

  `bin`, `hex`, `oct` and `str` write a sign, a mark of the radix and digits; `int` takes these
  apart again.  `InBase base t n` are the texts without a sign that `int` reads in a base, and
  what they denote: those of literals, in their own radix or where the base is zero.  One kind of
  literal is not among them: `int` refuses an underscore directly behind the mark
  (`readInt?_of_markedUnderscore`).
-/
import SafeExpr.Proofs.Grammar.Opening
import SafeExpr.Proofs.Library.Range
import SafeExpr.Proofs.Number.Numeral
import SafeExpr.Proofs.Value.Spelling

namespace SafeExpr

namespace Builtins

/-! ### Blanks and signs -/

theorem isBlank_of_word {c : Char} (h : isWordChar c = true) : isBlank c = false := by
  have hall : Grammar.startChars.all (fun c => !isBlank c) = true := by decide
  simpa using List.all_eq_true.mp hall c (Grammar.mem_startChars h)

theorem trimBlanks_of_forall {cs : List Char} (h : ∀ c ∈ cs, isBlank c = false) :
    trimBlanks cs = cs := by
  have hdrop : ∀ {ds : List Char}, (∀ c ∈ ds, isBlank c = false) → ds.dropWhile isBlank = ds := by
    intro ds hds
    cases ds with
    | nil => rfl
    | cons d ds => exact List.dropWhile_cons_of_neg (by simp [hds d List.mem_cons_self])
  rw [trimBlanks, hdrop h, hdrop (by simpa using h), List.reverse_reverse]

theorem splitSign_of_digit {d : Char} (hd : d.isDigit = true) (ds : List Char) :
    splitSign (d :: ds) = (false, d :: ds) := by
  unfold splitSign
  split
  · next heq =>
    cases heq
    cases hd
  · next heq =>
    cases heq
    cases hd
  · rfl

section Texts

variable {t : List Char} {k : Nat} (h : IntegerText t k)
include h

/-- A sign is told from the text behind it. -/
theorem splitSign_signedText (n : Int64) :
    splitSign (trimBlanks (signedText n t)) = (decide (n.toInt < 0), t) := by
  have hsolid : ∀ c ∈ t, isBlank c = false := fun c hc => isBlank_of_word (h.word c hc)
  unfold signedText
  split
  · next hneg =>
    have hminus : isBlank '-' = false := by decide
    rw [trimBlanks_of_forall (List.forall_mem_cons.mpr ⟨hminus, hsolid⟩), decide_eq_true hneg]
    rfl
  · next hnot =>
    rw [trimBlanks_of_forall hsolid, decide_eq_false hnot]
    cases h with
    | decimal hd hds => exact splitSign_of_digit hd _
    | marked => exact splitSign_of_digit (by decide) _

end Texts

/-! ### Marks and underscores -/

/-- A mark is recognised in either case, where the base allows it. -/
theorem splitMark_of_marked {base : Nat} {m : RadixMark} {x : Char} (hm : m ∈ radixMarks)
    (hbase : base = 0 ∨ base = m.radix) (hx : x = m.lower ∨ x = m.upper) (ds : List Char) :
    splitMark base (('0' :: x :: ds).map Char.toLower) = (m.radix, ds.map Char.toLower) := by
  have hallowed : (decide (base = 0) || decide (base = m.radix)) = true := by simpa using hbase
  have hlower : x.toLower = m.lower :=
    of_letter (P := fun m x => x.toLower = m.lower) hm hx (by decide)
  rw [List.map_cons, List.map_cons, hlower]
  simp only [radixMarks, List.mem_cons, List.not_mem_nil, or_false] at hm
  rcases hm with rfl | rfl | rfl
  · exact if_pos hallowed
  · exact if_pos hallowed
  · exact if_pos hallowed

/-- Digits and underscores hold no mark. -/
theorem splitMark_of_digits {base : Nat} {ds : List Char} (hbase : base = 0 ∨ base = 10)
    (hds : Spaced Char.isDigit ds) :
    splitMark base (ds.map Char.toLower) = (10, ds.map Char.toLower) := by
  have hmem := (hds.lower digitClass_decimal).mem
  have hletter : ∀ x ∈ ds.map Char.toLower, x ≠ 'x' ∧ x ≠ 'o' ∧ x ≠ 'b' := by
    intro x hx
    rcases hmem x hx with hdigit | rfl
    · refine ⟨?_, ?_, ?_⟩ <;> rintro rfl <;> cases hdigit
    · decide
  unfold splitMark
  split
  · next heq => exact absurd rfl (hletter 'x' (by simp [heq])).1
  · next heq => exact absurd rfl (hletter 'o' (by simp [heq])).2.1
  · next heq => exact absurd rfl (hletter 'b' (by simp [heq])).2.2
  · rcases hbase with rfl | rfl <;> rfl

theorem hasDoubleUnderscore_of_spaced {radix : Nat} {accepts : Char → Bool} {ds : List Char}
    (h : Spaced accepts ds) (hclass : DigitClass radix accepts) :
    hasDoubleUnderscore ds = false := by
  have hdigit : ∀ {d : Char} (ds : List Char), accepts d = true →
      hasDoubleUnderscore (d :: ds) = hasDoubleUnderscore ds := by
    intro d ds hd
    rw [hasDoubleUnderscore]
    intro ds' hunderscore
    exact absurd hunderscore (hclass.plain hd)
  induction h with
  | nil => rfl
  | digit hd _ ih => rwa [hdigit _ hd]
  | underscore hd _ ih =>
    rw [hasDoubleUnderscore, hdigit _ hd, ih]
    intro ds' _ hunderscore
    cases hunderscore
    exact absurd rfl (hclass.plain hd)

/-! ### Reading -/

/-- Digits behind what was taken off are read, unless they begin with an underscore. -/
theorem readInt?_of_split {base radix : Nat} {accepts : Char → Bool} {text body ds : List Char}
    {negative : Bool} (hsign : splitSign (trimBlanks text) = (negative, body))
    (hmark : splitMark base (body.map Char.toLower) = (radix, ds.map Char.toLower))
    (hclass : DigitClass radix accepts) (hds : Spaced accepts ds) (hne : ds ≠ []) :
    readInt? base text =
      if ds.head? = some '_' then none
      else fitInt64 (if negative then -(numeral radix (withoutUnderscores ds) : Int)
        else numeral radix (withoutUnderscores ds)) := by
  have hlower := hds.lower hclass
  have hfirst : (ds.map Char.toLower).head? = some '_' ↔ ds.head? = some '_' := by
    cases hds with
    | nil => rfl
    | digit hd hds => simp [hclass.plain hd, hclass.plain (hclass.lower hd)]
    | underscore hd hds => simp
  have hlast : (ds.map Char.toLower).getLast? ≠ some '_' := by
    intro hend
    exact absurd rfl (hclass.plain (hlower.accepts_getLast '_' hend))
  have hdouble := hasDoubleUnderscore_of_spaced hlower hclass
  have hread := hlower.readNat?_eq hclass (by simpa using hne)
  rw [hds.numeral_lower hclass] at hread
  unfold readInt?
  simp only [hsign, hmark, hlast, hdouble, hread, hfirst, decide_false, Bool.or_false,
    decide_eq_true_eq, Option.bind_some]

theorem readInt?_of_inBase {base k : Nat} {text t : List Char} {negative : Bool}
    (hsign : splitSign (trimBlanks text) = (negative, t)) (h : InBase base t k) :
    readInt? base text = fitInt64 (if negative then -(k : Int) else k) := by
  cases h with
  | @decimal d ds hbase hd hds =>
    have hspaced : Spaced Char.isDigit (d :: ds) := .digit hd hds
    have hplain : (d :: ds).head? ≠ some '_' := by simpa using digitClass_decimal.plain hd
    rw [readInt?_of_split hsign (splitMark_of_digits hbase hspaced) digitClass_decimal hspaced
      (List.cons_ne_nil d ds), if_neg hplain]
  | marked hbase hm hx hds hne hhead =>
    rw [readInt?_of_split hsign (splitMark_of_marked hm hbase hx _) (digitClass_of_mem hm) hds hne,
      if_neg hhead]

/-- **A text of the language with its sign is read as its number.** -/
theorem readInt?_signedText {base : Nat} {t : List Char} {n : Int64}
    (h : InBase base t n.toInt.natAbs) : readInt? base (signedText n t) = some n := by
  have hvalue : (if decide (n.toInt < 0) = true then -(n.toInt.natAbs : Int)
      else n.toInt.natAbs) = n.toInt := by
    simp only [decide_eq_true_eq]
    omega
  rw [readInt?_of_inBase (splitSign_signedText h.integerText n) h, hvalue, fitInt64_toInt]

/-- Does an underscore stand directly behind a mark? -/
def markedUnderscore : List Char → Bool
  | '0' :: x :: '_' :: _ => x.isAlpha
  | _ => false

theorem isAlpha_of_mark {m : RadixMark} {x : Char} (hm : m ∈ radixMarks)
    (hx : x = m.lower ∨ x = m.upper) : x.isAlpha = true :=
  of_letter (P := fun _ x => x.isAlpha = true) hm hx (by decide)

theorem markedUnderscore_of_digits {d : Char} {ds : List Char} (hds : Spaced Char.isDigit ds) :
    markedUnderscore (d :: ds) = false := by
  unfold markedUnderscore
  split
  · next x more heq =>
    cases heq
    have hletter : ∀ c, c.isDigit = true ∨ c = '_' → c.isAlpha = false := by
      intro c hc
      rcases hc with hdigit | rfl
      · have hall : "0123456789".toList.all (fun c => !c.isAlpha) = true := by decide
        simpa using List.all_eq_true.mp hall c (mem_of_isDigit hdigit)
      · rfl
    exact hletter x (hds.mem x List.mem_cons_self)
  · rfl

theorem markedUnderscore_of_marked {m : RadixMark} {x : Char} (hm : m ∈ radixMarks)
    (hx : x = m.lower ∨ x = m.upper) (ds : List Char) :
    markedUnderscore ('0' :: x :: ds) = true ↔ ds.head? = some '_' := by
  rcases ds with - | ⟨d, ds⟩
  · simp [markedUnderscore]
  · by_cases hd : d = '_'
    · subst hd
      simp [markedUnderscore, isAlpha_of_mark hm hx]
    · simp [markedUnderscore, hd]

section Literals

variable {t : List Char} {k : Nat} (h : IntegerText t k)
include h

theorem splitSign_unsigned : splitSign (trimBlanks t) = (false, t) := by
  have hzero := splitSign_signedText h 0
  exact hzero

/-- In base zero a literal is read as what it denotes, if this fits … -/
theorem readInt?_of_integerText (hplain : markedUnderscore t = false) :
    readInt? 0 t = fitInt64 k := by
  have hsign := splitSign_unsigned h
  cases h with
  | decimal hd hds => exact readInt?_of_inBase hsign (.decimal (Or.inl rfl) hd hds)
  | marked hm hx hds hne =>
    refine readInt?_of_inBase hsign (.marked (Or.inl rfl) hm hx hds hne ?_)
    rw [Ne, ← markedUnderscore_of_marked hm hx, hplain]
    exact Bool.false_ne_true

/-- … but never with an underscore directly behind the mark. -/
theorem readInt?_of_markedUnderscore (hmarked : markedUnderscore t = true) :
    readInt? 0 t = none := by
  have hsign := splitSign_unsigned h
  cases h with
  | decimal hd hds =>
    rw [markedUnderscore_of_digits hds] at hmarked
    cases hmarked
  | marked hm hx hds hne =>
    rw [readInt?_of_split hsign (splitMark_of_marked hm (Or.inl rfl) hx _) (digitClass_of_mem hm)
      hds hne, if_pos ((markedUnderscore_of_marked hm hx _).mp hmarked)]

end Literals

/-! ### Calls -/

theorem toList_radixText (mark : String) (radix : Nat) (n : Int64) :
    (radixText mark radix n).toList =
      signedText n (mark.toList ++ Nat.toDigits radix n.toInt.natAbs) := by
  have hneg : n < 0 ↔ n.toInt < 0 := Int64.lt_iff_toInt_lt
  rw [radixText, signedText]
  by_cases h : n.toInt < 0
  · simp [if_pos h, if_pos (hneg.mpr h)]
  · simp [if_neg h, if_neg (mt hneg.mp h)]

/-- The functions that write an integer, each with the base of its digits. -/
def writers : List (String × Int64) := [("bin", 2), ("hex", 16), ("oct", 8), ("str", 10)]

/-- The functions that mark the radix, as the library has them. -/
def radixFunction (name mark : String) (radix : Nat) : NativeFunction :=
  Library.native name (.positional 1) (unary name (inRadix name mark radix))

def strFunction : NativeFunction :=
  Library.native "str" { params := [⟨"object", .optional⟩], positionalOnly := 1 } (unary "str" str)

theorem strFunction_mem : strFunction ∈ builtins := by
  simp [builtins, strFunction]

/-- The function answers with a sign and a text of the absolute value, which can be read in
    the base and in base zero. -/
def Writes (f : NativeFunction) (base : Nat) (n : Int64) : Prop :=
  ∃ t, f.Answers [.int n] (.ok (.str (String.ofList (signedText n t)))) ∧
    InBase base t n.toInt.natAbs ∧ InBase 0 t n.toInt.natAbs

theorem radixFunction_writes (name : String) {mark : String} {m : RadixMark} (hm : m ∈ radixMarks)
    (hmark : mark.toList = ['0', m.lower]) (n : Int64) :
    Writes (radixFunction name mark m.radix) m.radix n := by
  refine ⟨'0' :: m.lower :: Nat.toDigits m.radix n.toInt.natAbs, ?_,
    inBase_marked (Or.inr rfl) hm _, inBase_marked (Or.inl rfl) hm _⟩
  have htext := toList_radixText mark m.radix n
  rw [hmark] at htext
  have hanswer : (radixFunction name mark m.radix).Answers [.int n]
      (.ok (.str (radixText mark m.radix n))) :=
    (NativeFunction.answers_iff [.int n] rfl).mpr rfl
  rw [← String.ofList_toList (s := radixText mark m.radix n), htext] at hanswer
  exact hanswer

theorem strFunction_writes (n : Int64) : Writes strFunction 10 n := by
  refine ⟨Nat.toDigits 10 n.toInt.natAbs, ?_, inBase_toDigits (Or.inr rfl) _,
    inBase_toDigits (Or.inl rfl) _⟩
  have htext : (Value.int n).render.toList = signedText n (Nat.toDigits 10 n.toInt.natAbs) :=
    Value.spelling_int n
  have hanswer : strFunction.Answers [.int n] (.ok (.str (Value.int n).render)) :=
    (NativeFunction.answers_iff [.int n] rfl).mpr rfl
  rw [← String.ofList_toList (s := (Value.int n).render), htext] at hanswer
  exact hanswer

/-- **The functions that write integers write them as texts that can be read.** -/
theorem writes_of_mem {f : NativeFunction} (hf : f ∈ builtins) {base : Int64}
    (hname : (f.name, base) ∈ writers) (n : Int64) : Writes f base.toInt.toNat n := by
  simp only [writers, List.mem_cons, List.not_mem_nil, or_false, Prod.mk.injEq] at hname
  rcases hname with ⟨hname, rfl⟩ | ⟨hname, rfl⟩ | ⟨hname, rfl⟩ | ⟨hname, rfl⟩
  · have hmem : radixFunction "bin" "0b" 2 ∈ builtins := by simp [builtins, radixFunction]
    cases builtins_name_inj hf hmem hname
    have hmark : ⟨2, 'b', 'B', isBinaryDigit⟩ ∈ radixMarks := by simp [radixMarks]
    exact radixFunction_writes "bin" hmark rfl n
  · have hmem : radixFunction "hex" "0x" 16 ∈ builtins := by simp [builtins, radixFunction]
    cases builtins_name_inj hf hmem hname
    have hmark : ⟨16, 'x', 'X', isHexDigit⟩ ∈ radixMarks := by simp [radixMarks]
    exact radixFunction_writes "hex" hmark rfl n
  · have hmem : radixFunction "oct" "0o" 8 ∈ builtins := by simp [builtins, radixFunction]
    cases builtins_name_inj hf hmem hname
    have hmark : ⟨8, 'o', 'O', isOctalDigit⟩ ∈ radixMarks := by simp [radixMarks]
    exact radixFunction_writes "oct" hmark rfl n
  · cases builtins_name_inj hf strFunction_mem hname
    exact strFunction_writes n

def intFunction : NativeFunction :=
  Library.native "int"
    ({ params := [⟨"x", .optional⟩], positionalOnly := 1 : Signature }.optional "base")
    (binary "int" int)

theorem intFunction_mem : intFunction ∈ builtins := by
  simp [builtins, intFunction]

theorem run_intFunction (v base : Value) :
    intFunction.run [v, base] =
      (int v base).mapError fun fault => { message := fault.message } := by
  simp only [intFunction, Library.native, binary]
  cases int v base <;> rfl

/-- A text is read in the base that is given, or in base ten. -/
theorem intFunction_reads {text : String} {base n : Int64}
    (hbase : ¬ (base ≠ 0 ∧ ¬ (2 ≤ base ∧ base ≤ 36)))
    (h : readInt? base.toInt.toNat text.toList = some n) :
    intFunction.Answers [.str text, .int base] (.ok (.int n)) ∧
      (base = 10 → intFunction.Answers [.str text] (.ok (.int n))) := by
  have hread : intOfText text base = .ok (.int n) := by
    rw [intOfText, if_neg hbase, h]
  constructor
  · have hint : int (.str text) (.int base) = intOfText text base := rfl
    rw [NativeFunction.answers_iff [.str text, .int base] rfl, run_intFunction, hint, hread]
    rfl
  · rintro rfl
    have hint : int (.str text) .none = intOfText text 10 := rfl
    rw [NativeFunction.answers_iff [.str text, .none] rfl, run_intFunction, hint, hread]
    rfl

theorem intFunction_refuses {text : String} {base : Int64}
    (hbase : ¬ (base ≠ 0 ∧ ¬ (2 ≤ base ∧ base ≤ 36)))
    (h : readInt? base.toInt.toNat text.toList = none) :
    intFunction.Answers [.str text, .int base]
      (.error { message := (Fault.notAnInteger base text).message }) := by
  have hread : intOfText text base = .error (.notAnInteger base text) := by
    rw [intOfText, if_neg hbase, h]
  have hint : int (.str text) (.int base) = intOfText text base := rfl
  rw [NativeFunction.answers_iff [.str text, .int base] rfl, run_intFunction, hint, hread]
  rfl

/-- **What is written of an integer is read as it**, by `int` with the base of the digits, with
base zero, and without a base if the digits are decimal. -/
theorem int_reads_written {f g : NativeFunction} (hf : f ∈ builtins) (hg : g ∈ builtins)
    {base : Int64} (hfname : (f.name, base) ∈ writers) (hgname : g.name = "int") (n : Int64) :
    ∃ text, f.Answers [.int n] (.ok (.str text)) ∧
      g.Answers [.str text, .int base] (.ok (.int n)) ∧
      g.Answers [.str text, .int 0] (.ok (.int n)) ∧
      (base = 10 → g.Answers [.str text] (.ok (.int n))) := by
  have hallowed : ¬ (base ≠ 0 ∧ ¬ (2 ≤ base ∧ base ≤ 36)) := by
    simp only [writers, List.mem_cons, List.not_mem_nil, or_false, Prod.mk.injEq] at hfname
    rcases hfname with ⟨-, rfl⟩ | ⟨-, rfl⟩ | ⟨-, rfl⟩ | ⟨-, rfl⟩ <;> decide
  cases builtins_name_inj hg intFunction_mem hgname
  obtain ⟨t, hanswer, hbase, hzero⟩ := writes_of_mem hf hfname n
  have hread : ∀ base : Int64, InBase base.toInt.toNat t n.toInt.natAbs →
      readInt? base.toInt.toNat (String.ofList (signedText n t)).toList = some n := by
    intro base h
    rw [String.toList_ofList]
    exact readInt?_signedText h
  obtain ⟨hgiven, homitted⟩ := intFunction_reads hallowed (hread base hbase)
  have hmarked :
      intFunction.Answers [.str (String.ofList (signedText n t)), .int 0] (.ok (.int n)) :=
    (intFunction_reads (by decide) (hread 0 hzero)).1
  exact ⟨_, hanswer, hgiven, hmarked, homitted⟩

/-- The smallest integer, whose absolute value is too large for one. -/
theorem int_reads_written_least :
    let hex := radixFunction "hex" "0x" 16
    hex.Answers [.int Int64.minValue] (.ok (.str "-0x8000000000000000")) ∧
      intFunction.Answers [.str "-0x8000000000000000", .int 16] (.ok (.int Int64.minValue)) ∧
      intFunction.Answers [.str "-0x8000000000000000", .int 0] (.ok (.int Int64.minValue)) := by
  intro hex
  have hmem : hex ∈ builtins := by simp [hex, builtins, radixFunction]
  have htext : radixText "0x" 16 Int64.minValue = "-0x8000000000000000" := by decide +kernel
  have hrun : hex.run [.int Int64.minValue] = .ok (.str "-0x8000000000000000") := by
    rw [← htext]
    rfl
  have hwriter : (hex.name, (16 : Int64)) ∈ writers := by decide
  obtain ⟨text, hanswer, hsixteen, hzero, -⟩ :=
    int_reads_written hmem intFunction_mem hwriter rfl Int64.minValue
  rw [NativeFunction.answers_iff [.int Int64.minValue] rfl, hrun] at hanswer
  cases hanswer
  exact ⟨(NativeFunction.answers_iff [.int Int64.minValue] rfl).mpr hrun, hsixteen, hzero⟩

end Builtins

end SafeExpr
