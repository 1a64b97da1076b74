/-
  SafeExpr/Proofs/Report/Label.lean
  =================================
  **What the label of a report covers.**

  A span counts bytes, and a report counts characters.  `reportedRange` is the span of a
  diagnostic counted in characters, where an empty one stands for the character behind it, or
  for the last one at the end of the text.  The label of a report has the byte offsets of
  that range for its ends.  So it is never empty and begins as many places too far to the
  right as there are bytes beyond the first of a character before it: it is exact if and
  only if every character up to the end of the span takes one byte.
-/
import SafeExpr.Proofs.Check.Checked
import SafeExpr.Proofs.Spans
import SafeExpr.Report.Basic

namespace SafeExpr

/-! ### Characters and bytes -/

theorem length_le_byteLength (cs : List Char) : cs.length ≤ byteLength cs := by
  induction cs with
  | nil => exact Nat.le_refl 0
  | cons c cs ih =>
    have hpos := c.utf8Size_pos
    rw [List.length_cons, byteLength_cons]
    omega

/-- A text has as many characters as bytes if each takes one. -/
theorem byteLength_eq_length_iff {cs : List Char} :
    byteLength cs = cs.length ↔ ∀ c ∈ cs, c.utf8Size = 1 := by
  induction cs with
  | nil => simp
  | cons c cs ih =>
    have hpos := c.utf8Size_pos
    have hle := length_le_byteLength cs
    rw [List.forall_mem_cons, ← ih, byteLength_cons, List.length_cons]
    omega

theorem utf8ByteSize_eq_byteLength (s : String) : s.utf8ByteSize = byteLength s.toList := by
  induction s using String.push_induction with
  | empty => rfl
  | push s c ih =>
    rw [String.utf8ByteSize_push, String.toList_push, byteLength_append, ih]
    rfl

/-- A boundary is as far from the start as the bytes of the characters before it. -/
theorem IsBoundary.byteLength_takeBytes {source : List Char} {pos : Nat}
    (h : IsBoundary source pos) : byteLength (takeBytes pos source) = pos := by
  obtain ⟨before, behind, rfl, rfl⟩ := h
  rw [takeBytes_byteLength]

theorem IsBoundary.take_length_takeBytes {source : List Char} {pos : Nat}
    (h : IsBoundary source pos) :
    source.take (takeBytes pos source).length = takeBytes pos source := by
  obtain ⟨before, behind, rfl, rfl⟩ := h
  rw [takeBytes_byteLength, List.take_left']
  rfl

/-- A later boundary has the characters of an earlier one before it. -/
theorem IsBoundary.mem_takeBytes_of_le {source : List Char} {a b : Nat} (ha : IsBoundary source a)
    (hle : a ≤ b) {c : Char} (hc : c ∈ takeBytes a source) : c ∈ takeBytes b source := by
  obtain ⟨before, behind, rfl, rfl⟩ := ha
  rw [takeBytes_byteLength] at hc
  induction before generalizing b with
  | nil => cases hc
  | cons d before ih =>
    rw [byteLength_cons] at hle
    rw [List.cons_append, takeBytes, if_pos (by omega)]
    rcases List.mem_cons.mp hc with rfl | hc
    · exact List.mem_cons_self
    · exact List.mem_cons_of_mem d (ih (by omega) hc)

theorem takeBytes_of_le {source : List Char} {pos : Nat} (h : byteLength source ≤ pos) :
    takeBytes pos source = source := by
  induction source generalizing pos with
  | nil => cases pos <;> rfl
  | cons c cs ih =>
    rw [byteLength_cons] at h
    rw [takeBytes, if_pos (by omega), ih (by omega)]

namespace Report

/-! ### The characters that a diagnostic concerns -/

/-- The number of characters before a byte of a text. -/
def charsBefore (source : List Char) (pos : Nat) : Nat := (takeBytes pos source).length

/-- The characters of a span.  An empty one stands for the character behind it, or for the
    last one of the text. -/
def reportedRange (source : List Char) (s : Span) : CharRange :=
  if !s.isEmpty then ⟨charsBefore source s.start, charsBefore source s.stop⟩
  else if byteLength source ≤ s.start then ⟨source.length - 1, source.length⟩
  else ⟨charsBefore source s.start, charsBefore source s.start + 1⟩

/-- How a label stands to the characters that it is meant for. -/
structure Labels (source : List Char) (s : Span) (label : CharRange) : Prop where
  nonempty : label.start < label.stop
  /-- It ends within the bytes of the text. -/
  stop_le : label.stop ≤ byteLength source
  /-- It begins at the byte at which the first of the characters begins. -/
  start_eq : label.start = byteLength (source.take (reportedRange source s).start)
  exact_iff : label = reportedRange source s ↔ ∀ c ∈ takeBytes s.stop source, c.utf8Size = 1

theorem charsBefore_eq_iff {source : List Char} {pos : Nat} (h : IsBoundary source pos) :
    pos = charsBefore source pos ↔ ∀ c ∈ takeBytes pos source, c.utf8Size = 1 := by
  rw [← byteLength_eq_length_iff, h.byteLength_takeBytes]
  rfl

/-! ### The three places of a label -/

variable {source : List Char} {s : Span}

/-- Of a span that covers some text. -/
theorem labels_of_nonempty (hs : s.PointsInto source) (hne : s.isEmpty = false) :
    Labels source s ⟨s.start, s.stop⟩ := by
  have hreported : reportedRange source s =
      ⟨charsBefore source s.start, charsBefore source s.stop⟩ := by
    rw [reportedRange, hne]
    rfl
  have hlt : s.start < s.stop := by simpa [Span.isEmpty] using hne
  refine ⟨hlt, hs.stop_le_length, ?_, ?_⟩
  · rw [hreported, charsBefore, hs.start_boundary.take_length_takeBytes,
      hs.start_boundary.byteLength_takeBytes]
  · rw [hreported, CharRange.mk.injEq, charsBefore_eq_iff hs.start_boundary,
      charsBefore_eq_iff hs.stop_boundary]
    refine ⟨And.right, fun h => ⟨fun c hc => h c ?_, h⟩⟩
    exact hs.start_boundary.mem_takeBytes_of_le hs.start_le_stop hc

/-- Of an empty span at the end of the text. -/
theorem labels_of_end {front : List Char} {last : Char} (hs : s.PointsInto (front ++ [last]))
    (hempty : s.isEmpty = true) (hend : byteLength (front ++ [last]) ≤ s.start) :
    Labels (front ++ [last]) s
      ⟨byteLength (front ++ [last]) - last.utf8Size, byteLength (front ++ [last])⟩ := by
  have hpos := last.utf8Size_pos
  have hle := length_le_byteLength front
  have hsize : byteLength (front ++ [last]) = byteLength front + last.utf8Size :=
    byteLength_append front [last]
  have hreported : reportedRange (front ++ [last]) s = ⟨front.length, front.length + 1⟩ := by
    rw [reportedRange, hempty, Bool.not_true, if_neg Bool.false_ne_true, if_pos hend,
      List.length_append, List.length_singleton, Nat.add_sub_cancel]
  have hall : takeBytes s.stop (front ++ [last]) = front ++ [last] :=
    takeBytes_of_le (Nat.le_trans hend hs.start_le_stop)
  refine ⟨Nat.sub_lt (by omega) hpos, Nat.le_refl _, ?_, ?_⟩
  · rw [hreported, List.take_left, hsize, Nat.add_sub_cancel]
  · rw [hreported, hall, ← byteLength_eq_length_iff, hsize, CharRange.mk.injEq,
      List.length_append, List.length_singleton]
    omega

/-- Of an empty span with some text behind it. -/
theorem labels_of_inside (hs : s.PointsInto source) (hempty : s.isEmpty = true)
    (hinside : s.start < byteLength source) : Labels source s ⟨s.start, s.start + 1⟩ := by
  have hreported : reportedRange source s =
      ⟨charsBefore source s.start, charsBefore source s.start + 1⟩ := by
    rw [reportedRange, hempty, Bool.not_true, if_neg Bool.false_ne_true,
      if_neg (Nat.not_le.mpr hinside)]
  have hstop : s.stop = s.start :=
    Nat.le_antisymm (by simpa [Span.isEmpty] using hempty) hs.start_le_stop
  refine ⟨Nat.lt_succ_self _, hinside, ?_, ?_⟩
  · rw [hreported, charsBefore, hs.start_boundary.take_length_takeBytes,
      hs.start_boundary.byteLength_takeBytes]
  · rw [hreported, hstop, ← charsBefore_eq_iff hs.start_boundary, CharRange.mk.injEq]
    omega

/-- The label of a span of the text. -/
theorem labels_labelRange {source : String} {s : Span} (hne : source ≠ "")
    (hs : s.PointsInto source.toList) : Labels source.toList s (labelRange source s) := by
  cases hempty : s.isEmpty with
  | false =>
    have hlabel : labelRange source s = ⟨s.start, s.stop⟩ := by
      rw [labelRange, hempty]
      rfl
    exact hlabel ▸ labels_of_nonempty hs hempty
  | true =>
    have hcs : source.toList ≠ [] := by simpa using hne
    rw [labelRange, hempty, Bool.not_true, if_neg Bool.false_ne_true,
      utf8ByteSize_eq_byteLength, List.getLast?_eq_some_getLast hcs]
    by_cases hend : byteLength source.toList ≤ s.start
    · have hsplit := List.dropLast_append_getLast hcs
      rw [← hsplit] at hs hend
      have hlabels := labels_of_end hs hempty hend
      rw [hsplit] at hlabels hend
      simpa only [if_pos hend] using hlabels
    · simpa only [if_neg hend] using labels_of_inside hs hempty (Nat.not_le.mp hend)

/-! ### Errors of a text -/

/-- Compiling the text, or evaluating it once compiled, can end in this error. -/
inductive Raises (source : String) : Error → Prop
  | compiling {ns : Namespace} {maxDepth : Nat} {err : Error}
    (h : Compiled.compile source ns maxDepth = .error err) : Raises source err
  | evaluating {ns : Namespace} {maxDepth : Nat} {c : Compiled} {vars : Variables}
    {options : EvalOptions} {err : EvalError} (hc : Compiled.compile source ns maxDepth = .ok c)
    (h : (c.evaluate vars options).result = .error err) : Raises source (.evaluation err)

theorem pointsInto_of_raises {source : String} {err : Error} (h : Raises source err) :
    ∃ d, err.diagnostic? = some d ∧ err.span? = some d.span ∧
      d.span.PointsInto source.toList := by
  cases h with
  | @compiling ns maxDepth err h =>
    obtain ⟨hfails, hplaced⟩ := spans_placed maxDepth source
    simp only [Compiled.compile, Except.bind_eq_error_iff] at h
    rcases h with h | ⟨e, he, h⟩
    · cases hparse : parseWith maxDepth source with
      | ok e => rw [hparse] at h; cases h
      | error err' =>
        rw [hparse] at h
        cases h
        exact ⟨_, rfl, rfl, hfails err' hparse⟩
    · obtain ⟨-, hmarks, hvalidate, hlater⟩ := hplaced e (Except.mapError_eq_ok_iff.mp he)
      rcases h with h | ⟨u, hv, h⟩
      · cases hv : e.validate with
        | ok u => rw [hv] at h; cases h
        | error r =>
          rw [hv] at h
          cases h
          exact ⟨_, rfl, rfl, hmarks _ (hvalidate r hv)⟩
      · rcases h with h | ⟨u', hu', h⟩
        · cases hcalls : e.checkCalls ns with
          | ok u => rw [hcalls] at h; cases h
          | error r =>
            rw [hcalls] at h
            cases h
            exact ⟨_, rfl, rfl, hmarks _ ((hlater ns).1 r hcalls)⟩
        · cases h
  | @evaluating ns maxDepth c vars options err hc h =>
    obtain ⟨hparse, -, -, -, -⟩ := stages_of_compile hc
    obtain ⟨-, hmarks, -, hlater⟩ := (spans_placed maxDepth source).2 c.expr hparse
    exact ⟨_, rfl, rfl, hmarks _ ((hlater c.bound).2 vars options err h)⟩

/-- **What reports underline.**  The label of every error of a text that is not empty covers
    something, begins at the byte offset of the first character that the error concerns, and
    covers exactly the characters that the error concerns if and only if no character before
    the end of its span takes more than one byte. -/
theorem labels_of_raises {source : String} (hne : source ≠ "") {err : Error}
    (h : Raises source err) :
    ∃ d, err.diagnostic? = some d ∧ err.span? = some d.span ∧
      Labels source.toList d.span (labelRange source d.span) := by
  obtain ⟨d, hd, hspan, hpoints⟩ := pointsInto_of_raises h
  exact ⟨d, hd, hspan, labels_labelRange hne hpoints⟩

/-- A name behind a character of two bytes: the label stands one place too far to the right. -/
theorem label_shifted :
    let source := "'é' + zz"
    ∃ err, Raises source err ∧ ∃ d, err.diagnostic? = some d ∧ d.span = ⟨7, 9⟩ ∧
      reportedRange source.toList d.span = ⟨6, 8⟩ ∧ labelRange source d.span = ⟨7, 9⟩ := by
  intro source
  have hfails : (Compiled.compile source clampNamespace 4).toOption.any (fun c =>
      (c.evaluate {} {}).result.errors.map EvalError.span = [⟨7, 9⟩]) = true := by
    decide +kernel
  obtain ⟨c, hc, hspans⟩ := (Option.any_eq_true _ _).mp hfails
  rw [Except.toOption_eq_some_iff] at hc
  obtain ⟨err, herr, hspan⟩ := List.map_eq_singleton_iff.mp (of_decide_eq_true hspans)
  rw [Except.errors_eq_singleton_iff] at herr
  refine ⟨_, .evaluating hc herr, _, rfl, hspan, ?_, ?_⟩
  · rw [show err.diagnostic.span = ⟨7, 9⟩ from hspan]
    decide +kernel
  · rw [show err.diagnostic.span = ⟨7, 9⟩ from hspan]
    rfl

end Report

end SafeExpr
