/-
  SafeExpr/Proofs/Machine/Literal.lean
  ====================================
  **Literals on a machine.**

  The digits of an integer and the text between two quotes are cut out by byte offsets, and
  the place of an escape is counted in sizes.
-/
import SafeExpr.Parse.Build
import SafeExpr.Proofs.Machine.Builtins
import SafeExpr.Proofs.Parse.Literal

namespace SafeExpr.Machine

/-! ### Reading -/

/-- A part of reading that may find an error in the text. -/
abbrev Reading (α : Type) := ExceptT ParseError Checked α

/-- What is read without a panic. -/
def settled {α : Type} (m : Built α) : Reading α := ExceptT.mk (.ok m)

section Settled

variable {α β : Type}

theorem settled_bind {m : Built α} {k : α → Reading β} {k' : α → Built β}
    (h : ∀ a, m = .ok a → k a = settled (k' a)) : settled m >>= k = settled (m >>= k') := by
  cases m with
  | error err => rfl
  | ok a => exact h a rfl

theorem lift_ok (a : α) : (liftM (.ok a : Checked α) : Reading α) = pure a := rfl

theorem settled_pure (f : α → β) (m : Built α) :
    (do let a ← settled m; return f a) = settled (f <$> m) := by
  cases m with
  | error err => rfl
  | ok a => rfl

end Settled

/-! ### Definitions -/

/-- The radix that the first two characters of a literal name. -/
def markedRadix? : List Char → Option Nat
  | ['0', 'x'] | ['0', 'X'] => some 16
  | ['0', 'o'] | ['0', 'O'] => some 8
  | ['0', 'b'] | ['0', 'B'] => some 2
  | _ => none

def integerIn (radix : Nat) (digits : List Char) : Checked (Option Int64) := do
  let n ← readInRadix radix digits
  return n.bind fun n => fitInt64 n

/-- The value of an integer literal, whose first two bytes may name a radix. -/
def integer (text : List Char) : Checked (Option Int64) :=
  let text := withoutUnderscores text
  let mark? := (splitText 2 text).toOption.map Prod.fst
  match mark?.bind markedRadix? with
  | some radix => do integerIn radix (← sliceText 2 (byteLength text) text)
  | none => integerIn 10 text

/-- The character of an escape whose start is counted from `base`. -/
def escaped (base : Nat) (o : OpenEscape) : Reading Char := do
  let start ← addSize base o.start
  let stop ← addSize (← addSize start 2) o.digits.length
  let code ← readInRadix 16 o.digits
  match if o.digits.length = o.width then code.bind charOfCode? else none with
  | some c => return c
  | none => throw ⟨.invalidEscape (String.ofList ('\\' :: o.letter :: o.digits)), ⟨start, stop⟩⟩

/-- Decodes characters, the first of them at byte `pos` behind `base`. -/
def decode (base : Nat) : Option OpenEscape → Nat → List Char → Reading (List Char)
  | none, _, [] => return []
  | some o, _, [] => do return [← escaped base o]
  | some o, pos, d :: rest =>
    if decodeText.isHex d then
      let o := { o with digits := o.digits ++ [d] }
      if o.digits.length = o.width then do
        let c ← escaped base o
        return c :: (← decode base none (pos + 1) rest)
      else decode base (some o) (pos + 1) rest
    else do return [← escaped base o]
  | none, _, ['\\'] => return ['\\']
  | none, pos, '\\' :: c :: rest =>
    match escapeWidth? c with
    | some width => decode base (some ⟨pos, c, width, []⟩) (pos + 2) rest
    | none => do return simpleEscape c ++ (← decode base none (pos + 1 + c.utf8Size) rest)
  | none, pos, c :: rest => do return c :: (← decode base none (pos + c.utf8Size) rest)

/-- The text of a string literal whose quote stands at byte `start`. -/
def unescape (start : Nat) (text : List Char) : Reading String := do
  let base ← addSize start 1
  let body ← sliceText 1 (← subSize (byteLength text) 1) text
  return String.ofList (← decode base none 0 body)

/-- The value of a literal token. -/
def literal (rule : Rule) (span : Span) (text : List Char) : Reading Expr :=
  match rule with
  | .integer => do
    match ← integer text with
    | some n => return .literal span (.int n)
    | none => throw ⟨.invalidNumber (String.ofList text), span⟩
  | .string => do return .literal span (.str (← unescape span.start text))
  | _ => settled (Build.literal rule span text)

/-! ### Integers -/

theorem splitText_ok {n : Nat} {cs front back : List Char}
    (h : splitText n cs = .ok (front, back)) : cs = front ++ back := by
  induction cs generalizing n front with
  | nil =>
    cases n with
    | zero =>
      cases h
      rfl
    | succ n => cases h
  | cons c cs ih =>
    cases n with
    | zero =>
      cases h
      rfl
    | succ n =>
      rw [splitText] at h
      split at h
      · obtain ⟨⟨front', back'⟩, hrest, h⟩ := Except.bind_eq_ok_iff.mp h
        cases h
        rw [ih hrest]
        rfl
      · cases h

theorem integerIn_eq {radix : Nat} (h : 2 ≤ radix ∧ radix ≤ 36) (ds : List Char) :
    integerIn radix ds = .ok ((readNat? radix ds).bind fun n => fitInt64 n) := by
  rw [integerIn, readInRadix_eq h]
  rfl

/-- A literal that starts with a mark has its radix. -/
theorem splitRadix_of_marked {mark : List Char} {radix : Nat} (h : markedRadix? mark = some radix)
    (ds : List Char) : splitRadix (mark ++ ds) = (radix, ds) ∧ byteLength mark = 2 := by
  unfold markedRadix? at h
  split at h
  all_goals
    cases h
    try exact ⟨rfl, rfl⟩

/-- Any other literal is a decimal one. -/
theorem splitRadix_cases (cs : List Char) :
    (∃ mark ds radix, cs = mark ++ ds ∧ markedRadix? mark = some radix) ∨
      splitRadix cs = (10, cs) := by
  unfold splitRadix
  split
  · exact Or.inl ⟨['0', 'x'], _, _, rfl, rfl⟩
  · exact Or.inl ⟨['0', 'X'], _, _, rfl, rfl⟩
  · exact Or.inl ⟨['0', 'o'], _, _, rfl, rfl⟩
  · exact Or.inl ⟨['0', 'O'], _, _, rfl, rfl⟩
  · exact Or.inl ⟨['0', 'b'], _, _, rfl, rfl⟩
  · exact Or.inl ⟨['0', 'B'], _, _, rfl, rfl⟩
  · exact Or.inr rfl

theorem markedRadix?_range {mark : List Char} {radix : Nat} (h : markedRadix? mark = some radix) :
    2 ≤ radix ∧ radix ≤ 36 := by
  unfold markedRadix? at h
  split at h
  all_goals
    cases h
    try decide

theorem integer_eq (text : List Char) : integer text = .ok (readInteger? text) := by
  unfold integer readInteger?
  dsimp only
  generalize withoutUnderscores text = cs
  have hmarked : ∀ mark ds radix, cs = mark ++ ds → markedRadix? mark = some radix →
      (do integerIn radix (← sliceText 2 (byteLength cs) cs)) =
        .ok ((readNat? (splitRadix cs).1 (splitRadix cs).2).bind fun n => fitInt64 n) := by
    rintro mark ds radix rfl hmark
    obtain ⟨hsplit, htwo⟩ := splitRadix_of_marked hmark ds
    have hslice := sliceText_append mark ds []
    rw [List.append_nil, htwo] at hslice
    rw [hslice, hsplit]
    exact integerIn_eq (markedRadix?_range hmark) ds
  cases hmark : ((splitText 2 cs).toOption.map Prod.fst).bind markedRadix? with
  | some radix =>
    obtain ⟨mark, hfront, hradix⟩ := Option.bind_eq_some_iff.mp hmark
    obtain ⟨⟨front, back⟩, hsplit, rfl⟩ := Option.map_eq_some_iff.mp hfront
    exact hmarked front back radix (splitText_ok (Except.toOption_eq_some_iff.mp hsplit)) hradix
  | none =>
    rcases splitRadix_cases cs with ⟨mark, ds, radix, rfl, hradix⟩ | hplain
    · -- the mark is what the first two bytes hold
      obtain ⟨-, htwo⟩ := splitRadix_of_marked hradix ds
      have hsplit := splitText_append mark ds
      rw [htwo] at hsplit
      rw [hsplit] at hmark
      exact absurd (hradix.symm.trans hmark) (Option.some_ne_none radix)
    · rw [hplain]
      exact integerIn_eq (by decide) cs

/-! ### Quoted text -/

/-- The escape has been read up to byte `pos` and wants more digits. -/
def OpenTo (pos : Nat) (o : OpenEscape) : Prop :=
  o.start + 2 + o.digits.length = pos ∧ o.digits.length < o.width

/-- The escape with its start counted from the start of the text. -/
def placeEscape (base : Nat) (o : OpenEscape) : OpenEscape := { o with start := base + o.start }

/-- The character that an escape stands for, if it is complete. -/
def charOf? (o : OpenEscape) : Option Char :=
  if o.digits.length = o.width then (readNat? 16 o.digits).bind charOfCode? else none

theorem escaped_eq {base : Nat} {o : OpenEscape}
    (hsize : base + (o.start + 2 + o.digits.length) ≤ maxSize) :
    escaped base o = settled (match charOf? o with
      | some c => .ok c
      | none => .error (placeEscape base o).error) := by
  have hstart : addSize base o.start = .ok (base + o.start) := addSize_eq (by omega)
  have htwo : addSize (base + o.start) 2 = .ok (base + o.start + 2) := addSize_eq (by omega)
  have hend : addSize (base + o.start + 2) o.digits.length = .ok (base + o.start + 2 + _) :=
    addSize_eq (by omega)
  have hradix : 2 ≤ 16 ∧ 16 ≤ 36 := by decide
  rw [escaped]
  simp only [hstart, htwo, hend, readInRadix_eq hradix, lift_ok, pure_bind]
  change (match charOf? o with
    | some c => _
    | none => _) = _
  cases charOf? o <;> rfl

/-- An escape that is broken off stands for no character. -/
theorem escaped_open {base pos : Nat} {o : OpenEscape} (ho : OpenTo pos o)
    (hsize : base + pos ≤ maxSize) :
    (do return [← escaped base o]) = settled (.error (placeEscape base o).error) := by
  obtain ⟨rfl, hopen⟩ := ho
  have hnone : charOf? o = none := if_neg (Nat.ne_of_lt hopen)
  rw [escaped_eq hsize, hnone]
  rfl

theorem escapeWidth?_pos {c : Char} {width : Nat} (h : escapeWidth? c = some width) :
    0 < width := by
  unfold escapeWidth? at h
  split at h
  all_goals
    cases h
    try decide

/-- **Decoding counts along the text.** -/
theorem decode_eq (base : Nat) (o : Option OpenEscape) (pos : Nat) (cs : List Char)
    (hsize : base + pos + byteLength cs ≤ maxSize) (ho : ∀ e ∈ o, OpenTo pos e) :
    decode base o pos cs = settled (decodeText (o.map (placeEscape base)) (base + pos) cs) := by
  have hnone : ∀ pos, ∀ e ∈ (none : Option OpenEscape), OpenTo pos e := by
    rintro pos e ⟨⟩
  fun_induction decode base o pos cs with
  | case1 pos =>
    rw [Option.map_none, decodeText]
    rfl
  | case2 o pos =>
    rw [Option.map_some, decodeText]
    exact escaped_open (ho o rfl) (by omega)
  | case3 o pos d rest hd full hfull ih =>
    obtain ⟨hpos, hopen⟩ := ho o rfl
    rw [byteLength_cons, utf8Size_of_isHex hd] at hsize
    have hfits : base + (full.start + 2 + full.digits.length) ≤ maxSize := by
      rw [show full.digits = o.digits ++ [d] from rfl, List.length_append]
      change base + (o.start + 2 + (o.digits.length + 1)) ≤ maxSize
      omega
    have hescaped := escaped_eq hfits
    have hchar : charOf? full = (readNat? 16 (o.digits ++ [d])).bind charOfCode? := if_pos hfull
    rw [hescaped, hchar, ih (by omega) (hnone _), Option.map_some, decodeText, if_pos hd]
    refine Eq.trans ?_ (congrArg settled (if_pos hfull).symm)
    change _ = settled (match (readNat? 16 (o.digits ++ [d])).bind charOfCode? with
      | some c => _
      | none => _)
    cases (readNat? 16 (o.digits ++ [d])).bind charOfCode? with
    | none => rfl
    | some c => exact settled_pure _ _
  | case4 o pos d rest hd more hmore ih =>
    obtain ⟨hpos, hopen⟩ := ho o rfl
    have hlength : more.digits.length = o.digits.length + 1 := by
      rw [show more.digits = o.digits ++ [d] from rfl, List.length_append]
      rfl
    rw [byteLength_cons, utf8Size_of_isHex hd] at hsize
    rw [Option.map_some, decodeText, if_pos hd]
    refine Eq.trans (ih (by omega) ?_) (congrArg settled (if_neg hmore).symm)
    rintro e ⟨⟩
    rw [hlength] at hmore
    refine ⟨?_, ?_⟩
    · rw [hlength, ← hpos]
      rfl
    · rw [hlength]
      exact Nat.lt_of_le_of_ne hopen hmore
  | case5 o pos d rest hd =>
    rw [Option.map_some, decodeText, if_neg hd]
    exact escaped_open (ho o rfl) (by omega)
  | case6 pos =>
    rw [Option.map_none, decodeText]
    rfl
  | case7 pos c rest width hwidth ih =>
    rw [byteLength_cons, byteLength_cons, utf8Size_of_escapeWidth? hwidth] at hsize
    change base + pos + (1 + (1 + byteLength rest)) ≤ maxSize at hsize
    rw [Option.map_none, decodeText, hwidth]
    refine ih (by omega) ?_
    rintro e ⟨⟩
    exact ⟨rfl, escapeWidth?_pos hwidth⟩
  | case8 pos c rest hwidth ih =>
    rw [byteLength_cons, byteLength_cons] at hsize
    change base + pos + (1 + (c.utf8Size + byteLength rest)) ≤ maxSize at hsize
    rw [Option.map_none, decodeText, hwidth, ih (by omega) (hnone _)]
    dsimp only
    rw [Nat.add_assoc base, Nat.add_assoc base]
    exact settled_pure _ _
  | case9 pos c rest hlast hescape ih =>
    rw [byteLength_cons] at hsize
    rw [ih (by omega) (hnone _), Option.map_none, decodeText, Nat.add_assoc base]
    · exact settled_pure _ _
    · exact hlast
    · exact hescape

/-- The token is a quoted text and stands in memory. -/
def Quoted (span : Span) (text : List Char) : Prop :=
  ∃ q body, q.utf8Size = 1 ∧ text = q :: (body ++ [q]) ∧ span.start + byteLength text ≤ maxSize

theorem unescape_eq {span : Span} {text : List Char} (h : Quoted span text) :
    unescape span.start text = settled (readQuoted span.start text) := by
  obtain ⟨q, body, hq, rfl, hsize⟩ := h
  have hopen : byteLength [q] = 1 := by rw [byteLength_cons, hq]; rfl
  have hbody : byteLength ([q] ++ body) = 1 + byteLength body := by
    rw [byteLength_append, hopen]
  have hall : byteLength (q :: (body ++ [q])) = byteLength ([q] ++ body) + 1 := by
    rw [← List.singleton_append, ← List.append_assoc, byteLength_append, hopen]
  have hbase : addSize span.start 1 = .ok (span.start + 1) := addSize_eq (by omega)
  have hstop : subSize (byteLength (q :: (body ++ [q]))) 1 = .ok (byteLength ([q] ++ body)) := by
    rw [subSize_eq (by omega), hall, Nat.add_sub_cancel]
  have hslice : sliceText 1 (byteLength ([q] ++ body)) (q :: (body ++ [q])) = .ok body := by
    have := sliceText_append [q] body [q]
    rwa [hopen] at this
  have hdecode := decode_eq (span.start + 1) none 0 body (by omega) (by rintro e ⟨⟩)
  rw [unescape, readQuoted, List.drop_one, List.tail_cons, List.dropLast_concat]
  simp only [hbase, hstop, hslice, lift_ok, pure_bind, hdecode]
  exact settled_pure _ _

/-! ### Literals -/

theorem literal_eq {rule : Rule} {span : Span} {text : List Char}
    (h : rule = .string → Quoted span text) :
    literal rule span text = settled (Build.literal rule span text) := by
  unfold literal
  split
  · rw [integer_eq]
    unfold Build.literal
    cases readInteger? text <;> rfl
  · rw [unescape_eq (h rfl)]
    unfold Build.literal
    cases readQuoted span.start text <;> rfl
  · rfl

end SafeExpr.Machine
