/-
  SafeExpr/Proofs/Json/Grammar.lean
  =================================
  **What JSON texts there are, and what they stand for.**

  `Denotes nesting cs v` says, without the steps of a reader, that the text stands for the
  value and nests arrays and objects at most so deep.  The reader of values is sound and
  complete for it: what it takes off a text stands for the value that it returns, and a text
  that stands for a value is read as this value, wherever it is found.  So a whole text is
  decoded to a value if and only if it stands for the value.
-/
import SafeExpr.Proofs.Json.Extent
import SafeExpr.Proofs.Json.RoundTrip

namespace SafeExpr

namespace JsonText

/-! ### The language -/

/-- A member of an object: its name and its value, and how they are written.  The text of the
    name runs from behind its first quote on to its second one. -/
structure Member where
  before : List Char
  quoted : List Char
  between : List Char
  text : List Char
  name : String
  value : Value

namespace Member

def chars (m : Member) : List Char :=
  m.before ++ '"' :: (m.quoted ++ (m.between ++ ':' :: m.text))

/-- What is written stands for the name. -/
structure Named (m : Member) : Prop where
  before : Blanks m.before
  quoted : readString m.quoted = some (m.name.toList, [])
  between : Blanks m.between

def entry (m : Member) : Value × Value := (.str m.name, m.value)

end Member

/-- The text stands for the value, and no more than `nesting` arrays and objects lie in one
    another. -/
inductive Denotes : Nat → List Char → Value → Prop
  | null {n} : Denotes n "null".toList .none
  | yes {n} : Denotes n "true".toList (.bool true)
  | no {n} : Denotes n "false".toList (.bool false)
  | string {n quoted s} (h : readString quoted = some (s, [])) :
    Denotes n ('"' :: quoted) (.str (String.ofList s))
  | number {n cs t v} (h : readNumber cs = some (t, [])) (hv : t.value? = some v) :
    Denotes n cs v
  | emptyArray {n gap} (h : Blanks gap) : Denotes (n + 1) ('[' :: (gap ++ [']'])) (.list [])
  | array {n} {items : List (List Char × Value)} (hne : items ≠ [])
    (h : ∀ i ∈ items, Denotes n i.1 i.2) :
    Denotes (n + 1) ('[' :: (commaSeparated (items.map Prod.fst) ++ [']']))
      (.list (items.map Prod.snd))
  | emptyObject {n gap} (h : Blanks gap) :
    Denotes (n + 1) ('\x7b' :: (gap ++ ['\x7d'])) (.dict [])
  | object {n} {members : List Member} {d} (hne : members ≠ []) (hnames : ∀ m ∈ members, m.Named)
    (h : ∀ m ∈ members, Denotes n m.text m.value)
    (hd : Value.mkDict (members.map Member.entry) = .ok d) :
    Denotes (n + 1) ('\x7b' :: (commaSeparated (members.map Member.chars) ++ ['\x7d'])) d
  | padded {n before cs behind v} (hbefore : Blanks before) (hbehind : Blanks behind)
    (h : Denotes n cs v) : Denotes n (before ++ (cs ++ behind)) v

theorem Denotes.before {n : Nat} {bs cs : List Char} {v : Value} (hbs : Blanks bs)
    (h : Denotes n cs v) : Denotes n (bs ++ cs) v := by
  have hpadded := Denotes.padded hbs blanks_nil h
  rwa [List.append_nil] at hpadded

theorem Denotes.behind {n : Nat} {bs cs : List Char} {v : Value} (hbs : Blanks bs)
    (h : Denotes n cs v) : Denotes n (cs ++ bs) v :=
  Denotes.padded blanks_nil hbs h

/-! ### What is read stands for its value -/

theorem afterWord_eq_some {word : String} {cs rest : List Char}
    (h : afterWord word cs = some rest) : cs = word.toList ++ rest := by
  unfold afterWord at h
  split at h
  · next hword =>
    cases h
    obtain ⟨behind, rfl⟩ := List.isPrefixOf_iff_prefix.mp hword
    rw [← String.length_toList, List.drop_left]
  · cases h

theorem commaSeparated_cons (cs : List Char) {texts : List (List Char)} (hne : texts ≠ []) :
    commaSeparated (cs :: texts) = cs ++ ',' :: commaSeparated texts := by
  obtain ⟨cs', texts, rfl⟩ := List.exists_cons_of_ne_nil hne
  exact commaSeparated_cons_cons cs cs' texts

/-- What the reader of values takes off a text stands for the value. -/
def ValueSound (fuel : Nat) : Prop :=
  ∀ {nesting cs v rest}, readValue nesting fuel cs = some (v, rest) →
    ∃ taken, cs = taken ++ rest ∧ Denotes nesting taken v

def ItemsSound (fuel : Nat) : Prop :=
  ∀ {nesting found cs v rest}, readItems nesting found fuel cs = some (v, rest) →
    ∃ items, items ≠ [] ∧ cs = commaSeparated (items.map Prod.fst) ++ ']' :: rest ∧
      (∀ i ∈ items, Denotes nesting i.1 i.2) ∧ v = .list (found.reverse ++ items.map Prod.snd)

def EntriesSound (fuel : Nat) : Prop :=
  ∀ {nesting found cs d rest}, readEntries nesting found fuel cs = some (d, rest) →
    ∃ members, members ≠ [] ∧
      cs = commaSeparated (members.map Member.chars) ++ '\x7d' :: rest ∧
      (∀ m ∈ members, m.Named) ∧ (∀ m ∈ members, Denotes nesting m.text m.value) ∧
      Value.mkDict (found.reverse ++ members.map Member.entry) = .ok d

/-- Behind the blanks in front of a value. -/
theorem exists_denotes_of_skipBlanks {nesting : Nat} {cs taken rest : List Char} {v : Value}
    (h : Denotes nesting taken v) (hcs : skipBlanks cs = taken ++ rest) :
    ∃ taken, cs = taken ++ rest ∧ Denotes nesting taken v := by
  obtain ⟨bs, hbs, hsplit⟩ := exists_blanks cs
  exact ⟨bs ++ taken, by rw [List.append_assoc, ← hcs, ← hsplit], h.before hbs⟩

/-- The items of an array, behind the blanks in front of the first. -/
theorem ItemsSound.array {fuel nesting : Nat} {gap cs rest : List Char} {v : Value}
    (hitems : ItemsSound fuel) (hgap : Blanks gap)
    (h : readItems nesting [] fuel cs = some (v, rest)) :
    ∃ taken, '[' :: (gap ++ cs) = taken ++ rest ∧ Denotes (nesting + 1) taken v := by
  obtain ⟨items, hne, rfl, hall, rfl⟩ := hitems h
  obtain ⟨⟨text, w⟩, items, rfl⟩ := List.exists_cons_of_ne_nil hne
  obtain ⟨hfirst, hmore⟩ := List.forall_mem_cons.mp hall
  have harray := Denotes.array (List.cons_ne_nil (gap ++ text, w) items)
    (List.forall_mem_cons.mpr ⟨hfirst.before hgap, hmore⟩)
  exact ⟨_, by simp [commaSeparated], harray⟩

theorem EntriesSound.object {fuel nesting : Nat} {gap cs rest : List Char} {v : Value}
    (hentries : EntriesSound fuel) (hgap : Blanks gap)
    (h : readEntries nesting [] fuel cs = some (v, rest)) :
    ∃ taken, '\x7b' :: (gap ++ cs) = taken ++ rest ∧ Denotes (nesting + 1) taken v := by
  obtain ⟨members, hne, rfl, hnames, hall, hd⟩ := hentries h
  obtain ⟨m, members, rfl⟩ := List.exists_cons_of_ne_nil hne
  have hnamed := hnames m List.mem_cons_self
  have hobject := @Denotes.object _ ({ m with before := gap ++ m.before } :: members) _
    (List.cons_ne_nil _ _)
    (List.forall_mem_cons.mpr ⟨⟨hgap.append hnamed.before, hnamed.quoted, hnamed.between⟩,
      (List.forall_mem_cons.mp hnames).2⟩)
    (List.forall_mem_cons.mpr (List.forall_mem_cons.mp hall)) hd
  exact ⟨_, by simp [commaSeparated, Member.chars], hobject⟩

theorem valueSound_succ {fuel : Nat} (hitems : ItemsSound fuel) (hentries : EntriesSound fuel) :
    ValueSound (fuel + 1) := by
  intro nesting cs v rest h
  unfold readValue at h
  split at h
  · next rest₀ hcs =>
    obtain ⟨rest', hword, h⟩ := Option.bind_eq_some_iff.mp h
    cases h
    rw [afterWord_eq_some hword] at hcs
    exact exists_denotes_of_skipBlanks .null hcs
  · next rest₀ hcs =>
    obtain ⟨rest', hword, h⟩ := Option.bind_eq_some_iff.mp h
    cases h
    rw [afterWord_eq_some hword] at hcs
    exact exists_denotes_of_skipBlanks .yes hcs
  · next rest₀ hcs =>
    obtain ⟨rest', hword, h⟩ := Option.bind_eq_some_iff.mp h
    cases h
    rw [afterWord_eq_some hword] at hcs
    exact exists_denotes_of_skipBlanks .no hcs
  · next rest₀ hcs =>
    obtain ⟨⟨s, rest'⟩, hread, h⟩ := Option.bind_eq_some_iff.mp h
    cases h
    obtain ⟨quoted, rfl, hquoted⟩ := readString_extent hread
    have hs := hquoted []
    rw [List.append_nil] at hs
    exact exists_denotes_of_skipBlanks (.string hs) hcs
  · next rest₀ hcs =>
    split at h
    · cases h
    · next hnesting =>
      obtain ⟨depth, rfl⟩ := Nat.exists_eq_succ_of_ne_zero hnesting
      obtain ⟨gap, hgap, hrest₀⟩ := exists_blanks rest₀
      split at h
      · next rest' hclose =>
        cases h
        rw [hrest₀, hclose] at hcs
        refine exists_denotes_of_skipBlanks (.emptyArray hgap) ?_
        rw [hcs, List.cons_append, List.append_assoc]
        rfl
      · obtain ⟨taken, htaken, hv⟩ := hitems.array hgap h
        refine exists_denotes_of_skipBlanks hv ?_
        rw [hcs, hrest₀, htaken]
  · next rest₀ hcs =>
    split at h
    · cases h
    · next hnesting =>
      obtain ⟨depth, rfl⟩ := Nat.exists_eq_succ_of_ne_zero hnesting
      obtain ⟨gap, hgap, hrest₀⟩ := exists_blanks rest₀
      split at h
      · next rest' hclose =>
        cases h
        rw [hrest₀, hclose] at hcs
        refine exists_denotes_of_skipBlanks (.emptyObject hgap) ?_
        rw [hcs, List.cons_append, List.append_assoc]
        rfl
      · obtain ⟨taken, htaken, hv⟩ := hentries.object hgap h
        refine exists_denotes_of_skipBlanks hv ?_
        rw [hcs, hrest₀, htaken]
  · next _ _ _ _ _ _ =>
    obtain ⟨⟨t, rest'⟩, hread, h⟩ := Option.bind_eq_some_iff.mp h
    obtain ⟨w, hw, h⟩ := Option.bind_eq_some_iff.mp h
    cases h
    obtain ⟨c, taken, -, hcs, htaken⟩ := readNumber_extent hread
    have ht := htaken [] stops_nil
    rw [List.append_nil] at ht
    exact exists_denotes_of_skipBlanks (.number ht hw) hcs

theorem itemsSound_succ {fuel : Nat} (hvalue : ValueSound fuel) (hitems : ItemsSound fuel) :
    ItemsSound (fuel + 1) := by
  intro nesting found cs w rest h
  unfold readItems at h
  obtain ⟨⟨v, rest₁⟩, hread, hnext⟩ := Option.bind_eq_some_iff.mp h
  obtain ⟨taken, rfl, hv⟩ := hvalue hread
  obtain ⟨gap, hgap, hrest₁⟩ := exists_blanks rest₁
  have hitem := hv.behind hgap
  dsimp only at hnext
  split at hnext
  · next rest₂ hcomma =>
    obtain ⟨items, hne, rfl, hall, rfl⟩ := hitems hnext
    refine ⟨(taken ++ gap, v) :: items, List.cons_ne_nil _ _, ?_,
      List.forall_mem_cons.mpr ⟨hitem, hall⟩, by simp⟩
    rw [hrest₁, hcomma, List.map_cons, commaSeparated_cons _ (by simpa using hne)]
    simp
  · next rest₂ hclose =>
    cases hnext
    refine ⟨[(taken ++ gap, v)], List.cons_ne_nil _ _, ?_, List.forall_mem_singleton.mpr hitem,
      by simp⟩
    rw [hrest₁, hclose, List.map_singleton, commaSeparated_singleton]
    simp
  · cases hnext

theorem entriesSound_succ {fuel : Nat} (hvalue : ValueSound fuel) (hentries : EntriesSound fuel) :
    EntriesSound (fuel + 1) := by
  intro nesting found cs w rest h
  obtain ⟨before, hbefore, hcs⟩ := exists_blanks cs
  unfold readEntries at h
  split at h
  · next rest₀ hquote =>
    obtain ⟨⟨s, rest₁⟩, hread, hnext⟩ := Option.bind_eq_some_iff.mp h
    obtain ⟨quoted, rfl, hquoted⟩ := readString_extent hread
    obtain ⟨between, hbetween, hrest₁⟩ := exists_blanks rest₁
    dsimp only at hnext
    split at hnext
    · next rest₂ hcolon =>
      obtain ⟨⟨v, rest₃⟩, hread, hlast⟩ := Option.bind_eq_some_iff.mp hnext
      obtain ⟨taken, rfl, hv⟩ := hvalue hread
      obtain ⟨gap, hgap, hrest₃⟩ := exists_blanks rest₃
      let m : Member := ⟨before, quoted, between, taken ++ gap, String.ofList s, v⟩
      have hnamed : m.Named := by
        have hs := hquoted []
        rw [List.append_nil] at hs
        exact ⟨hbefore, by rw [String.toList_ofList]; exact hs, hbetween⟩
      have hitem : Denotes nesting m.text m.value := hv.behind hgap
      have hchars : cs = m.chars ++ skipBlanks rest₃ := by
        rw [hcs, hquote, hrest₁, hcolon]
        simp only [m, Member.chars, List.append_assoc, List.cons_append]
        rw [← hrest₃]
      dsimp only at hlast
      split at hlast
      · next rest₄ hcomma =>
        obtain ⟨members, hne, rfl, hnames, hall, hd⟩ := hentries hlast
        refine ⟨m :: members, List.cons_ne_nil _ _, ?_, List.forall_mem_cons.mpr ⟨hnamed, hnames⟩,
          List.forall_mem_cons.mpr ⟨hitem, hall⟩, by simpa [m, Member.entry] using hd⟩
        rw [hchars, hcomma, List.map_cons, commaSeparated_cons _ (by simpa using hne),
          List.append_assoc, List.cons_append]
      · next rest₄ hclose =>
        obtain ⟨d, hd, hlast⟩ := Option.bind_eq_some_iff.mp hlast
        cases hlast
        refine ⟨[m], List.cons_ne_nil _ _, ?_, List.forall_mem_singleton.mpr hnamed,
          List.forall_mem_singleton.mpr hitem, ?_⟩
        · rw [hchars, hclose, List.map_singleton, commaSeparated_singleton]
        · rw [dictOf?, List.reverse_cons] at hd
          exact Except.toOption_eq_some_iff.mp hd
      · cases hlast
    · cases hnext
  · cases h

/-- **What the readers take off a text stands for what they return.** -/
theorem read_sound (fuel : Nat) : ValueSound fuel ∧ ItemsSound fuel ∧ EntriesSound fuel := by
  induction fuel with
  | zero =>
    refine ⟨?_, ?_, ?_⟩
    · intro _ _ _ _ h
      cases h
    · intro _ _ _ _ _ h
      cases h
    · intro _ _ _ _ _ h
      cases h
  | succ fuel ih =>
    obtain ⟨hvalue, hitems, hentries⟩ := ih
    exact ⟨valueSound_succ hitems hentries, itemsSound_succ hvalue hitems,
      entriesSound_succ hvalue hentries⟩

/-! ### What stands for a value is read -/

theorem readValue_blanks {bs : List Char} (hbs : Blanks bs) (nesting fuel : Nat) (cs : List Char) :
    readValue nesting fuel (bs ++ cs) = readValue nesting fuel cs := by
  cases fuel with
  | zero => rfl
  | succ fuel => rw [readValue, readValue, skipBlanks_append hbs]

/-- Every text of a value starts as values do, behind its blanks. -/
theorem Denotes.starts {n : Nat} {cs : List Char} {v : Value} (h : Denotes n cs v) :
    ∃ bs c rest, Blanks bs ∧ StartsValue c ∧ cs = bs ++ c :: rest := by
  induction h with
  | null => exact ⟨[], 'n', _, blanks_nil, ⟨by decide, by decide⟩, rfl⟩
  | yes => exact ⟨[], 't', _, blanks_nil, ⟨by decide, by decide⟩, rfl⟩
  | no => exact ⟨[], 'f', _, blanks_nil, ⟨by decide, by decide⟩, rfl⟩
  | string => exact ⟨[], '"', _, blanks_nil, ⟨by decide, by decide⟩, rfl⟩
  | number h =>
    obtain ⟨c, taken, hc, rfl, -⟩ := readNumber_extent h
    exact ⟨[], c, _, blanks_nil, hc.startsValue, rfl⟩
  | emptyArray | array => exact ⟨[], '[', _, blanks_nil, ⟨by decide, by decide⟩, rfl⟩
  | emptyObject | object => exact ⟨[], '\x7b', _, blanks_nil, ⟨by decide, by decide⟩, rfl⟩
  | @padded _ before _ behind _ hbefore _ _ ih =>
    obtain ⟨bs, c, rest, hbs, hc, rfl⟩ := ih
    exact ⟨before ++ bs, c, rest ++ behind, hbefore.append hbs, hc, by simp⟩

/-- A text is read as the value, with no more than blanks behind it left. -/
def ReadsAs (n : Nat) (cs : List Char) (v : Value) : Prop :=
  ∀ nesting fuel rest, n ≤ nesting → 2 * cs.length ≤ fuel → Stops rest →
    ∃ gap, Blanks gap ∧ readValue nesting fuel (cs ++ rest) = some (v, gap ++ rest)

/-- A comma and the closing brackets. -/
def marks : List Char := [',', ']', '\x7d']

theorem not_blank_of_mem_marks {c : Char} (h : c ∈ marks) : isBlank c = false := by
  have hall : marks.all (fun c => !isBlank c) = true := by decide
  simpa using List.all_eq_true.mp hall c h

theorem stops_of_mem_marks {c : Char} (h : c ∈ marks) (rest : List Char) : Stops (c :: rest) := by
  have hall : marks.all (fun c => !c.isDigit && c != '.' && c != 'e' && c != 'E') = true := by
    decide
  have hc := List.all_eq_true.mp hall c h
  simp only [Bool.and_eq_true, Bool.not_eq_true', bne_iff_ne] at hc
  exact stops_cons ⟨hc.1.1.1, hc.1.1.2, hc.1.2, hc.2⟩

/-- What is left behind a value starts with the mark there, once blanks are skipped. -/
theorem ReadsAs.before {n : Nat} {cs : List Char} {v : Value} (h : ReadsAs n cs v) {c : Char}
    (hc : c ∈ marks) {nesting fuel : Nat} (hn : n ≤ nesting) (hfuel : 2 * cs.length ≤ fuel)
    (rest : List Char) :
    ∃ left, readValue nesting fuel (cs ++ c :: rest) = some (v, left) ∧
      skipBlanks left = c :: rest := by
  obtain ⟨gap, hgap, hread⟩ := h nesting fuel _ hn hfuel (stops_of_mem_marks hc rest)
  refine ⟨_, hread, ?_⟩
  rw [skipBlanks_append hgap, skipBlanks_cons (not_blank_of_mem_marks hc)]

/-! #### Arrays -/

theorem readItems_blanks {bs : List Char} (hbs : Blanks bs) (nesting fuel : Nat)
    (found : List Value) (cs : List Char) :
    readItems nesting found fuel (bs ++ cs) = readItems nesting found fuel cs := by
  cases fuel with
  | zero => rfl
  | succ fuel => rw [readItems, readItems, readValue_blanks hbs]

theorem readValue_opening_array {bs : List Char} {c : Char} (hbs : Blanks bs) (hc : StartsValue c)
    (nesting fuel : Nat) (cs : List Char) :
    readValue (nesting + 1) (fuel + 1) ('[' :: (bs ++ c :: cs)) =
      readItems nesting [] fuel (bs ++ c :: cs) := by
  have hskip : skipBlanks (bs ++ c :: cs) = skipBlanks (c :: cs) := skipBlanks_append hbs _
  rw [readItems_blanks hbs, ← readValue_array hc]
  simp only [readValue, skipBlanks_cons (c := '[') (by decide), hskip]

theorem readItems_of_reads {n nesting : Nat} (hn : n ≤ nesting)
    {items : List (List Char × Value)} (hne : items ≠ [])
    (hitems : ∀ i ∈ items, ReadsAs n i.1 i.2) (found : List Value) {fuel : Nat}
    (hfuel : 2 * (commaSeparated (items.map Prod.fst)).length < fuel) (rest : List Char) :
    readItems nesting found fuel (commaSeparated (items.map Prod.fst) ++ ']' :: rest) =
      some (.list (found.reverse ++ items.map Prod.snd), rest) := by
  induction items generalizing found fuel with
  | nil => exact absurd rfl hne
  | cons i items ih =>
    obtain ⟨hfirst, hmore⟩ := List.forall_mem_cons.mp hitems
    obtain ⟨fuel, rfl⟩ : ∃ k, fuel = k + 1 := ⟨fuel - 1, by omega⟩
    cases items with
    | nil =>
      rw [List.map_singleton, commaSeparated_singleton] at hfuel ⊢
      obtain ⟨left, hread, hleft⟩ := hfirst.before (c := ']') (by decide) hn
        (Nat.le_of_lt_succ hfuel) rest
      rw [readItems, hread]
      simp [hleft]
    | cons j items =>
      rw [List.map_cons, commaSeparated_cons _ (by simp)] at hfuel ⊢
      rw [List.length_append, List.length_cons] at hfuel
      have hfuel' : 2 * i.1.length ≤ fuel := by omega
      obtain ⟨left, hread, hleft⟩ := hfirst.before (c := ',') (by decide) hn hfuel'
        (commaSeparated ((j :: items).map Prod.fst) ++ ']' :: rest)
      rw [List.append_assoc, List.cons_append, readItems, hread]
      simp only [Option.bind_eq_bind, Option.bind_some, hleft]
      rw [ih (List.cons_ne_nil _ _) hmore (i.2 :: found) (by omega)]
      simp

theorem readsAs_array {n : Nat} {items : List (List Char × Value)} (hne : items ≠ [])
    (hitems : ∀ i ∈ items, Denotes n i.1 i.2) (hreads : ∀ i ∈ items, ReadsAs n i.1 i.2) :
    ReadsAs (n + 1) ('[' :: (commaSeparated (items.map Prod.fst) ++ [']']))
      (.list (items.map Prod.snd)) := by
  intro nesting fuel rest hn hfuel hrest
  simp only [List.length_cons, List.length_append, List.length_nil] at hfuel
  obtain ⟨nesting, rfl⟩ : ∃ k, nesting = k + 1 := ⟨nesting - 1, by omega⟩
  obtain ⟨fuel, rfl⟩ : ∃ k, fuel = k + 1 := ⟨fuel - 1, by omega⟩
  obtain ⟨i, more, rfl⟩ := List.exists_cons_of_ne_nil hne
  obtain ⟨bs, c, cs, hbs, hc, hstart⟩ := (hitems i List.mem_cons_self).starts
  have hopen : ∀ texts, readValue (nesting + 1) (fuel + 1) ('[' :: (i.1 ++ texts)) =
      readItems nesting [] fuel (i.1 ++ texts) := by
    intro texts
    rw [hstart, List.append_assoc, List.cons_append]
    exact readValue_opening_array hbs hc nesting fuel _
  have hcount : 2 * (commaSeparated ((i :: more).map Prod.fst)).length < fuel := by omega
  have hread := readItems_of_reads (Nat.le_of_succ_le_succ hn) hne hreads [] hcount rest
  refine ⟨[], blanks_nil, ?_⟩
  rw [List.map_cons, commaSeparated, List.append_assoc] at hread ⊢
  rw [List.cons_append, List.append_assoc, List.append_assoc, hopen]
  exact hread

/-! #### Objects -/

theorem readEntries_blanks {bs : List Char} (hbs : Blanks bs) (nesting fuel : Nat)
    (found : List (Value × Value)) (cs : List Char) :
    readEntries nesting found fuel (bs ++ cs) = readEntries nesting found fuel cs := by
  cases fuel with
  | zero => rfl
  | succ fuel => rw [readEntries, readEntries, skipBlanks_append hbs]

theorem readValue_opening_object {bs : List Char} (hbs : Blanks bs) (nesting fuel : Nat)
    (cs : List Char) :
    readValue (nesting + 1) (fuel + 1) ('\x7b' :: (bs ++ '"' :: cs)) =
      readEntries nesting [] fuel (bs ++ '"' :: cs) := by
  have hskip : skipBlanks (bs ++ '"' :: cs) = skipBlanks ('"' :: cs) := skipBlanks_append hbs _
  rw [readEntries_blanks hbs, ← readValue_object]
  simp only [readValue, skipBlanks_cons (c := '\x7b') (by decide), hskip]

/-- The name is read, whatever stands behind its string. -/
theorem Member.Named.readString {m : Member} (h : m.Named) (rest : List Char) :
    JsonText.readString (m.quoted ++ rest) = some (m.name.toList, rest) := by
  obtain ⟨taken, htaken, hread⟩ := readString_extent h.quoted
  rw [List.append_nil] at htaken
  rw [htaken]
  exact hread rest

theorem Member.Named.readEntries_more {m : Member} (h : m.Named) {nesting fuel : Nat} {v : Value}
    {behind left rest : List Char} (found : List (Value × Value))
    (hread : readValue nesting fuel (m.text ++ behind) = some (v, left))
    (hleft : skipBlanks left = ',' :: rest) :
    readEntries nesting found (fuel + 1) (m.chars ++ behind) =
      readEntries nesting ((.str m.name, v) :: found) fuel rest := by
  rw [Member.chars, List.append_assoc, readEntries_blanks h.before, List.cons_append,
    List.append_assoc, List.append_assoc, List.cons_append, readEntries,
    skipBlanks_cons (by decide)]
  simp only [h.readString, Option.bind_eq_bind, Option.bind_some, skipBlanks_append h.between,
    skipBlanks_cons (c := ':') (by decide), hread, hleft, String.ofList_toList]

theorem Member.Named.readEntries_last {m : Member} (h : m.Named) {nesting fuel : Nat}
    {v d : Value} {behind left rest : List Char} {found : List (Value × Value)}
    (hread : readValue nesting fuel (m.text ++ behind) = some (v, left))
    (hleft : skipBlanks left = '\x7d' :: rest)
    (hd : dictOf? ((.str m.name, v) :: found) = some d) :
    readEntries nesting found (fuel + 1) (m.chars ++ behind) = some (d, rest) := by
  rw [Member.chars, List.append_assoc, readEntries_blanks h.before, List.cons_append,
    List.append_assoc, List.append_assoc, List.cons_append, readEntries,
    skipBlanks_cons (by decide)]
  simp only [h.readString, Option.bind_eq_bind, Option.bind_some, skipBlanks_append h.between,
    skipBlanks_cons (c := ':') (by decide), hread, hleft, String.ofList_toList, hd]
  rfl

theorem Member.length_text_lt (m : Member) : m.text.length < m.chars.length := by
  simp only [Member.chars, List.length_append, List.length_cons]
  omega

theorem readEntries_of_reads {n nesting : Nat} (hn : n ≤ nesting) {members : List Member}
    (hne : members ≠ []) (hnames : ∀ m ∈ members, m.Named)
    (hreads : ∀ m ∈ members, ReadsAs n m.text m.value) (found : List (Value × Value)) {d : Value}
    (hd : Value.mkDict (found.reverse ++ members.map Member.entry) = .ok d) {fuel : Nat}
    (hfuel : 2 * (commaSeparated (members.map Member.chars)).length < fuel) (rest : List Char) :
    readEntries nesting found fuel
        (commaSeparated (members.map Member.chars) ++ '\x7d' :: rest) = some (d, rest) := by
  induction members generalizing found fuel with
  | nil => exact absurd rfl hne
  | cons m members ih =>
    obtain ⟨hnamed, hnames⟩ := List.forall_mem_cons.mp hnames
    obtain ⟨hfirst, hmore⟩ := List.forall_mem_cons.mp hreads
    have hshorter := m.length_text_lt
    obtain ⟨fuel, rfl⟩ : ∃ k, fuel = k + 1 := ⟨fuel - 1, by omega⟩
    cases members with
    | nil =>
      rw [List.map_singleton, commaSeparated_singleton] at hfuel ⊢
      have hfuel' : 2 * m.text.length ≤ fuel := by omega
      obtain ⟨left, hread, hleft⟩ := hfirst.before (c := '\x7d') (by decide) hn hfuel' rest
      have hmade : dictOf? (m.entry :: found) = some d := by
        rw [dictOf?, List.reverse_cons]
        exact Except.toOption_eq_some_iff.mpr hd
      exact hnamed.readEntries_last hread hleft hmade
    | cons m' members =>
      rw [List.map_cons, commaSeparated_cons _ (by simp)] at hfuel ⊢
      rw [List.length_append, List.length_cons] at hfuel
      have hfuel' : 2 * m.text.length ≤ fuel := by omega
      obtain ⟨left, hread, hleft⟩ := hfirst.before (c := ',') (by decide) hn hfuel'
        (commaSeparated ((m' :: members).map Member.chars) ++ '\x7d' :: rest)
      rw [List.append_assoc, List.cons_append, hnamed.readEntries_more found hread hleft]
      refine ih (List.cons_ne_nil _ _) hnames hmore (m.entry :: found) ?_ (by omega)
      simpa using hd

theorem readsAs_object {n : Nat} {members : List Member} {d : Value} (hne : members ≠ [])
    (hnames : ∀ m ∈ members, m.Named) (hreads : ∀ m ∈ members, ReadsAs n m.text m.value)
    (hd : Value.mkDict (members.map Member.entry) = .ok d) :
    ReadsAs (n + 1) ('\x7b' :: (commaSeparated (members.map Member.chars) ++ ['\x7d'])) d := by
  intro nesting fuel rest hn hfuel hrest
  simp only [List.length_cons, List.length_append, List.length_nil] at hfuel
  obtain ⟨nesting, rfl⟩ : ∃ k, nesting = k + 1 := ⟨nesting - 1, by omega⟩
  obtain ⟨fuel, rfl⟩ : ∃ k, fuel = k + 1 := ⟨fuel - 1, by omega⟩
  obtain ⟨m, more, rfl⟩ := List.exists_cons_of_ne_nil hne
  have hopen : ∀ texts, readValue (nesting + 1) (fuel + 1) ('\x7b' :: (m.chars ++ texts)) =
      readEntries nesting [] fuel (m.chars ++ texts) := by
    intro texts
    rw [Member.chars, List.append_assoc, List.cons_append]
    exact readValue_opening_object (hnames m List.mem_cons_self).before nesting fuel _
  have hcount : 2 * (commaSeparated ((m :: more).map Member.chars)).length < fuel := by omega
  have hread := readEntries_of_reads (Nat.le_of_succ_le_succ hn) hne hnames hreads [] hd hcount rest
  refine ⟨[], blanks_nil, ?_⟩
  rw [List.map_cons, commaSeparated, List.append_assoc] at hread ⊢
  rw [List.cons_append, List.append_assoc, List.append_assoc, hopen]
  exact hread

/-! #### All values -/

/-- What has a step left and takes nothing but one character or word. -/
theorem readsAs_of_taken {n : Nat} {cs : List Char} {v : Value} (hpos : 0 < cs.length)
    (h : ∀ nesting fuel rest, n ≤ nesting → Stops rest →
      readValue nesting (fuel + 1) (cs ++ rest) = some (v, rest)) : ReadsAs n cs v := by
  intro nesting fuel rest hn hfuel hrest
  obtain ⟨fuel, rfl⟩ : ∃ k, fuel = k + 1 := ⟨fuel - 1, by omega⟩
  exact ⟨[], blanks_nil, h nesting fuel rest hn hrest⟩

/-- **A text that stands for a value is read as the value.** -/
theorem Denotes.readsAs {n : Nat} {cs : List Char} {v : Value} (h : Denotes n cs v) :
    ReadsAs n cs v := by
  induction h with
  | null => exact readsAs_of_taken (by decide) fun _ _ _ _ _ => rfl
  | yes => exact readsAs_of_taken (by decide) fun _ _ _ _ _ => rfl
  | no => exact readsAs_of_taken (by decide) fun _ _ _ _ _ => rfl
  | @string _ quoted s hs =>
    refine readsAs_of_taken (Nat.succ_pos _) fun nesting fuel rest _ _ => ?_
    obtain ⟨taken, htaken, hread⟩ := readString_extent hs
    rw [List.append_nil] at htaken
    rw [List.cons_append, readValue, skipBlanks_cons (by decide), htaken]
    simp [hread]
  | @number _ cs t v ht hv =>
    obtain ⟨c, taken, hc, hcs, hread⟩ := readNumber_extent ht
    rw [List.append_nil] at hcs
    rw [hcs]
    refine readsAs_of_taken (Nat.succ_pos _) fun nesting fuel rest _ hrest => ?_
    rw [List.cons_append, readValue_number hc, ← List.cons_append, hread rest hrest]
    simp [hv]
  | @emptyArray n gap hgap =>
    refine readsAs_of_taken (Nat.succ_pos _) fun nesting fuel rest hn _ => ?_
    obtain ⟨nesting, rfl⟩ : ∃ k, nesting = k + 1 := ⟨nesting - 1, by omega⟩
    rw [List.cons_append, List.append_assoc]
    simp only [readValue, skipBlanks_cons (c := '[') (by decide), skipBlanks_append hgap]
    rfl
  | array hne hitems ih => exact readsAs_array hne hitems ih
  | @emptyObject n gap hgap =>
    refine readsAs_of_taken (Nat.succ_pos _) fun nesting fuel rest hn _ => ?_
    obtain ⟨nesting, rfl⟩ : ∃ k, nesting = k + 1 := ⟨nesting - 1, by omega⟩
    rw [List.cons_append, List.append_assoc]
    simp only [readValue, skipBlanks_cons (c := '\x7b') (by decide), skipBlanks_append hgap]
    rfl
  | object hne hnames _ hd ih => exact readsAs_object hne hnames ih hd
  | @padded n before cs behind v hbefore hbehind _ ih =>
    intro nesting fuel rest hn hfuel hrest
    rw [List.length_append, List.length_append] at hfuel
    obtain ⟨gap, hgap, hread⟩ := ih nesting fuel (behind ++ rest) hn (by omega)
      (hrest.blanks hbehind)
    refine ⟨gap ++ behind, hgap.append hbehind, ?_⟩
    rw [List.append_assoc, List.append_assoc, readValue_blanks hbefore, hread, List.append_assoc]

/-- **A text stands for one value at most**, however deep it may nest. -/
theorem Denotes.unique {n n' : Nat} {cs : List Char} {v w : Value} (hv : Denotes n cs v)
    (hw : Denotes n' cs w) : v = w := by
  obtain ⟨gap, -, hreadv⟩ := hv.readsAs (max n n') (2 * cs.length) [] (Nat.le_max_left _ _)
    (Nat.le_refl _) stops_nil
  obtain ⟨gap', -, hreadw⟩ := hw.readsAs (max n n') (2 * cs.length) [] (Nat.le_max_right _ _)
    (Nat.le_refl _) stops_nil
  rw [hreadv] at hreadw
  exact (Prod.mk.inj (Option.some.inj hreadw)).1

theorem Denotes.mono {n n' : Nat} {cs : List Char} {v : Value} (h : Denotes n cs v)
    (hle : n ≤ n') : Denotes n' cs v := by
  induction h generalizing n' with
  | null => exact .null
  | yes => exact .yes
  | no => exact .no
  | string hs => exact .string hs
  | number ht hv => exact .number ht hv
  | emptyArray hgap =>
    obtain ⟨n', rfl⟩ : ∃ k, n' = k + 1 := ⟨n' - 1, by omega⟩
    exact .emptyArray hgap
  | array hne _ ih =>
    obtain ⟨n', rfl⟩ : ∃ k, n' = k + 1 := ⟨n' - 1, by omega⟩
    exact .array hne fun i hi => ih i hi (Nat.le_of_succ_le_succ hle)
  | emptyObject hgap =>
    obtain ⟨n', rfl⟩ : ∃ k, n' = k + 1 := ⟨n' - 1, by omega⟩
    exact .emptyObject hgap
  | object hne hnames _ hd ih =>
    obtain ⟨n', rfl⟩ : ∃ k, n' = k + 1 := ⟨n' - 1, by omega⟩
    exact .object hne hnames (fun m hm => ih m hm (Nat.le_of_succ_le_succ hle)) hd
  | padded hbefore hbehind _ ih => exact .padded hbefore hbehind (ih hle)

/-! ### Objects -/

/-- The text is an object of these members, with blanks around it. -/
def ObjectText (cs : List Char) (members : List Member) : Prop :=
  ∃ before body behind, Blanks before ∧ Blanks behind ∧
    cs = before ++ ('\x7b' :: (body ++ ['\x7d']) ++ behind) ∧
    (members = [] ∧ Blanks body ∨
      members ≠ [] ∧ body = commaSeparated (members.map Member.chars)) ∧
    ∀ m ∈ members, m.Named

/-- An object stands for the dict that its members make. -/
theorem ObjectText.denotes {n : Nat} {cs : List Char} {members : List Member} {d : Value}
    (h : ObjectText cs members) (hvalues : ∀ m ∈ members, Denotes n m.text m.value)
    (hd : Value.mkDict (members.map Member.entry) = .ok d) : Denotes (n + 1) cs d := by
  obtain ⟨before, body, behind, hbefore, hbehind, rfl, hbody, hnames⟩ := h
  refine .padded hbefore hbehind ?_
  rcases hbody with ⟨rfl, hblank⟩ | ⟨hne, rfl⟩
  · cases hd
    exact .emptyObject hblank
  · exact .object hne hnames hvalues hd

theorem number_of_value? {t : NumberText} {v : Value} (h : t.value? = some v) :
    (∃ m, v = .int m) ∨ ∃ x, v = .float x := by
  unfold NumberText.value? at h
  dsimp only at h
  split at h
  · split at h
    · cases h
      split
      · exact Or.inr ⟨_, rfl⟩
      · exact Or.inl ⟨_, rfl⟩
    · cases h
      exact Or.inr ⟨_, rfl⟩
  · obtain ⟨x, -, rfl⟩ := Option.map_eq_some_iff.mp h
    exact Or.inr ⟨_, rfl⟩

/-- Every text of a dict is an object. -/
theorem Denotes.exists_objectText {n : Nat} {cs : List Char} {es : List (Value × Value)}
    (h : Denotes n cs (.dict es)) :
    ∃ members, ObjectText cs members ∧ (∀ m ∈ members, Denotes n m.text m.value) ∧
      Value.mkDict (members.map Member.entry) = .ok (.dict es) := by
  generalize hv : Value.dict es = v at h
  induction h with
  | null | yes | no | string | emptyArray | array => cases hv
  | number _ hvalue =>
    rcases number_of_value? hvalue with ⟨m, rfl⟩ | ⟨x, rfl⟩
    · cases hv
    · cases hv
  | @emptyObject n gap hgap =>
    exact ⟨[], ⟨[], gap, [], blanks_nil, blanks_nil, by simp, Or.inl ⟨rfl, hgap⟩,
      List.forall_mem_nil _⟩, List.forall_mem_nil _, rfl⟩
  | @object n members d hne hnames hvalues hd _ =>
    refine ⟨members, ⟨[], _, [], blanks_nil, blanks_nil, by simp, Or.inr ⟨hne, rfl⟩, hnames⟩,
      fun m hm => (hvalues m hm).mono (Nat.le_succ n), hv ▸ hd⟩
  | @padded n before cs behind v hbefore hbehind _ ih =>
    obtain ⟨members, ⟨before', body, behind', hbefore', hbehind', rfl, hbody⟩, hrest⟩ := ih hv
    refine ⟨members, ⟨before ++ before', body, behind' ++ behind, hbefore.append hbefore',
      hbehind'.append hbehind, by simp, hbody⟩, hrest⟩

end JsonText

open JsonText

/-- **Decoding is what the language says.**  A whole text is decoded to the values that it stands
    for, so to one at most. -/
theorem Value.ofJson?_eq_some_iff {text : String} {v : Value} :
    Value.ofJson? text = some v ↔ Denotes maxNesting text.toList v := by
  constructor
  · intro h
    unfold Value.ofJson? at h
    split at h
    · next w rest hread =>
      split at h
      · next hrest =>
        cases h
        obtain ⟨taken, htaken, hdenotes⟩ := (read_sound _).1 hread
        rw [htaken]
        exact hdenotes.behind (skipBlanks_eq_nil (List.isEmpty_iff.mp hrest))
      · cases h
    · cases h
  · intro h
    have hlength : text.toList.length = text.length := String.length_toList
    obtain ⟨gap, hgap, hread⟩ := h.readsAs maxNesting (2 * text.length + 1) [] (Nat.le_refl _)
      (by omega) stops_nil
    rw [List.append_nil, List.append_nil] at hread
    rw [Value.ofJson?, hread]
    simp [skipBlanks_blanks hgap]

end SafeExpr
