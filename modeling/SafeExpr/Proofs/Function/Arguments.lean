/-
  SafeExpr/Proofs/Function/Arguments.lean
  =======================================
  **What binding arguments does, and when it fails.**

  Of a call only the number of its positional values and the names of its keywords decide
  whether it can be bound: `Bindable` says when, and `FirstFault` which error there is else.
  `Binds` says where each value goes.

  The slots are followed through the stages.  `Holds` is what they have in them after some of
  the keywords: the value at the parameter's place among the positional ones, or that of a
  keyword of its name.  A keyword either offends or keeps this (`placeKeyword_of_holds`), and
  so do all of them (`placeKeywords_of_holds`).  Names are pairwise different throughout;
  else a keyword could go to a slot that its parameter is not the owner of.
-/
import SafeExpr.Proofs.Function.Binding

namespace SafeExpr.Signature

/-! ### Calls that can be bound -/

/-- There are not more positional values than parameters for them, or they may be surplus. -/
def HasRoom (s : Signature) (n : Nat) : Prop :=
  s.variadic = true ∨ n ≤ s.params.countP Param.isExplicit

/-- Keywords that can be passed along with `n` positional values. -/
structure KeywordsFit (s : Signature) (n : Nat) (names : List String) : Prop where
  accepted : ∀ name ∈ names, s.acceptsKeyword name = true
  distinct : names.Nodup
  unfilled : ∀ name ∈ names, ¬ s.FilledByPosition n name

/-- There is a value for the parameter at position `i`. -/
def Filled (s : Signature) (n : Nat) (names : List String) (i : Nat) (p : Param) : Prop :=
  explicitBefore s.params i < n ∨ p.name ∈ names

/-- The call has what its parameters need, and nothing that they do not take. -/
structure Bindable (s : Signature) (n : Nat) (names : List String) : Prop where
  room : s.HasRoom n
  keywords : s.KeywordsFit n names
  required : ∀ (i : Nat) (p : Param), s.params[i]? = some p → p.kind = .required →
    s.Filled n names i p

/-- What is wrong with a keyword behind some others. -/
inductive Offends (s : Signature) (n : Nat) (before : List String) (name : String) :
    BindError → Prop
  | unaccepted (h : s.acceptsKeyword name = false) : Offends s n before name (.unexpectedKeyword name)
  | again (haccepts : s.acceptsKeyword name = true)
    (h : name ∈ before ∨ s.FilledByPosition n name) : Offends s n before name (.duplicateArgument name)

/-- The first thing that is wrong with a call. -/
inductive FirstFault (s : Signature) (n : Nat) (names : List String) : BindError → Prop
  | tooMany (h : ¬ s.HasRoom n) : FirstFault s n names (.tooMany s.arity n)
  | keyword (hroom : s.HasRoom n) {before after : List String} {name : String} {x : BindError}
    (hnames : names = before ++ name :: after) (hbefore : s.KeywordsFit n before)
    (h : s.Offends n before name x) : FirstFault s n names x
  | missing (hroom : s.HasRoom n) (hkeywords : s.KeywordsFit n names) {i : Nat} {p : Param}
    (hp : s.params[i]? = some p) (hkind : p.kind = .required) (h : ¬ s.Filled n names i p)
    (hbefore : ∀ (j : Nat) (q : Param), j < i → s.params[j]? = some q → q.kind = .required →
      s.Filled n names j q) : FirstFault s n names (.missing p.name)

/-- Where the values of a call go: one to each parameter, and surplus ones behind. -/
structure Binds (s : Signature) (ps : List Value) (ks : List (String × Value))
    (is args : List Value) : Prop where
  length : args.length = s.params.length + (ps.length - s.params.countP Param.isExplicit)
  positional : ∀ (i : Nat) (p : Param), s.params[i]? = some p → p.isExplicit = true →
    explicitBefore s.params i < ps.length → args[i]? = ps[explicitBefore s.params i]?
  keyword : ∀ (i : Nat) (p : Param) (v : Value), s.params[i]? = some p → (p.name, v) ∈ ks →
    args[i]? = some v
  omitted : ∀ (i : Nat) (p : Param), s.params[i]? = some p → p.kind = .optional →
    ¬ s.Filled ps.length (ks.map Prod.fst) i p → args[i]? = some .none
  implied : ∀ (i : Nat) (p : Param), s.params[i]? = some p → p.kind = .implied →
    args[i]? = is[impliedBefore s.params i]?
  surplus : args.drop s.params.length = ps.drop (s.params.countP Param.isExplicit)
  everything : ∃ n, args.Perm (ps ++ ks.map Prod.snd ++ is ++ List.replicate n .none)

/-! ### Keywords that fit -/

section Keywords

variable {s : Signature} {n : Nat} {before names : List String} {name : String} {x : BindError}

theorem keywordsFit_nil (s : Signature) (n : Nat) : s.KeywordsFit n [] where
  accepted := List.forall_mem_nil _
  distinct := .nil
  unfilled := List.forall_mem_nil _

theorem KeywordsFit.of_prefix (h : s.KeywordsFit n names) (hbefore : before <+: names) :
    s.KeywordsFit n before where
  accepted name hname := h.accepted name (hbefore.subset hname)
  distinct := h.distinct.sublist hbefore.sublist
  unfilled name hname := h.unfilled name (hbefore.subset hname)

/-- One more keyword fits just if it does not offend. -/
theorem keywordsFit_append_singleton_iff :
    s.KeywordsFit n (before ++ [name]) ↔
      s.KeywordsFit n before ∧ ∀ x, ¬ s.Offends n before name x := by
  constructor
  · intro h
    refine ⟨h.of_prefix (List.prefix_append _ _), fun x hx => ?_⟩
    have hname : name ∈ before ++ [name] := by simp
    cases hx with
    | unaccepted hno => simp [h.accepted name hname] at hno
    | again _ hagain =>
      rcases hagain with hmem | hfilled
      · exact (List.nodup_append.mp h.distinct).2.2 name hmem name (by simp) rfl
      · exact h.unfilled name hname hfilled
  · rintro ⟨h, hoffends⟩
    have haccepts : s.acceptsKeyword name = true :=
      eq_true_of_ne_false fun hno => hoffends _ (.unaccepted hno)
    have hnew : name ∉ before := fun hmem => hoffends _ (.again haccepts (.inl hmem))
    have hunfilled : ¬ s.FilledByPosition n name := fun hf =>
      hoffends _ (.again haccepts (.inr hf))
    refine ⟨?_, ?_, ?_⟩
    · simpa [or_imp, forall_and] using ⟨h.accepted, haccepts⟩
    · rw [List.nodup_append]
      refine ⟨h.distinct, by simp, ?_⟩
      rintro a ha b hb rfl
      rw [List.mem_singleton.mp hb] at ha
      exact hnew ha
    · simpa [or_imp, forall_and] using ⟨h.unfilled, hunfilled⟩

/-- Keywords with one that offends do not fit. -/
theorem Offends.not_keywordsFit {after : List String} (h : s.Offends n before name x) :
    ¬ s.KeywordsFit n (before ++ name :: after) := by
  intro hfit
  have hpre : before ++ [name] <+: before ++ name :: after := ⟨after, by simp⟩
  exact (keywordsFit_append_singleton_iff.mp (hfit.of_prefix hpre)).2 x h

theorem Offends.unique {x' : BindError} (h : s.Offends n before name x)
    (h' : s.Offends n before name x') : x = x' := by
  cases h with
  | unaccepted hno =>
    cases h' with
    | unaccepted => rfl
    | again hyes => simp [hno] at hyes
  | again hyes =>
    cases h' with
    | unaccepted hno => simp [hyes] at hno
    | again => rfl

/-- Behind keywords that fit, there is one first keyword that does not. -/
theorem offends_unique {before' after after' : List String} {name' : String} {x' : BindError}
    (hsplit : before ++ name :: after = before' ++ name' :: after')
    (hfit : s.KeywordsFit n before) (hfit' : s.KeywordsFit n before')
    (h : s.Offends n before name x) (h' : s.Offends n before' name' x') : x = x' := by
  -- keywords that fit do not reach beyond one that offends
  have hnot : ∀ {b b' a a' : List String} {m m' : String} {y : BindError},
      b ++ m :: a = b' ++ m' :: a' → s.KeywordsFit n b' → s.Offends n b m y →
        b'.length ≤ b.length := by
    intro b b' a a' m m' y hba hb' hy
    refine Nat.le_of_not_lt fun hlonger => ?_
    have hm : b ++ [m] <+: b ++ m :: a := ⟨a, by simp⟩
    have hpre : b ++ [m] <+: b' := by
      refine List.prefix_of_prefix_length_le hm ⟨m' :: a', hba.symm⟩ ?_
      simp only [List.length_append, List.length_singleton]
      omega
    exact hy.not_keywordsFit (hb'.of_prefix hpre)
  have hlength : before.length = before'.length :=
    Nat.le_antisymm (hnot hsplit.symm hfit h') (hnot hsplit hfit' h)
  obtain ⟨rfl, hrest⟩ := List.append_inj hsplit hlength
  cases hrest
  exact h.unique h'

end Keywords

theorem FirstFault.unique {s : Signature} {n : Nat} {names : List String} {x x' : BindError}
    (h : s.FirstFault n names x) (h' : s.FirstFault n names x') : x = x' := by
  cases h with
  | tooMany hno =>
    cases h' with
    | tooMany => rfl
    | keyword hroom => exact absurd hroom hno
    | missing hroom => exact absurd hroom hno
  | keyword hroom hnames hbefore hoffends =>
    subst hnames
    cases h' with
    | tooMany hno => exact absurd hroom hno
    | keyword _ hnames' hbefore' hoffends' =>
      exact offends_unique hnames' hbefore hbefore' hoffends hoffends'
    | missing _ hfit => exact absurd hfit hoffends.not_keywordsFit
  | @missing hroom hfit i p hp hkind hunfilled hbefore =>
    cases h' with
    | tooMany hno => exact absurd hroom hno
    | keyword _ hnames' _ hoffends' =>
      subst hnames'
      exact absurd hfit hoffends'.not_keywordsFit
    | @missing _ _ j q hq hkind' hunfilled' hbefore' =>
      obtain rfl : i = j := by
        rcases Nat.lt_trichotomy i j with hij | hij | hji
        · exact absurd (hbefore' i p hij hp hkind) hunfilled
        · exact hij
        · exact absurd (hbefore j q hji hq hkind') hunfilled'
      cases hp.symm.trans hq
      rfl

theorem FirstFault.not_bindable {s : Signature} {n : Nat} {names : List String} {x : BindError}
    (h : s.FirstFault n names x) : ¬ s.Bindable n names := by
  intro hbindable
  cases h with
  | tooMany hno => exact hno hbindable.room
  | @keyword _ before after name _ hnames _ hoffends =>
    subst hnames
    exact hoffends.not_keywordsFit hbindable.keywords
  | missing _ _ hp hkind hunfilled => exact hunfilled (hbindable.required _ _ hp hkind)

/-! ### The parameter of a name -/

section Names

variable {s : Signature} (hnames : (s.params.map Param.name).Nodup)
include hnames

theorem index_unique {i j : Nat} {p q : Param} (hp : s.params[i]? = some p)
    (hq : s.params[j]? = some q) (h : p.name = q.name) : i = j := by
  have hi : i < (s.params.map Param.name).length := by
    rw [List.length_map]
    exact (List.getElem?_eq_some_iff.mp hp).1
  apply (List.getElem?_inj hi hnames).mp
  rw [List.getElem?_map, List.getElem?_map, hp, hq, Option.map_some, Option.map_some, h]

theorem findIdx?_name {i : Nat} {p : Param} (hp : s.params[i]? = some p) :
    s.params.findIdx? (·.name = p.name) = some i := by
  obtain ⟨hi, hget⟩ := List.getElem?_eq_some_iff.mp hp
  refine List.findIdx?_eq_some_iff_getElem.mpr ⟨hi, by simp [hget], fun j hj => ?_⟩
  simp only [decide_eq_true_eq]
  intro hsame
  have hj' : s.params[j]? = some s.params[j] := List.getElem?_eq_getElem (Nat.lt_trans hj hi)
  exact Nat.ne_of_lt hj (index_unique hnames hj' hp hsame)

theorem filledByPosition_iff {i : Nat} {p : Param} (hp : s.params[i]? = some p) (n : Nat) :
    s.FilledByPosition n p.name ↔ p.isExplicit = true ∧ explicitBefore s.params i < n := by
  rw [FilledByPosition, findIdx?_name hnames hp]
  constructor
  · rintro ⟨j, q, hj, hq, hexplicit, hcount⟩
    cases hj
    cases hp.symm.trans hq
    exact ⟨hexplicit, hcount⟩
  · rintro ⟨hexplicit, hcount⟩
    exact ⟨i, p, rfl, hp, hexplicit, hcount⟩

omit hnames in
theorem exists_param_of_acceptsKeyword {name : String} (h : s.acceptsKeyword name = true) :
    ∃ (i : Nat) (p : Param), s.params[i]? = some p ∧ p.name = name ∧ p.isExplicit = true := by
  simp only [acceptsKeyword, Bool.and_eq_true, List.any_eq_true, decide_eq_true_eq] at h
  obtain ⟨-, p, hp, hname, hexplicit⟩ := h
  obtain ⟨i, hi⟩ := List.mem_iff_getElem?.mp (List.mem_of_mem_drop hp)
  exact ⟨i, p, hi, hname, hexplicit⟩

end Names

/-! ### Slots -/

/-- After some keywords the slots have the values passed so far, each at its parameter. -/
structure Holds (s : Signature) (ps : List Value) (ks : List (String × Value))
    (slots : List (Option Value)) : Prop where
  length : slots.length = s.params.length
  mem_iff : ∀ (i : Nat) (v : Value), slots[i]? = some (some v) ↔
    ∃ p, s.params[i]? = some p ∧ p.isExplicit = true ∧
      (ps[explicitBefore s.params i]? = some v ∨ (p.name, v) ∈ ks)
  everything : (slots.filterMap id ++ ps.drop (s.params.countP Param.isExplicit)).Perm
    (ps ++ ks.map Prod.snd)

theorem holds_placePositional (s : Signature) (ps : List Value) :
    s.Holds ps [] (placePositional s.params ps).1 where
  length := length_placePositional s.params ps
  mem_iff i v := by
    rw [getElem?_placePositional]
    cases s.params[i]? with
    | none => simp
    | some p => simp
  everything := by
    have hall := filterMap_placePositional s.params ps
    rw [placePositional_surplus_eq] at hall
    rw [hall, List.map_nil, List.append_nil]

section Slots

variable {s : Signature} {ps : List Value} {ks : List (String × Value)}
  {slots : List (Option Value)} (h : s.Holds ps ks slots)
include h

/-- A slot has a value just if its parameter was passed one. -/
theorem Holds.exists_iff {i : Nat} {p : Param} (hp : s.params[i]? = some p)
    (hexplicit : p.isExplicit = true) :
    (∃ v, slots[i]? = some (some v)) ↔ s.Filled ps.length (ks.map Prod.fst) i p := by
  have hposition : (∃ v, ps[explicitBefore s.params i]? = some v) ↔
      explicitBefore s.params i < ps.length := by
    rw [← Option.isSome_iff_exists, isSome_getElem?]
  simp only [h.mem_iff, hp, Option.some.injEq, exists_eq_left', hexplicit, true_and, exists_or,
    Filled, List.mem_map, Prod.exists, exists_eq_right, exists_and_right, hposition]

/-- To fill an empty slot is to pass its parameter one more value. -/
theorem Holds.set (hnames : (s.params.map Param.name).Nodup) {i : Nat} {p : Param} (v : Value)
    (hp : s.params[i]? = some p) (hexplicit : p.isExplicit = true)
    (hempty : ¬ ∃ w, slots[i]? = some (some w)) :
    s.Holds ps (ks ++ [(p.name, v)]) (slots.set i (some v)) where
  length := by rw [List.length_set, h.length]
  mem_iff j w := by
    by_cases hij : i = j
    · subst hij
      have hi : i < slots.length := by
        rw [h.length]
        exact (List.getElem?_eq_some_iff.mp hp).1
      have hnone : ∀ w, ¬ (ps[explicitBefore s.params i]? = some w ∨ (p.name, w) ∈ ks) :=
        fun w hw => hempty ⟨w, (h.mem_iff i w).mpr ⟨p, hp, hexplicit, hw⟩⟩
      rw [List.getElem?_set_self hi]
      simp only [hp, Option.some.injEq, exists_eq_left', hexplicit, true_and, List.mem_append,
        List.mem_singleton, Prod.mk.injEq]
      rw [← or_assoc, or_iff_right (hnone w), eq_comm]
    · rw [List.getElem?_set_ne hij, h.mem_iff]
      -- the keyword belongs to another parameter
      have hother : ∀ q, s.params[j]? = some q → ¬ (q.name, w) = (p.name, v) :=
        fun q hq hsame => hij (index_unique hnames hp hq (congrArg Prod.fst hsame).symm)
      refine exists_congr fun q => and_congr_right fun hq => ?_
      simp [hother q hq]
  everything := by
    have hi := (List.getElem?_eq_some_iff.mp hp).1
    rw [← h.length] at hi
    have hnone : slots[i]? = some none := by
      rw [List.getElem?_eq_getElem hi]
      refine congrArg some (Option.eq_none_iff_forall_ne_some.mpr fun w hw => hempty ⟨w, ?_⟩)
      rw [List.getElem?_eq_getElem hi, hw]
    rw [List.map_append, ← List.append_assoc]
    refine ((filterMap_set_perm v hnone).append_right _).trans ?_
    exact (h.everything.cons v).trans (List.perm_append_singleton v _).symm

/-- A keyword either offends, or its value is put into its slot. -/
theorem placeKeyword_of_holds (hnames : (s.params.map Param.name).Nodup) (k : String × Value) :
    (∃ x, s.placeKeyword slots k = .error x ∧ s.Offends ps.length (ks.map Prod.fst) k.1 x) ∨
    ∃ slots', s.placeKeyword slots k = .ok slots' ∧ s.Holds ps (ks ++ [k]) slots' ∧
      ∀ x, ¬ s.Offends ps.length (ks.map Prod.fst) k.1 x := by
  obtain ⟨name, v⟩ := k
  cases haccepts : s.acceptsKeyword name with
  | false => exact .inl ⟨_, by simp [placeKeyword, haccepts], .unaccepted haccepts⟩
  | true =>
    obtain ⟨i, p, hp, rfl, hexplicit⟩ := exists_param_of_acceptsKeyword haccepts
    have hfilled := h.exists_iff hp hexplicit
    have hagain : s.Filled ps.length (ks.map Prod.fst) i p ↔
        p.name ∈ ks.map Prod.fst ∨ s.FilledByPosition ps.length p.name := by
      rw [filledByPosition_iff hnames hp, and_iff_right hexplicit, or_comm, Filled]
    have hslot : (slots.getD i none).isSome = true ↔ ∃ v, slots[i]? = some (some v) := by
      rw [List.getD_eq_getElem?_getD]
      rcases slots[i]? with - | - | w <;> simp
    by_cases hw : ∃ w, slots[i]? = some (some w)
    · refine .inl ⟨.duplicateArgument p.name, ?_, .again haccepts (hagain.mp (hfilled.mp hw))⟩
      simp only [placeKeyword, haccepts, findIdx?_name hnames hp, if_pos (hslot.mpr hw)]
      rfl
    · refine .inr ⟨slots.set i (some v), ?_, h.set hnames v hp hexplicit hw, ?_⟩
      · simp only [placeKeyword, haccepts, findIdx?_name hnames hp, if_neg (fun hsome => hw (hslot.mp hsome))]
        rfl
      · intro x hx
        cases hx with
        | unaccepted hno => simp [haccepts] at hno
        | again _ hx => exact hw (hfilled.mpr (hagain.mpr hx))

/-- All keywords are placed, or there is a first one that offends. -/
theorem placeKeywords_of_holds (hnames : (s.params.map Param.name).Nodup)
    (hfit : s.KeywordsFit ps.length (ks.map Prod.fst)) (rest : List (String × Value)) :
    (∃ x before k after, s.placeKeywords slots rest = .error x ∧ rest = before ++ k :: after ∧
      s.KeywordsFit ps.length ((ks ++ before).map Prod.fst) ∧
      s.Offends ps.length ((ks ++ before).map Prod.fst) k.1 x) ∨
    ∃ slots', s.placeKeywords slots rest = .ok slots' ∧ s.Holds ps (ks ++ rest) slots' ∧
      s.KeywordsFit ps.length ((ks ++ rest).map Prod.fst) := by
  induction rest generalizing ks slots with
  | nil => exact .inr ⟨slots, rfl, by simpa using h, by simpa using hfit⟩
  | cons k rest ih =>
    unfold placeKeywords
    rcases placeKeyword_of_holds h hnames k with ⟨x, hx, hoffends⟩ | ⟨slots', hslots, hholds, hnone⟩
    · exact .inl ⟨x, [], k, rest, by rw [hx]; rfl, rfl, by simpa using hfit, by simpa using hoffends⟩
    · have hmore : s.KeywordsFit ps.length ((ks ++ [k]).map Prod.fst) := by
        rw [List.map_append]
        exact keywordsFit_append_singleton_iff.mpr ⟨hfit, hnone⟩
      rw [hslots]
      rcases ih hholds hmore with ⟨x, before, k', after, hx, rfl, hbefore, hoffends⟩ | hplaced
      · rw [List.append_assoc] at hbefore hoffends
        exact .inl ⟨x, k :: before, k', after, hx, rfl, hbefore, hoffends⟩
      · rw [List.append_assoc] at hplaced
        exact .inr hplaced

end Slots

/-! ### Binding -/

theorem tooMany_iff (s : Signature) (ps : List Value) :
    (!s.variadic && !(placePositional s.params ps).2.isEmpty) = true ↔ ¬ s.HasRoom ps.length := by
  rw [placePositional_surplus_eq, HasRoom]
  simp

section Complete

variable {s : Signature} {ps is : List Value} {ks : List (String × Value)}
  {slots : List (Option Value)} (h : s.Holds ps ks slots)
  (hcount : is.length = s.params.countP fun p => !p.isExplicit)
include h

theorem Holds.join_eq_some_iff {i : Nat} {p : Param} (hp : s.params[i]? = some p)
    (hexplicit : p.isExplicit = true) (v : Value) :
    slots[i]?.join = some v ↔
      ps[explicitBefore s.params i]? = some v ∨ (p.name, v) ∈ ks := by
  rw [Option.join_eq_some_iff, h.mem_iff]
  simp [hp, hexplicit]

theorem Holds.join_eq_none_iff {i : Nat} {p : Param} (hp : s.params[i]? = some p)
    (hexplicit : p.isExplicit = true) :
    slots[i]?.join = none ↔ ¬ s.Filled ps.length (ks.map Prod.fst) i p := by
  rw [← h.exists_iff hp hexplicit, Option.eq_none_iff_forall_ne_some, not_exists]
  simp [Option.join_eq_some_iff]

/-- Nothing is put into the slot of an implied parameter. -/
theorem Holds.join_eq_none_of_implied {i : Nat} {p : Param} (hp : s.params[i]? = some p)
    (hkind : p.kind = .implied) : slots[i]?.join = none := by
  rw [Option.eq_none_iff_forall_ne_some]
  intro v hv
  obtain ⟨q, hq, hexplicit, -⟩ := (h.mem_iff i v).mp (Option.join_eq_some_iff.mp hv)
  cases hp.symm.trans hq
  simp [isExplicit_eq_false_iff.mpr hkind] at hexplicit

/-- A required parameter that gets a value was passed one. -/
theorem Holds.filled_of_gets {i : Nat} {p : Param} (hp : s.params[i]? = some p)
    (hkind : p.kind = .required) {is' left : List Value} {v : Value}
    (hgets : Gets p slots[i]?.join is' v left) : s.Filled ps.length (ks.map Prod.fst) i p :=
  (h.exists_iff hp (isExplicit_iff.mpr (by simp [hkind]))).mp
    ⟨v, Option.join_eq_some_iff.mp (hgets.slot_eq hkind)⟩

include hcount

/-- Only a required parameter can lack a value. -/
theorem Holds.firstFault_of_completeSlots (hroom : s.HasRoom ps.length)
    (hfit : s.KeywordsFit ps.length (ks.map Prod.fst)) {x : BindError}
    (hx : completeSlots s.params slots is = .error x) :
    s.FirstFault ps.length (ks.map Prod.fst) x := by
  obtain ⟨i, p, hp, rfl, hlacks, hbefore⟩ := lacks_of_completeSlots hx
  rcases hlacks with ⟨himplied, hnone⟩ | ⟨hrequired, hnone⟩
  · have hlt := impliedBefore_lt hp himplied
    rw [List.drop_eq_nil_iff, hcount] at hnone
    omega
  · have hexplicit : p.isExplicit = true := isExplicit_iff.mpr (by simp [hrequired])
    refine .missing hroom hfit hp hrequired ((h.join_eq_none_iff hp hexplicit).mp hnone) ?_
    intro j q hj hq hkind
    obtain ⟨v, left, hgets⟩ := hbefore j q hj hq
    exact h.filled_of_gets hq hkind hgets

/-- Completed slots, and surplus values behind them, are what a call binds. -/
theorem Holds.binds_of_completeSlots (hnames : (s.params.map Param.name).Nodup)
    (hfit : s.KeywordsFit ps.length (ks.map Prod.fst)) {args : List Value}
    (hargs : completeSlots s.params slots is = .ok args) :
    s.Binds ps ks is (args ++ ps.drop (s.params.countP Param.isExplicit)) := by
  have hlength := length_completeSlots hargs
  have hat : ∀ {i : Nat} {p : Param}, s.params[i]? = some p →
      (args ++ ps.drop (s.params.countP Param.isExplicit))[i]? = args[i]? := by
    intro i p hp
    refine List.getElem?_append_left ?_
    rw [hlength]
    exact (List.getElem?_eq_some_iff.mp hp).1
  have hpassed : ∀ {i : Nat} {p : Param} {v : Value}, s.params[i]? = some p →
      p.isExplicit = true → (ps[explicitBefore s.params i]? = some v ∨ (p.name, v) ∈ ks) →
        args[i]? = some v := by
    intro i p v hp hexplicit hv
    obtain ⟨w, left, hw, hargs⟩ := gets_of_completeSlots hargs hp
    rw [(h.join_eq_some_iff hp hexplicit v).mpr hv] at hw
    rcases gets_iff.mp hw with ⟨hkind, -⟩ | ⟨-, hvalue, -⟩ | ⟨-, hnone, -⟩
    · simp [isExplicit_eq_false_iff.mpr hkind] at hexplicit
    · rw [hargs, hvalue]
    · cases hnone
  constructor
  case length => rw [List.length_append, hlength, List.length_drop]
  case positional =>
    intro i p hp hexplicit hlt
    rw [hat hp, List.getElem?_eq_getElem hlt]
    exact hpassed hp hexplicit (.inl (List.getElem?_eq_getElem hlt))
  case keyword =>
    intro i p v hp hmem
    obtain ⟨j, q, hq, hname, hexplicit⟩ :=
      exists_param_of_acceptsKeyword (hfit.accepted _ (List.mem_map_of_mem hmem))
    cases index_unique hnames hq hp hname
    cases hq.symm.trans hp
    rw [hat hp]
    exact hpassed hp hexplicit (.inr hmem)
  case omitted =>
    intro i p hp hkind hunfilled
    have hexplicit : p.isExplicit = true := isExplicit_iff.mpr (by simp [hkind])
    obtain ⟨v, left, hgets, hv⟩ := gets_of_completeSlots hargs hp
    rw [(h.join_eq_none_iff hp hexplicit).mpr hunfilled] at hgets
    rcases gets_iff.mp hgets with ⟨himplied, -⟩ | ⟨-, hsome, -⟩ | ⟨-, -, hnone, -⟩
    · simp [hkind] at himplied
    · cases hsome
    · rw [hat hp, hv, hnone]
  case implied =>
    intro i p hp hkind
    obtain ⟨v, left, hgets, hv⟩ := gets_of_completeSlots hargs hp
    rcases gets_iff.mp hgets with ⟨-, hdrop⟩ | ⟨hexplicit, -⟩ | ⟨hoptional, -⟩
    · rw [hat hp, hv, ← List.head?_drop, hdrop, List.head?_cons]
    · exact absurd hkind hexplicit
    · simp [hkind] at hoptional
  case surplus => rw [List.drop_left' hlength]
  case everything =>
    obtain ⟨n, hperm⟩ := completeSlots_perm hargs h.length hcount
      fun i p => h.join_eq_none_of_implied
    refine ⟨n, (hperm.append_right _).trans ?_⟩
    have hmove : ∀ as bs cs ds : List Value, (as ++ bs ++ cs ++ ds).Perm (as ++ ds ++ bs ++ cs) := by
      intro as bs cs ds
      simp only [List.append_assoc]
      refine List.Perm.append_left as ?_
      rw [← List.append_assoc]
      exact List.perm_append_comm
    exact (hmove _ _ _ _).trans ((h.everything.append_right _).append_right _)

end Complete

theorem length_impliedNames (s : Signature) :
    s.impliedNames.length = s.params.countP fun p => !p.isExplicit := by
  rw [impliedNames, List.length_map, List.countP_eq_length_filter]

/-- A call is bound, or there is a first thing wrong with it. -/
theorem bind_cases {s : Signature} (hnames : (s.params.map Param.name).Nodup) (ps : List Value)
    (ks : List (String × Value)) {is : List Value} (hcount : is.length = s.impliedNames.length) :
    (∃ args, s.bind ps ks is = .ok args ∧ s.Bindable ps.length (ks.map Prod.fst) ∧
      s.Binds ps ks is args) ∨
    ∃ x, s.bind ps ks is = .error x ∧ s.FirstFault ps.length (ks.map Prod.fst) x := by
  rw [length_impliedNames] at hcount
  rw [bind_eq]
  by_cases hroom : s.HasRoom ps.length
  · rw [if_neg (fun hmany => (tooMany_iff s ps).mp hmany hroom)]
    rcases placeKeywords_of_holds (holds_placePositional s ps) hnames (keywordsFit_nil s ps.length) ks
      with ⟨x, before, k, after, hx, rfl, hbefore, hoffends⟩ | ⟨slots, hslots, hholds, hfit⟩
    · rw [hx]
      have hsplit : (before ++ k :: after).map Prod.fst =
          ([] ++ before).map Prod.fst ++ k.1 :: after.map Prod.fst := by
        rw [List.map_append, List.map_cons, List.nil_append]
      exact .inr ⟨x, rfl, .keyword hroom hsplit hbefore hoffends⟩
    · rw [hslots, placePositional_surplus_eq]
      cases hargs : completeSlots s.params slots is with
      | error x =>
        refine .inr ⟨x, ?_, hholds.firstFault_of_completeSlots hcount hroom hfit hargs⟩
        exact Except.bind_eq_error_iff.mpr (.inr ⟨slots, rfl,
          Except.bind_eq_error_iff.mpr (.inl hargs)⟩)
      | ok args =>
        have hrequired : ∀ (i : Nat) (p : Param), s.params[i]? = some p → p.kind = .required →
            s.Filled ps.length (ks.map Prod.fst) i p := by
          intro i p hp hkind
          obtain ⟨v, left, hgets, -⟩ := gets_of_completeSlots hargs hp
          exact hholds.filled_of_gets hp hkind hgets
        refine .inl ⟨_, ?_, ⟨hroom, hfit, hrequired⟩,
          hholds.binds_of_completeSlots hcount hnames hfit hargs⟩
        exact Except.bind_eq_ok_iff.mpr ⟨slots, rfl, Except.bind_eq_ok_iff.mpr ⟨args, hargs, rfl⟩⟩
  · rw [if_pos ((tooMany_iff s ps).mpr hroom)]
    exact .inr ⟨_, rfl, .tooMany hroom⟩

/-- **Binding arguments is exact.**  It succeeds just if the call is one that can be bound, the
arguments are then where they belong, and else the error is the first thing that is wrong. -/
theorem bind_exact {s : Signature} {ps is : List Value} {ks : List (String × Value)}
    (hnames : (s.params.map Param.name).Nodup) (hcount : is.length = s.impliedNames.length) :
    ((∃ args, s.bind ps ks is = .ok args) ↔ s.Bindable ps.length (ks.map Prod.fst)) ∧
    (∀ args, s.bind ps ks is = .ok args → s.Binds ps ks is args) ∧
    ∀ x, s.bind ps ks is = .error x ↔ s.FirstFault ps.length (ks.map Prod.fst) x := by
  rcases bind_cases hnames ps ks hcount with ⟨args, hargs, hbindable, hbinds⟩ | ⟨x, hx, hfault⟩
  · simp only [hargs, Except.ok.injEq, exists_eq', true_iff, forall_eq', reduceCtorEq, false_iff]
    exact ⟨hbindable, hbinds, fun x hx => hx.not_bindable hbindable⟩
  · simp only [hx, reduceCtorEq, exists_false, false_iff, false_imp_iff, implies_true, true_and,
      Except.error.injEq]
    refine ⟨hfault.not_bindable, fun y => ⟨?_, hfault.unique⟩⟩
    rintro rfl
    exact hfault

/-- A value by position, one by keyword, an implied one, and an optional parameter without. -/
theorem bind_exact_of_each_kind :
    let s : Signature :=
      { params := [⟨"x", .required⟩, ⟨"d", .implied⟩, ⟨"y", .optional⟩, ⟨"z", .required⟩] }
    let ks : List (String × Value) := [("z", .int 3)]
    (s.params.map Param.name).Nodup ∧ s.impliedNames.length = 1 ∧ s.Bindable 1 ["z"] ∧
      s.Binds [.int 1] ks [.int 4] [.int 1, .int 4, .none, .int 3] := by
  intro s ks
  have hnames : (s.params.map Param.name).Nodup := by decide
  obtain ⟨hok, hbinds, -⟩ := @bind_exact s [.int 1] [.int 4] ks hnames rfl
  have hbound : s.bind [.int 1] ks [.int 4] = .ok [.int 1, .int 4, .none, .int 3] := by rfl
  exact ⟨hnames, rfl, hok.mp ⟨_, hbound⟩, hbinds _ hbound⟩

end SafeExpr.Signature
