/-
  SafeExpr/Proofs/Evaluation/SetAlgebra.lean
  ==========================================
  **The operators of sets are those of set algebra.**

  Each of them is put together from the elements of one set that are, or are not, found in the
  other.  What is found in such a selection is decided by what is found in the two sets
  (`memberOf_filter`), as long as equality is an equivalence between the elements; the laws of set
  algebra are then laws of Boolean algebra, since sets are equal just if the same is found in them
  (`set_eq_iff`).
-/
import SafeExpr.Proofs.Library.WellFormed
import SafeExpr.Proofs.Value.Elements

namespace SafeExpr

namespace Operators

open Value (IsKey Elements memberOf_append memberOf_congr memberOf_iff set_eq_iff)

/-- The operators of sets. -/
theorem binary_set_eq {op : BinaryOp} (hop : isSetOperator op = true) (vs ws : List Value) :
    binary op (.set vs) (.set ws) = .ok (.set (setOperation op vs ws)) := by
  cases op with
  | bitAnd | bitOr | bitXor | sub => rfl
  | _ => cases hop

/-! ### What is found in a result -/

section Members

variable {x : Value} {vs ws : List Value}

variable (hx : x.IsKey) (hvs : ∀ v ∈ vs, v.IsKey) (hws : ∀ w ∈ ws, w.IsKey)
include hx hvs

/-- What is found in the elements that are, or are not, found in the other set. -/
theorem memberOf_filter (hws : ∀ w ∈ ws, w.IsKey) (p : Bool → Bool) :
    x.memberOf (vs.filter fun v => p (v.memberOf ws)) = (x.memberOf vs && p (x.memberOf ws)) := by
  have hsame : ∀ v ∈ vs, v.eq x = true → v.memberOf ws = x.memberOf ws :=
    fun v hv hvx => memberOf_congr (hvs v hv) hx hws hvx
  rw [Bool.eq_iff_iff, Bool.and_eq_true, memberOf_iff, memberOf_iff]
  constructor
  · rintro ⟨v, hv, hvx⟩
    obtain ⟨hv, hp⟩ := List.mem_filter.mp hv
    exact ⟨⟨v, hv, hvx⟩, hsame v hv hvx ▸ hp⟩
  · rintro ⟨⟨v, hv, hvx⟩, hp⟩
    exact ⟨v, List.mem_filter.mpr ⟨hv, (hsame v hv hvx).symm ▸ hp⟩, hvx⟩

include hws

theorem memberOf_union :
    x.memberOf (setOperation .bitOr vs ws) = (x.memberOf vs || x.memberOf ws) := by
  change x.memberOf (vs ++ ws.filter fun w => !w.memberOf vs) = _
  rw [memberOf_append, memberOf_filter hx hws hvs (!·)]
  cases x.memberOf vs <;> simp

theorem memberOf_intersection :
    x.memberOf (setOperation .bitAnd vs ws) = (x.memberOf vs && x.memberOf ws) :=
  memberOf_filter hx hvs hws id

theorem memberOf_difference :
    x.memberOf (setOperation .sub vs ws) = (x.memberOf vs && !x.memberOf ws) :=
  memberOf_filter hx hvs hws (!·)

theorem memberOf_symmetricDifference :
    x.memberOf (setOperation .bitXor vs ws) = (x.memberOf vs ^^ x.memberOf ws) := by
  change x.memberOf ((vs.filter fun v => !v.memberOf ws) ++ ws.filter fun w => !w.memberOf vs) = _
  rw [memberOf_append, memberOf_filter hx hvs hws (!·), memberOf_filter hx hws hvs (!·)]
  cases x.memberOf vs <;> cases x.memberOf ws <;> rfl

end Members

/-! ### The elements of a result -/

/-- A result is made of elements of the first set, and behind them of elements of the second which
    are equal to none of the first, each in their order. -/
def FirstThenSecond (vs ws us : List Value) : Prop :=
  ∃ kept added, us = kept ++ added ∧ kept.Sublist vs ∧ added.Sublist ws ∧
    ∀ w ∈ added, w.memberOf vs = false

theorem setOperation_firstThenSecond (op : BinaryOp) (vs ws : List Value) :
    FirstThenSecond vs ws (setOperation op vs ws) := by
  have honly : ∀ w ∈ ws.filter (fun w => !w.memberOf vs), w.memberOf vs = false := by
    intro w hw
    simpa using (List.mem_filter.mp hw).2
  have hfirst : ∀ us : List Value, us.Sublist vs → FirstThenSecond vs ws us := fun us hus =>
    ⟨us, [], (List.append_nil us).symm, hus, List.nil_sublist ws, List.forall_mem_nil _⟩
  have hboth : ∀ us : List Value, us.Sublist vs →
      FirstThenSecond vs ws (us ++ ws.filter fun w => !w.memberOf vs) := fun us hus =>
    ⟨us, _, rfl, hus, List.filter_sublist, honly⟩
  unfold setOperation
  split
  · exact hfirst _ List.filter_sublist
  · exact hboth vs (List.Sublist.refl vs)
  · exact hboth _ List.filter_sublist
  · exact hfirst _ List.filter_sublist

section Elements

variable {vs ws : List Value} (hvs : Elements vs) (hws : Elements ws)
include hvs hws

theorem setOperation_elements (op : BinaryOp) : Elements (setOperation op vs ws) := by
  refine ⟨setOperation_distinct op hvs.distinct hws.distinct, fun u hu => ?_⟩
  obtain ⟨kept, added, hsplit, hkept, hadded, -⟩ := setOperation_firstThenSecond op vs ws
  rw [hsplit] at hu
  rcases List.mem_append.mp hu with hu | hu
  · exact hvs.keys u (hkept.subset hu)
  · exact hws.keys u (hadded.subset hu)

theorem union_comm :
    (Value.set (setOperation .bitOr vs ws)).eq (.set (setOperation .bitOr ws vs)) = true := by
  rw [set_eq_iff (setOperation_elements hvs hws _) (setOperation_elements hws hvs _)]
  intro k hk
  rw [memberOf_union hk hvs.keys hws.keys, memberOf_union hk hws.keys hvs.keys, Bool.or_comm]

theorem intersection_comm :
    (Value.set (setOperation .bitAnd vs ws)).eq (.set (setOperation .bitAnd ws vs)) = true := by
  rw [set_eq_iff (setOperation_elements hvs hws _) (setOperation_elements hws hvs _)]
  intro k hk
  rw [memberOf_intersection hk hvs.keys hws.keys, memberOf_intersection hk hws.keys hvs.keys,
    Bool.and_comm]

/-- The symmetric difference is the union of the two differences. -/
theorem symmetricDifference_eq :
    (Value.set (setOperation .bitXor vs ws)).eq
      (.set (setOperation .bitOr (setOperation .sub vs ws) (setOperation .sub ws vs))) = true := by
  have hleft := setOperation_elements hvs hws .sub
  have hright := setOperation_elements hws hvs .sub
  rw [set_eq_iff (setOperation_elements hvs hws _) (setOperation_elements hleft hright _)]
  intro k hk
  rw [memberOf_symmetricDifference hk hvs.keys hws.keys,
    memberOf_union hk hleft.keys hright.keys, memberOf_difference hk hvs.keys hws.keys,
    memberOf_difference hk hws.keys hvs.keys]
  cases k.memberOf vs <;> cases k.memberOf ws <;> rfl

/-- What two sets share is counted twice. -/
theorem length_union_add_length_intersection :
    (setOperation .bitOr vs ws).length + (setOperation .bitAnd vs ws).length =
      vs.length + ws.length := by
  have hshared : (setOperation .bitAnd vs ws).length = (setOperation .bitAnd ws vs).length :=
    (Value.set_eq_iff_alike.mp (intersection_comm hvs hws)).1
  have hparts : (ws.filter fun w => w.memberOf vs).length +
      (ws.filter fun w => !w.memberOf vs).length = ws.length :=
    (List.length_eq_length_filter_add _).symm
  rw [hshared]
  change (vs ++ ws.filter fun w => !w.memberOf vs).length +
    (ws.filter fun w => w.memberOf vs).length = _
  rw [List.length_append]
  omega

end Elements

/-! ### Set algebra -/

/-- **The operators of sets implement set algebra**, on well-formed sets without floats: what is in
a result is decided by what is in the operands, the laws of commutation and of counting hold, and
the elements of the first operand come first, and stand for equal ones of the second. -/
theorem set_algebra {vs ws : List Value} (hvs : (Value.set vs).WellFormed)
    (hws : (Value.set ws).WellFormed) (hvsFree : (Value.set vs).FloatFree)
    (hwsFree : (Value.set ws).FloatFree) :
    (∀ op us us', isSetOperator op = true →
      binary op (.set us) (.set us') = .ok (.set (setOperation op us us'))) ∧
    (∀ x : Value, x.isHashable = true → x.FloatFree →
      ((Value.set (setOperation .bitOr vs ws)).Has x ↔
        (Value.set vs).Has x ∨ (Value.set ws).Has x) ∧
      ((Value.set (setOperation .bitAnd vs ws)).Has x ↔
        (Value.set vs).Has x ∧ (Value.set ws).Has x) ∧
      ((Value.set (setOperation .sub vs ws)).Has x ↔
        (Value.set vs).Has x ∧ ¬ (Value.set ws).Has x) ∧
      ((Value.set (setOperation .bitXor vs ws)).Has x ↔
        Xor ((Value.set vs).Has x) ((Value.set ws).Has x))) ∧
    (Value.set (setOperation .bitOr vs ws)).eq (.set (setOperation .bitOr ws vs)) = true ∧
    (Value.set (setOperation .bitAnd vs ws)).eq (.set (setOperation .bitAnd ws vs)) = true ∧
    (Value.set (setOperation .bitXor vs ws)).eq
      (.set (setOperation .bitOr (setOperation .sub vs ws) (setOperation .sub ws vs))) = true ∧
    (setOperation .bitOr vs ws).length + (setOperation .bitAnd vs ws).length =
      vs.length + ws.length ∧
    ∀ op, FirstThenSecond vs ws (setOperation op vs ws) := by
  have hvs' := Elements.of_set hvs hvsFree
  have hws' := Elements.of_set hws hwsFree
  refine ⟨fun op us us' hop => binary_set_eq hop us us', fun x hhash hfree => ?_,
    union_comm hvs' hws', intersection_comm hvs' hws', symmetricDifference_eq hvs' hws',
    length_union_add_length_intersection hvs' hws',
    fun op => setOperation_firstThenSecond op vs ws⟩
  have hx : x.IsKey := ⟨hhash, hfree⟩
  simp only [Value.has_set_iff hhash]
  rw [memberOf_union hx hvs'.keys hws'.keys, memberOf_intersection hx hvs'.keys hws'.keys,
    memberOf_difference hx hvs'.keys hws'.keys,
    memberOf_symmetricDifference hx hvs'.keys hws'.keys]
  cases x.memberOf vs <;> cases x.memberOf ws <;> simp [Xor]

/-- `{1, "a", (True, None)}` and `{(1, None), True, 2}` share `1` and the pair. -/
theorem set_algebra_mixed :
    let vs : List Value := [.int 1, .str "a", .tuple [.bool true, .none]]
    let ws : List Value := [.tuple [.int 1, .none], .bool true, .int 2]
    (Value.set vs).WellFormed ∧ (Value.set ws).WellFormed ∧
      (Value.set vs).FloatFree ∧ (Value.set ws).FloatFree ∧
      binary .bitOr (.set vs) (.set ws) = .ok (.set (vs ++ [.int 2])) ∧
      (Value.set vs).eq (.set ws) = false ∧
      (Value.set (vs ++ [.int 2])).eq (.set (ws ++ [.str "a"])) = true := by
  intro vs ws
  have hvs : (Value.set vs).WellFormed :=
    .set ⟨by simp [vs, Value.isHashable, Value.allHashable], by decide +kernel⟩
  have hws : (Value.set ws).WellFormed :=
    .set ⟨by simp [ws, Value.isHashable, Value.allHashable], by decide +kernel⟩
  have hvsFree : (Value.set vs).FloatFree := by
    simp [vs, Value.FloatFree, Value.numbers, Value.numbersAll]
  have hwsFree : (Value.set ws).FloatFree := by
    simp [ws, Value.FloatFree, Value.numbers, Value.numbersAll]
  obtain ⟨hbinary, -, hcomm, -⟩ := set_algebra hvs hws hvsFree hwsFree
  exact ⟨hvs, hws, hvsFree, hwsFree, hbinary .bitOr vs ws rfl, by decide +kernel, hcomm⟩

end Operators

end SafeExpr
