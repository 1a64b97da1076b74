/-
  SafeExpr/Proofs/Json/WellFormed.lean
  ====================================
  **Values from JSON text are well-formed.**

  The keys of an object are strings, and its entries become a dict by way of `mkDict`, so a
  name that comes twice does no harm.
-/
import SafeExpr.Json.Read
import SafeExpr.Proofs.Value.WellFormed

namespace SafeExpr

open Value (WellFormed)

namespace JsonText

/-- What is read at the start of a text is well-formed, if anything is read. -/
def ReadsWellFormed (r : Option (Value × List Char)) : Prop :=
  ∀ v rest, r = some (v, rest) → v.WellFormed

theorem ReadsWellFormed.none : ReadsWellFormed .none := by
  intro v rest h
  cases h

theorem ReadsWellFormed.some {v : Value} {rest : List Char} (hv : v.WellFormed) :
    ReadsWellFormed (.some (v, rest)) := by
  intro w rest' h
  cases h
  exact hv

/-- A first step of which nothing is known. -/
theorem ReadsWellFormed.then {α : Type} {o : Option α} {k : α → Option (Value × List Char)}
    (hk : ∀ a, ReadsWellFormed (k a)) : ReadsWellFormed (o >>= k) := by
  cases o with
  | none => exact .none
  | some a => exact hk a

/-- Going on behind a value that was read. -/
theorem ReadsWellFormed.bind {o : Option (Value × List Char)}
    {k : Value × List Char → Option (Value × List Char)} (ho : ReadsWellFormed o)
    (hk : ∀ v rest, v.WellFormed → ReadsWellFormed (k (v, rest))) :
    ReadsWellFormed (o >>= k) := by
  cases o with
  | none => exact .none
  | some r => exact hk r.1 r.2 (ho r.1 r.2 rfl)

theorem wellFormed_of_dictOf? {es : List (Value × Value)} {v : Value}
    (hes : ∀ e ∈ es, e.2.WellFormed) (h : dictOf? es = some v) : v.WellFormed := by
  have hmk := Except.toOption_eq_some_iff.mp h
  exact Value.wellFormed_mkDict (fun e he => hes e (List.mem_reverse.mp he)) hmk

theorem wellFormed_of_number {t : NumberText} {v : Value} (h : t.value? = some v) :
    v.WellFormed := by
  have hsigned : ∀ b x, (signed b x).WellFormed := fun _ _ => .float _
  unfold NumberText.value? at h
  dsimp only at h
  split at h
  · split at h
    · cases h
      split
      · exact hsigned _ _
      · exact .int _
    · cases h
      exact hsigned _ _
  · obtain ⟨x, -, rfl⟩ := Option.map_eq_some_iff.mp h
    exact hsigned _ _

/-- The three readers at once, since they call each other with less fuel. -/
theorem read_wellFormed (fuel : Nat) :
    (∀ nesting cs, ReadsWellFormed (readValue nesting fuel cs)) ∧
    (∀ nesting found cs, (∀ v ∈ found, v.WellFormed) →
      ReadsWellFormed (readItems nesting found fuel cs)) ∧
    (∀ nesting found cs, (∀ e ∈ found, e.2.WellFormed) →
      ReadsWellFormed (readEntries nesting found fuel cs)) := by
  induction fuel with
  | zero =>
    refine ⟨fun _ _ => ?_, fun _ _ _ _ => ?_, fun _ _ _ _ => ?_⟩
    · exact .none
    · exact .none
    · exact .none
  | succ fuel ih =>
    obtain ⟨hvalue, hitems, hentries⟩ := ih
    refine ⟨?_, ?_, ?_⟩
    · intro nesting cs
      unfold readValue
      split
      · exact .then fun _ => .some .none
      · exact .then fun _ => .some (.bool true)
      · exact .then fun _ => .some (.bool false)
      · exact .then fun _ => .some (.str _)
      · split
        · exact .none
        · split
          · exact .some (.list (List.forall_mem_nil _))
          · exact hitems _ _ _ (List.forall_mem_nil _)
      · split
        · exact .none
        · split
          · exact .some (.dict .nil (List.forall_mem_nil _))
          · exact hentries _ _ _ (List.forall_mem_nil _)
      · refine .then fun t => ?_
        intro w rest' h
        obtain ⟨d, hd, h⟩ := Option.bind_eq_some_iff.mp h
        cases h
        exact wellFormed_of_number hd
    · intro nesting found cs hfound
      unfold readItems
      refine (hvalue nesting cs).bind fun v rest hv => ?_
      have hall := List.forall_mem_cons.mpr ⟨hv, hfound⟩
      dsimp only
      split
      · exact hitems _ _ _ hall
      · exact .some (.list fun w hw => hall w (List.mem_reverse.mp hw))
      · exact .none
    · intro nesting found cs hfound
      unfold readEntries
      split
      · refine .then fun key => ?_
        dsimp only
        split
        · refine (hvalue nesting _).bind fun v rest hv => ?_
          have hall : ∀ e ∈ (Value.str (String.ofList key.1), v) :: found, e.2.WellFormed :=
            List.forall_mem_cons.mpr ⟨hv, hfound⟩
          dsimp only
          split
          · exact hentries _ _ _ hall
          · intro w rest' h
            obtain ⟨d, hd, h⟩ := Option.bind_eq_some_iff.mp h
            cases h
            exact wellFormed_of_dictOf? hall hd
          · exact .none
        · exact .none
      · exact .none

end JsonText

open JsonText in
/-- **A value that a JSON text stands for is well-formed.** -/
theorem Value.wellFormed_ofJson {text : String} {v : Value} (h : Value.ofJson? text = some v) :
    v.WellFormed := by
  unfold Value.ofJson? at h
  split at h
  · next w rest hread =>
    split at h
    · cases h
      exact (read_wellFormed _).1 _ _ v rest hread
    · cases h
  · cases h

end SafeExpr
