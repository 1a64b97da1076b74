/-
  SafeExpr/Proofs/Except.lean
  ===========================
  **Computations that may fail, one after the other.**

  When two steps in sequence succeed, when they fail, and what changes nothing about the
  success of a single one.  `Satisfies` says what holds of the value or of the error that a
  computation comes to, and follows its steps.  `FailsWith` says of a computation when it fails
  and with what, without the order of its steps.
-/

namespace Except

variable {α β ε ε' : Type}

theorem bind_eq_ok_iff {m : Except ε α} {k : α → Except ε β} {b : β} :
    (m >>= k) = .ok b ↔ ∃ a, m = .ok a ∧ k a = .ok b := by
  cases m with
  | error x =>
    constructor
    · intro h
      cases h
    · rintro ⟨a, ha, -⟩
      cases ha
  | ok a =>
    constructor
    · intro h
      exact ⟨a, rfl, h⟩
    · rintro ⟨a', ha, h⟩
      cases ha
      exact h

theorem bind_eq_error_iff {m : Except ε α} {k : α → Except ε β} {x : ε} :
    (m >>= k) = .error x ↔ m = .error x ∨ ∃ a, m = .ok a ∧ k a = .error x := by
  cases m with
  | error y =>
    constructor
    · intro h
      cases h
      exact Or.inl rfl
    · rintro (h | ⟨a, ha, -⟩)
      · cases h
        rfl
      · cases ha
  | ok a =>
    constructor
    · intro h
      exact Or.inr ⟨a, rfl, h⟩
    · rintro (h | ⟨a', ha, h⟩)
      · cases h
      · cases ha
        exact h

/-- What follows a step matters only where the step succeeds. -/
theorem bind_congr_of_ok {m : Except ε α} {k k' : α → Except ε β}
    (h : ∀ a, m = .ok a → k a = k' a) : (m >>= k) = (m >>= k') := by
  cases m with
  | error x => rfl
  | ok a => exact h a rfl

theorem mapError_eq_ok_iff {m : Except ε α} {f : ε → ε'} {a : α} :
    m.mapError f = .ok a ↔ m = .ok a := by
  cases m with
  | error x =>
    constructor
    · intro h
      cases h
    · intro h
      cases h
  | ok b =>
    constructor
    · intro h
      cases h
      rfl
    · intro h
      cases h
      rfl

theorem toOption_eq_some_iff {m : Except ε α} {a : α} : m.toOption = some a ↔ m = .ok a := by
  cases m <;> simp [Except.toOption]

/-! ### Properties of the outcome -/

/-- The value has the one property, or the error has the other. -/
def Satisfies (P : α → Prop) (E : ε → Prop) : Except ε α → Prop
  | .ok a => P a
  | .error x => E x

/-- The value has the property, if there is one. -/
abbrev Ensures (P : α → Prop) (m : Except ε α) : Prop := m.Satisfies P fun _ => True

section Outcome

variable {m : Except ε α} {P P' : α → Prop} {Q : β → Prop} {E : ε → Prop}

@[simp] theorem satisfies_ok {a : α} : (ok a : Except ε α).Satisfies P E ↔ P a := Iff.rfl

@[simp] theorem satisfies_error {x : ε} : (error x : Except ε α).Satisfies P E ↔ E x := Iff.rfl

theorem Satisfies.of_ok {a : α} (h : m.Satisfies P E) (hm : m = .ok a) : P a := by
  subst hm
  exact h

theorem Satisfies.of_error {x : ε} (h : m.Satisfies P E) (hm : m = .error x) : E x := by
  subst hm
  exact h

theorem Satisfies.imp (h : m.Satisfies P E) (himp : ∀ a, P a → P' a) : m.Satisfies P' E := by
  cases m with
  | ok a => exact himp a h
  | error x => exact h

theorem Satisfies.bind {k : α → Except ε β} (hm : m.Satisfies P E)
    (hk : ∀ a, P a → (k a).Satisfies Q E) : (m >>= k).Satisfies Q E := by
  cases m with
  | ok a => exact hk a hm
  | error x => exact hm

theorem Satisfies.map {f : α → β} (hm : m.Satisfies P E) (hf : ∀ a, P a → Q (f a)) :
    (m.map f).Satisfies Q E := by
  cases m with
  | ok a => exact hf a hm
  | error x => exact hm

/-- A first step of which nothing is known. -/
theorem Ensures.then {k : α → Except ε β} (hk : ∀ a, (k a).Ensures Q) :
    (m >>= k).Ensures Q := by
  cases m with
  | ok a => exact hk a
  | error x => trivial

end Outcome

/-! ### What a computation may fail with -/

/-- The error, if there is one. -/
def errors : Except ε α → List ε
  | .ok _ => []
  | .error x => [x]

theorem errors_eq_singleton_iff {m : Except ε α} {x : ε} : m.errors = [x] ↔ m = .error x := by
  cases m <;> simp [errors]

/-- The computation fails with one of these errors, or succeeds where there are none. -/
inductive FailsWith : Except ε α → List ε → Prop
  | ok {a : α} : FailsWith (.ok a) []
  | error {x : ε} {xs : List ε} (h : x ∈ xs) : FailsWith (.error x) xs

section FailsWith

variable {m : Except ε α} {xs ys : List ε}

@[simp] theorem failsWith_ok {a : α} : (ok a : Except ε α).FailsWith xs ↔ xs = [] := by
  constructor
  · rintro ⟨⟩
    rfl
  · rintro rfl
    exact .ok

@[simp] theorem failsWith_error {x : ε} : (error x : Except ε α).FailsWith xs ↔ x ∈ xs := by
  constructor
  · rintro ⟨⟩
    assumption
  · exact .error

theorem failsWith_errors (m : Except ε α) : m.FailsWith m.errors := by
  cases m with
  | ok a => exact .ok
  | error x => exact .error (List.mem_singleton_self x)

/-- Where there are errors, one of them comes about. -/
theorem FailsWith.exists_error (h : m.FailsWith xs) {x : ε} (hx : x ∈ xs) :
    ∃ y ∈ xs, m = .error y := by
  cases h with
  | ok => cases hx
  | error hy => exact ⟨_, hy, rfl⟩

/-- It does not matter in which order the errors are listed. -/
theorem FailsWith.congr (h : m.FailsWith xs) (heq : ∀ x, x ∈ xs ↔ x ∈ ys) : m.FailsWith ys := by
  cases h with
  | ok =>
    rw [failsWith_ok]
    exact List.eq_nil_iff_forall_not_mem.mpr fun x hx => by simpa using (heq x).mpr hx
  | error hx => exact .error ((heq _).mp hx)

theorem FailsWith.map (h : m.FailsWith xs) (f : α → β) : (m.map f).FailsWith xs := by
  cases h with
  | ok => exact .ok
  | error hx => exact .error hx

/-- The errors of a step, and those of what follows it. -/
theorem FailsWith.bind {k : α → Except ε β} (hm : m.FailsWith xs)
    (hk : ∀ a, (k a).FailsWith ys) : (m >>= k).FailsWith (xs ++ ys) := by
  cases hm with
  | ok => exact hk _
  | error hx => exact .error (List.mem_append_left ys hx)

/-- A step that only puts together what the last one has given. -/
theorem FailsWith.bind_pure {k : α → Except ε β} (hm : m.FailsWith xs)
    (hk : ∀ a, ∃ b, k a = .ok b) : (m >>= k).FailsWith xs := by
  cases hm with
  | @ok a =>
    obtain ⟨b, hb⟩ := hk a
    change (k a).FailsWith []
    rw [hb]
    exact .ok
  | error hx => exact .error hx

end FailsWith

end Except
