/-
  SafeExpr/Namespace/Table.lean
  =============================
  **Finite maps from names.**

  A `Table` lists each name once, with what it is bound to.  Binding a name again
  replaces what it was bound to.
-/

namespace SafeExpr

structure Table (α : Type) where
  entries : List (String × α) := []

namespace Table

variable {α : Type}

/-- What the first entry of a name binds it to. -/
def find? (name : String) : List (String × α) → Option α
  | [] => none
  | (n, v) :: rest => if n = name then some v else find? name rest

def get? (t : Table α) (name : String) : Option α := find? name t.entries

def contains (t : Table α) (name : String) : Bool := (t.get? name).isSome

def size (t : Table α) : Nat := t.entries.length

def isEmpty (t : Table α) : Bool := t.entries.isEmpty

/-- Puts a binding in the place of one of the same name, or at the end. -/
def put (name : String) (value : α) : List (String × α) → List (String × α)
  | [] => [(name, value)]
  | (n, v) :: rest => if n = name then (name, value) :: rest else (n, v) :: put name value rest

def insert (t : Table α) (name : String) (value : α) : Table α :=
  ⟨put name value t.entries⟩

/-- Binds the names in order; of several bindings of one name the last counts. -/
def ofList (bindings : List (String × α)) : Table α :=
  bindings.foldl (fun t (name, value) => t.insert name value) {}

/-- The names, sorted by code points. -/
def names (t : Table α) : List String :=
  (t.entries.map Prod.fst).mergeSort fun a b => a ≤ b

theorem find?_put (name : String) (value : α) (entries : List (String × α)) (n : String) :
    find? n (put name value entries) = if n = name then some value else find? n entries := by
  induction entries with
  | nil => grind [put, find?]
  | cons e rest ih => grind [put, find?]

theorem get?_insert (t : Table α) (name : String) (value : α) (n : String) :
    (t.insert name value).get? n = if n = name then some value else t.get? n :=
  find?_put name value t.entries n

end Table

end SafeExpr
