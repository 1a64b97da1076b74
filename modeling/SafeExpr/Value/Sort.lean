/-
  SafeExpr/Value/Sort.lean
  ========================
  **Stable sorting with a comparison that may fail.**

  `less x y` says whether `x` goes strictly before `y`, or fails; the first failure ends
  the sort.  Short lists are sorted by insertion.  Longer ones are cut into runs, which
  are as they should be or the other way round, and the runs are merged pairwise.  Both
  keep items in their order of input unless one is strictly before the other.
-/
import SafeExpr.Value.Basic

namespace SafeExpr.Sort

variable {α ε : Type} (less : α → α → Except ε Bool)

/-! ### Insertion -/

/-- Inserts `x` into a list that is sorted from the greatest item down: behind the items
    that `x` is not before. -/
def insertDown (x : α) : List α → Except ε (List α)
  | [] => .ok [x]
  | y :: ys =>
    match less x y with
    | .ok true => (y :: ·) <$> insertDown x ys
    | .ok false => .ok (x :: y :: ys)
    | .error e => .error e

/-- Inserts the items one after the other into `sorted`, which is sorted from the
    greatest item down. -/
def insertAll (sorted : List α) : List α → Except ε (List α)
  | [] => .ok sorted.reverse
  | x :: xs =>
    match insertDown less x sorted with
    | .ok sorted => insertAll sorted xs
    | .error e => .error e

/-! ### Runs and merging -/

/-- The items that go on the run whose last item is `last`, in reverse behind `run`, and
    those after them.  A run goes on while each item is strictly before the last one
    (`falling`), or while none is. -/
def takeRun (falling : Bool) (last : α) (run : List α) : List α → Except ε (List α × List α)
  | [] => .ok (run, [])
  | x :: xs =>
    match less x last with
    | .ok b => if b = falling then takeRun falling x (x :: run) xs else .ok (run, x :: xs)
    | .error e => .error e

/-- The runs of a list, each sorted; `fuel` is the length of the list. -/
def runs (found : List (List α)) : Nat → List α → Except ε (List (List α))
  | 0, _ | _, [] => .ok found.reverse
  | _, [x] => .ok ([x] :: found).reverse
  | fuel + 1, x :: y :: rest =>
    match less y x with
    | .ok falling =>
      match takeRun less falling y [y, x] rest with
      | .ok (run, rest) => runs ((if falling then run else run.reverse) :: found) fuel rest
      | .error e => .error e
    | .error e => .error e

/-- Merges two sorted lists behind `merged`, which is reversed; `fuel` is their length
    together.  An item of the second list goes first only if it is strictly before. -/
def mergeOnto (merged : List α) : Nat → List α → List α → Except ε (List α)
  | _, [], ys => .ok (merged.reverse ++ ys)
  | _, xs, [] => .ok (merged.reverse ++ xs)
  | 0, xs, ys => .ok (merged.reverse ++ xs ++ ys)
  | fuel + 1, x :: xs, y :: ys =>
    match less y x with
    | .ok true => mergeOnto (y :: merged) fuel (x :: xs) ys
    | .ok false => mergeOnto (x :: merged) fuel xs (y :: ys)
    | .error e => .error e

def merge (xs ys : List α) : Except ε (List α) :=
  mergeOnto less [] (xs.length + ys.length) xs ys

/-- Merges neighbouring lists. -/
def mergePairs (merged : List (List α)) : List (List α) → Except ε (List (List α))
  | xs :: ys :: rest =>
    match merge less xs ys with
    | .ok zs => mergePairs (zs :: merged) rest
    | .error e => .error e
  | [xs] => .ok (xs :: merged).reverse
  | [] => .ok merged.reverse

/-- Merges neighbouring lists until one is left; `fuel` is the number of lists. -/
def mergeAll : Nat → List (List α) → Except ε (List α)
  | 0, lists => .ok lists.flatten
  | _, [] => .ok []
  | _, [xs] => .ok xs
  | fuel + 1, lists =>
    match mergePairs less [] lists with
    | .ok lists => mergeAll fuel lists
    | .error e => .error e

/-! ### Sorting -/

/-- Lists up to this length are sorted by insertion. -/
def insertionLimit : Nat := 20

/-- The items, each behind those that it is not strictly before. -/
def sort (items : List α) : Except ε (List α) :=
  if items.length ≤ insertionLimit then insertAll less [] items
  else
    match runs less [] items.length items with
    | .ok found => mergeAll less found.length found
    | .error e => .error e

end SafeExpr.Sort
