/-
  SafeExpr/Proofs/Machine/Limit.lean
  ==================================
  **The limits on nesting on a machine.**

  Three counters keep track of how deep things are: one of the open brackets, one of the
  levels above a matched node, and one of the levels above a node of the tree.  None of them
  gets larger than the text has bytes.
-/
import SafeExpr.Proofs.Machine.Literal
import SafeExpr.Proofs.Parse.Limit

namespace SafeExpr.Machine

/-! ### Definitions -/

/-- Goes through the characters, the first of them at byte `pos`, and refuses the first
    bracket that opens beyond the limit. -/
def scan (maxDepth : Nat) : Region → Nat → Nat → List Char → Reading Unit
  | _, _, _, [] => return ()
  | .quoted _, _, _, ['\\'] => return ()
  | .quoted q, depth, pos, '\\' :: c :: rest =>
    scan maxDepth (.quoted q) depth (pos + 1 + c.utf8Size) rest
  | .quoted q, depth, pos, c :: rest =>
    scan maxDepth (if c = '\n' || c = q then .code else .quoted q) depth (pos + c.utf8Size) rest
  | .comment, depth, pos, c :: rest =>
    scan maxDepth (if c = '\n' then .code else .comment) depth (pos + c.utf8Size) rest
  | .code, depth, pos, c :: rest =>
    if isOpening c then do
      let depth ← addSize depth 1
      if maxDepth < depth then do
        let stop ← addSize pos 1
        throw ⟨.maxDepthExceeded depth maxDepth, ⟨pos, stop⟩⟩
      else scan maxDepth .code depth (pos + 1) rest
    else
      let region : Region :=
        if c = '"' || c = '\'' then .quoted c else if c = '#' then .comment else .code
      scan maxDepth region (if isClosing c then depth - 1 else depth) (pos + c.utf8Size) rest

/-- The levels that a node may add to the tree. -/
def addedLevels (rule : Rule) (children : List (Tree Rule)) : Checked Nat :=
  match rule with
  | .expression => addSize 1 (children.filter (·.rule.isOperator)).length
  | _ => return ownLevels rule children

mutual

/-- Refuses the first node that may lie below the limit. -/
def checkOperators (maxDepth above : Nat) : Tree Rule → Reading Unit
  | .leaf rule span _ => do
    let depth ← addSize above (← addedLevels rule [])
    settled (checkLevel maxDepth depth span)
  | .node rule span children => do
    let depth ← addSize above (← addedLevels rule children)
    settled (checkLevel maxDepth depth span)
    checkOperatorsAll maxDepth depth children

def checkOperatorsAll (maxDepth above : Nat) : List (Tree Rule) → Reading Unit
  | [] => return ()
  | t :: rest => do
    checkOperators maxDepth above t
    checkOperatorsAll maxDepth above rest

end

/-- The nodes of the trees on a stack. -/
def pendingNodes (stack : List (Expr × Nat)) : Nat :=
  (stack.flatMap fun (e, _) => e.nodes).length

theorem pendingNodes_append (stack stack' : List (Expr × Nat)) :
    pendingNodes (stack ++ stack') = pendingNodes stack + pendingNodes stack' := by
  rw [pendingNodes, List.flatMap_append, List.length_append]
  rfl

theorem pendingNodes_cons (e : Expr) (level : Nat) (stack : List (Expr × Nat)) :
    pendingNodes ((e, level) :: stack) = e.nodes.length + pendingNodes stack := by
  rw [pendingNodes, List.flatMap_cons, List.length_append]
  rfl

/-- The children of a node, the last one first. -/
theorem pendingNodes_children (e : Expr) (d : Nat) :
    pendingNodes ((e.children.map (·, d)).reverse) + 1 = e.nodes.length := by
  have hmap : (e.children.map (·, d)).flatMap (fun (c, _) => c.nodes) =
      e.children.flatMap Expr.nodes := by
    rw [List.flatMap_map]
  rw [pendingNodes, Expr.nodes_eq, List.length_cons, ← hmap, List.length_flatMap,
    List.length_flatMap, List.map_reverse, List.sum_reverse]

/-- The level of the children of a node, where there are any. -/
def levelBelow (e : Expr) (level : Nat) : Checked Nat :=
  if e.children.isEmpty then return level else addSize level 1

/-- The height of the trees on a stack, each with its level. -/
def heightLoop (height : Nat) : List (Expr × Nat) → Checked Nat
  | [] => return height
  | (e, level) :: stack => do
    let below ← levelBelow e level
    heightLoop (max height level) ((e.children.map (·, below)).reverse ++ stack)
termination_by stack => pendingNodes stack
decreasing_by
  have := pendingNodes_children e below
  rw [pendingNodes_append, pendingNodes_cons]
  omega

def height (e : Expr) : Checked Nat := heightLoop 0 [(e, 1)]

/-! ### Brackets -/

/-- Refuses the first bracket beyond the limit. -/
def refuseOver (maxDepth : Nat) (brackets : List (Nat × Nat)) : Except ParseError Unit :=
  match brackets.find? fun (_, depth) => maxDepth < depth with
  | some (pos, depth) => .error ⟨.maxDepthExceeded depth maxDepth, ⟨pos, pos + 1⟩⟩
  | none => .ok ()

/-- **There are never more open brackets than bytes.** -/
theorem scan_eq (maxDepth : Nat) (region : Region) (depth pos : Nat) (cs : List Char)
    (hdepth : depth ≤ pos) (hsize : pos + byteLength cs ≤ maxSize) :
    scan maxDepth region depth pos cs =
      settled (refuseOver maxDepth (openings region depth pos cs)) := by
  fun_induction openings region depth pos cs with
  | case1 region depth pos =>
    rw [scan]
    rfl
  | case2 q depth pos =>
    rw [scan]
    rfl
  | case3 q depth pos c rest ih =>
    rw [byteLength_cons, byteLength_cons] at hsize
    change pos + (1 + (c.utf8Size + byteLength rest)) ≤ maxSize at hsize
    rw [scan]
    exact ih (by omega) (by omega)
  | case4 q depth pos c rest hlast hescape ih =>
    rw [byteLength_cons] at hsize
    rw [scan]
    · exact ih (by omega) (by omega)
    · exact hlast
    · exact hescape
  | case5 depth pos c rest ih =>
    rw [byteLength_cons] at hsize
    rw [scan]
    exact ih (by omega) (by omega)
  | case6 depth pos c rest hopening ih =>
    have hc := c.utf8Size_pos
    rw [byteLength_cons] at hsize
    have hdeeper : addSize depth 1 = .ok (depth + 1) := addSize_eq (by omega)
    have hstop : addSize pos 1 = .ok (pos + 1) := addSize_eq (by omega)
    rw [scan, if_pos hopening]
    simp only [hdeeper, hstop, lift_ok, pure_bind]
    by_cases hover : maxDepth < depth + 1
    · rw [if_pos hover, refuseOver, List.find?_cons_of_pos (by simpa using hover)]
      rfl
    · rw [if_neg hover, ih (by omega) (by omega), refuseOver, refuseOver,
        List.find?_cons_of_neg (by simpa using hover)]
  | case7 depth pos c rest hopening region ih =>
    rw [byteLength_cons] at hsize
    rw [scan, if_neg hopening]
    exact ih (by split <;> omega) (by omega)

/-! ### Operators -/

theorem addedLevels_eq {rule : Rule} {children : List (Tree Rule)}
    (hsize : ownLevels rule children ≤ maxSize) :
    addedLevels rule children = .ok (ownLevels rule children) := by
  unfold addedLevels
  split
  · exact addSize_eq hsize
  · rfl

mutual

theorem checkOperators_eq (maxDepth : Nat) {above : Nat} (t : Tree Rule)
    (hsize : above + levels t ≤ maxSize) :
    checkOperators maxDepth above t = settled (SafeExpr.checkOperators maxDepth above t) := by
  cases t with
  | leaf r span text =>
    rw [levels] at hsize
    have hown : addedLevels r [] = .ok _ := addedLevels_eq (by omega)
    have hdepth : addSize above (ownLevels r []) = .ok _ := addSize_eq hsize
    rw [checkOperators, SafeExpr.checkOperators]
    simp only [hown, hdepth, lift_ok, pure_bind]
  | node r span ts =>
    rw [levels] at hsize
    have hown : addedLevels r ts = .ok _ := addedLevels_eq (by omega)
    have hdepth : addSize above (ownLevels r ts) = .ok _ := addSize_eq (by omega)
    rw [checkOperators, SafeExpr.checkOperators]
    simp only [hown, hdepth, lift_ok, pure_bind]
    exact settled_bind fun _ _ => checkOperatorsAll_eq maxDepth ts (by omega)

theorem checkOperatorsAll_eq (maxDepth : Nat) {above : Nat} (ts : List (Tree Rule))
    (hsize : above + levelsAll ts ≤ maxSize) :
    checkOperatorsAll maxDepth above ts =
      settled (SafeExpr.checkOperatorsAll maxDepth above ts) := by
  cases ts with
  | nil =>
    rw [checkOperatorsAll, SafeExpr.checkOperatorsAll]
    rfl
  | cons t rest =>
    rw [levelsAll] at hsize
    rw [checkOperatorsAll, SafeExpr.checkOperatorsAll, checkOperators_eq maxDepth t (by omega)]
    exact settled_bind fun _ _ => checkOperatorsAll_eq maxDepth rest (by omega)

end

/-! ### The height of a tree -/

/-- The height of what is on a stack, with the levels above. -/
def pendingHeight (height : Nat) (stack : List (Expr × Nat)) : Nat :=
  (stack.map fun (e, level) => level - 1 + e.depth).foldr max height

theorem pendingHeight_le_iff {height k : Nat} {stack : List (Expr × Nat)} :
    pendingHeight height stack ≤ k ↔ height ≤ k ∧ ∀ p ∈ stack, p.2 - 1 + p.1.depth ≤ k := by
  induction stack with
  | nil => simp [pendingHeight]
  | cons p stack ih =>
    change max (p.2 - 1 + p.1.depth) (pendingHeight height stack) ≤ k ↔ _
    rw [Nat.max_le, ih, List.forall_mem_cons, and_left_comm]

/-- A node below others reaches as far as its children, or as itself. -/
theorem level_add_depth_le_iff {e : Expr} {level k : Nat} (hlevel : 1 ≤ level) :
    level - 1 + e.depth ≤ k ↔ level ≤ k ∧ ∀ c ∈ e.children, level + c.depth ≤ k := by
  rw [Expr.depth_eq, ← Nat.add_assoc, Nat.sub_add_cancel hlevel]
  constructor
  · intro h
    have hbelow := foldr_max_le_iff.mp (Nat.le_sub_of_add_le' h)
    rw [List.forall_mem_map] at hbelow
    exact ⟨by omega, fun c hc => Nat.add_le_of_le_sub' (by omega) (hbelow c hc)⟩
  · rintro ⟨hself, hbelow⟩
    refine Nat.add_le_of_le_sub' hself (foldr_max_le_iff.mpr ?_)
    rw [List.forall_mem_map]
    exact fun c hc => Nat.le_sub_of_add_le' (hbelow c hc)

/-- A node is replaced by its children, one level below it. -/
theorem pendingHeight_step {e : Expr} {level : Nat} (hlevel : 1 ≤ level) (height : Nat)
    (stack : List (Expr × Nat)) :
    pendingHeight (max height level) ((e.children.map (·, level + 1)).reverse ++ stack) =
      pendingHeight height ((e, level) :: stack) := by
  have hiff : ∀ k,
      pendingHeight (max height level) ((e.children.map (·, level + 1)).reverse ++ stack) ≤ k ↔
        pendingHeight height ((e, level) :: stack) ≤ k := by
    intro k
    rw [pendingHeight_le_iff, pendingHeight_le_iff, List.forall_mem_append, List.forall_mem_cons,
      level_add_depth_le_iff hlevel, Nat.max_le]
    simp only [List.mem_reverse, List.forall_mem_map, Nat.add_sub_cancel]
    exact ⟨fun h => ⟨h.1.1, ⟨h.1.2, h.2.1⟩, h.2.2⟩, fun h => ⟨⟨h.1, h.2.1.1⟩, h.2.1.2, h.2.2⟩⟩
  exact Nat.le_antisymm ((hiff _).mpr (Nat.le_refl _)) ((hiff _).mp (Nat.le_refl _))

theorem heightLoop_eq (height : Nat) (stack : List (Expr × Nat))
    (hlevels : ∀ p ∈ stack, 1 ≤ p.2 ∧ p.2 - 1 + p.1.depth ≤ maxSize) :
    heightLoop height stack = .ok (pendingHeight height stack) := by
  fun_induction heightLoop height stack with
  | case1 height => rfl
  | case2 height e level stack ih =>
    obtain ⟨⟨hlevel, hsize⟩, hstack⟩ := List.forall_mem_cons.mp hlevels
    obtain ⟨hself, hbelow⟩ := (level_add_depth_le_iff hlevel).mp hsize
    rw [← pendingHeight_step hlevel]
    by_cases hleaf : e.children = []
    · have hlevelBelow : levelBelow e level = .ok level := by
        rw [levelBelow, hleaf]
        rfl
      rw [hlevelBelow, hleaf]
      have := ih level
      rw [hleaf] at this
      exact this hstack
    · have hlevelBelow : levelBelow e level = .ok (level + 1) := by
        obtain ⟨c, hc⟩ := List.exists_mem_of_ne_nil _ hleaf
        have hle := hbelow c hc
        rw [Expr.depth_eq] at hle
        rw [levelBelow, List.isEmpty_eq_false_iff.mpr hleaf]
        exact addSize_eq (by omega)
      rw [hlevelBelow]
      refine ih (level + 1) ?_
      rw [List.forall_mem_append]
      simp only [List.mem_reverse, List.forall_mem_map, Nat.add_sub_cancel]
      exact ⟨fun c hc => ⟨Nat.le_add_left 1 level, hbelow c hc⟩, hstack⟩

theorem height_eq {e : Expr} (hsize : e.depth ≤ maxSize) : height e = .ok e.depth := by
  rw [height, heightLoop_eq]
  · simp [pendingHeight]
  · rw [List.forall_mem_singleton]
    exact ⟨Nat.le_refl 1, by rwa [Nat.sub_self, Nat.zero_add]⟩

end SafeExpr.Machine
