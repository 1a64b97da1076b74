/-
  SafeExpr/Proofs/Parse/Padded.lean
  =================================
  **Layout in the text behind a statement's word.**

  A statement is not read beyond its first word; only the scan of the brackets goes through what
  follows.  Layout that is inserted where the scan is in code, or behind all of the text where it is
  in a comment, is passed by it and leaves the brackets as they were (`depths_of_padded`).  In quoted
  text that is not so: there the layout is quoted text as well, and may end it.
-/
import SafeExpr.Proofs.Grammar.Layout
import SafeExpr.Proofs.Grammar.Opening
import SafeExpr.Proofs.Parse.Limit
import SafeExpr.Proofs.Parse.Scan

namespace SafeExpr

open Grammar (Layout Gap skipLayout skipComment)

/-- How many brackets are open behind each opening one. -/
def depths (region : Region) (depth pos : Nat) (cs : List Char) : List Nat :=
  (openings region depth pos cs).map Prod.snd

/-- How many are open does not depend on where the text stands. -/
theorem depths_elsewhere (region : Region) (depth pos pos' : Nat) (cs : List Char) :
    depths region depth pos cs = depths region depth pos' cs := by
  unfold depths
  induction region, depth, pos, cs using openings.induct generalizing pos' with
  | case1 region depth pos => rw [openings_nil, openings_nil]
  | case2 => rw [openings, openings]
  | case3 depth pos q c rest ih => rw [openings, openings, ih]
  | case4 depth pos q c rest hlast hescape ih =>
    rw [openings, openings, ih] <;> assumption
  | case5 depth pos c rest ih => rw [openings, openings, ih]
  | case6 depth pos c rest hopen ih =>
    rw [openings, openings, if_pos hopen, if_pos hopen, List.map_cons, List.map_cons, ih]
  | case7 depth pos c rest hopen region ih =>
    rw [openings, openings, if_neg hopen, if_neg hopen]
    exact ih _

/-! ### Layout is passed -/

theorem openings_skip (k pos : Nat) (cs : List Char) :
    openings .code k pos cs = openings .code k (skipLayout pos cs).pos (skipLayout pos cs).rest :=
  (Grammar.scans_skip k _ pos cs (Nat.le_refl _)).1

theorem openings_layout {g : List Char} (hg : Layout g) (depth pos : Nat) (rest : List Char) :
    openings .code depth pos (g ++ rest) = openings .code depth (pos + byteLength g) rest := by
  rw [openings_skip, Grammar.skipLayout_append hg, ← openings_skip]

/-- In a comment that layout goes on with, and behind it, there are no brackets. -/
theorem openings_comment {g : List Char} (hg : Layout g) (depth pos : Nat) :
    openings .comment depth pos g = [] := by
  have hscan : openings .comment depth pos g =
      openings .code depth (skipComment pos g).pos (skipComment pos g).rest :=
    (Grammar.scans_skip depth _ pos g (Nat.le_refl _)).2
  rw [hscan]
  by_cases hline : '\n' ∈ g
  · obtain ⟨front, behind, rfl, hfront⟩ := List.eq_append_cons_of_mem hline
    have hbehind := Grammar.skipLayout_append (hg.of_line hfront) (pos + byteLength front + 1) []
    rw [List.append_nil] at hbehind
    rw [Grammar.skipComment_line hfront, hbehind]
    rfl
  · rw [Grammar.skipComment_end hline]
    rfl

/-! ### Padding -/

/-- From code on, the scan is in the region behind the text. -/
def ScansTo (region : Region) (front : List Char) : Prop :=
  ∀ depth pos, ∃ os depth', ∀ rest, openings .code depth pos (front ++ rest) =
    os ++ openings region depth' (pos + byteLength front) rest

/-- Layout has been inserted where the scan is in code, and behind a comment that ends the text. -/
inductive Padded : List Char → List Char → Prop
  | refl (cs : List Char) : Padded cs cs
  | insert {front back back' g : List Char} (hfront : ScansTo .code front) (hg : Layout g)
    (h : Padded back back') : Padded (front ++ back) (front ++ (g ++ back'))
  | behind {front g : List Char} (hfront : ScansTo .comment front) (hg : Layout g) :
    Padded front (front ++ g)

theorem Padded.wordEnds {cs cs' : List Char} (h : Padded cs cs') (hcs : WordEnds cs) :
    WordEnds cs' := by
  have hgap : ∀ c ∈ Grammar.gapStarts, isWordChar c = false := List.all_iff_forall_prop.mp (by decide)
  have hlayout : ∀ {g rest : List Char}, Layout g → WordEnds rest → WordEnds (g ++ rest) := by
    intro g rest hg hrest
    cases g with
    | nil => exact hrest
    | cons c g => exact Grammar.wordEnds_cons (hgap c (hg.head_mem c rfl)) _
  induction h with
  | refl => exact hcs
  | @insert front back back' g _ hg _ ih =>
    cases front with
    | nil =>
      have hends : WordEnds (g ++ back') := hlayout hg (ih hcs)
      exact hends
    | cons c front => exact Grammar.wordEnds_cons (hcs c rfl) _
  | @behind front g _ hg =>
    cases front with
    | nil =>
      have hends : WordEnds (g ++ []) := hlayout hg hcs
      rwa [List.append_nil] at hends
    | cons c front => exact Grammar.wordEnds_cons (hcs c rfl) _

/-- **Padding leaves the brackets as they were.** -/
theorem depths_of_padded {cs cs' : List Char} (h : Padded cs cs') (depth pos pos' : Nat) :
    depths .code depth pos cs' = depths .code depth pos' cs := by
  induction h generalizing depth pos pos' with
  | refl cs => exact depths_elsewhere _ _ _ _ _
  | @insert front back back' g hfront hg h ih =>
    obtain ⟨os, depth', hos⟩ := hfront depth pos
    rw [depths_elsewhere _ _ pos' pos]
    unfold depths at ih ⊢
    rw [hos, hos, openings_layout hg, List.map_append, List.map_append, ih]
  | @behind front g hfront hg =>
    obtain ⟨os, depth', hos⟩ := hfront depth pos
    have hend := hos []
    rw [List.append_nil] at hend
    rw [depths_elsewhere _ _ pos' pos]
    unfold depths
    rw [hos, hend, openings_comment hg]
    rfl

end SafeExpr
