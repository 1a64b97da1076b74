/-
  SafeExpr/Proofs/Value/Construction.lean
  =======================================
  **What sets and dicts are made of.**

  A set is made by going through the items and leaving out those that are there already; a dict,
  by giving the key of each entry its value.  Behind any part of the items the elements made so
  far are its first occurrences (`Collected`), and the values are those of the last entries
  (`Recorded`): one step keeps this for one more item, and so a whole construction has it.

  What is found in a set or a dict is therefore what is found among the items, and the values of a
  dict are the last ones; so equality, which goes by what is found, does not depend on the order of
  the items.
-/
import SafeExpr.Proofs.Value.Elements

namespace SafeExpr

namespace Value

/-! ### First occurrences and last values -/

/-- At place `i` stands `v`, and nothing before it is equal to it. -/
def IsFirst (vs : List Value) (i : Nat) (v : Value) : Prop :=
  vs[i]? = some v ∧ v.memberOf (vs.take i) = false

/-- `us` lists what stands at the places of first occurrences in `vs`, in their order. -/
def FirstOccurrences (vs us : List Value) : Prop :=
  ∃ places : List Nat, places.Pairwise (· < ·) ∧ (∀ i, i ∈ places ↔ ∃ v, IsFirst vs i v) ∧
    List.Forall₂ (fun i u => vs[i]? = some u) places us

/-- `v` is the value of the last entry with a key equal to `k`. -/
def IsLastValue (es : List (Value × Value)) (k v : Value) : Prop :=
  ∃ before k' after, es = before ++ (k', v) :: after ∧ k'.eq k = true ∧
    ∀ e ∈ after, e.1.eq k = false

section First

variable {vs us : List Value} {v w : Value} {i : Nat}

theorem isFirst_append_iff :
    IsFirst (vs ++ [v]) i w ↔
      IsFirst vs i w ∨ i = vs.length ∧ w = v ∧ v.memberOf vs = false := by
  unfold IsFirst
  rcases Nat.lt_trichotomy i vs.length with hlt | rfl | hgt
  · rw [List.getElem?_append_left hlt, List.take_append_of_le_length (Nat.le_of_lt hlt)]
    constructor
    · exact Or.inl
    · rintro (h | ⟨heq, -⟩)
      · exact h
      · omega
  · rw [List.getElem?_concat_length, List.take_left, List.getElem?_eq_none (Nat.le_refl _)]
    constructor
    · rintro ⟨⟨⟩, h⟩
      exact .inr ⟨rfl, rfl, h⟩
    · rintro (⟨h, -⟩ | ⟨-, rfl, h⟩)
      · cases h
      · exact ⟨rfl, h⟩
  · rw [List.getElem?_eq_none (by simp; omega), List.getElem?_eq_none (by omega)]
    constructor
    · rintro ⟨h, -⟩
      cases h
    · rintro (⟨h, -⟩ | ⟨heq, -⟩)
      · cases h
      · omega

theorem firstOccurrences_nil : FirstOccurrences [] [] :=
  ⟨[], .nil, fun i => by simp [IsFirst], .nil⟩

/-- One more item is an occurrence of its own just if it is not found. -/
theorem FirstOccurrences.add (h : FirstOccurrences vs us)
    (hfound : v.memberOf us = v.memberOf vs) :
    FirstOccurrences (vs ++ [v]) (addElement us v) := by
  obtain ⟨places, hsorted, hplaces, hitems⟩ := h
  have hkept : List.Forall₂ (fun i u => (vs ++ [v])[i]? = some u) places us := by
    refine hitems.imp fun i u hu => ?_
    rw [List.getElem?_append_left (List.getElem?_eq_some_iff.mp hu).1, hu]
  unfold addElement
  rw [hfound]
  by_cases hmem : v.memberOf vs = true
  · rw [if_pos hmem]
    refine ⟨places, hsorted, fun i => ?_, hkept⟩
    simp only [hplaces, isFirst_append_iff, hmem, Bool.true_eq_false, and_false, or_false]
  · rw [if_neg hmem]
    rw [Bool.not_eq_true] at hmem
    refine ⟨places ++ [vs.length], ?_, fun i => ?_, ?_⟩
    · refine List.pairwise_append.mpr ⟨hsorted, List.pairwise_singleton _ _, ?_⟩
      intro i hi j hj
      obtain ⟨u, hu, -⟩ := (hplaces i).mp hi
      rw [List.mem_singleton.mp hj]
      exact (List.getElem?_eq_some_iff.mp hu).1
    · simp only [List.mem_append, List.mem_singleton, hplaces, isFirst_append_iff, hmem, and_true]
      constructor
      · rintro (⟨u, hu⟩ | rfl)
        · exact ⟨u, .inl hu⟩
        · exact ⟨v, .inr ⟨rfl, rfl⟩⟩
      · rintro ⟨u, hu | ⟨rfl, -⟩⟩
        · exact .inl ⟨u, hu⟩
        · exact .inr rfl
    · refine List.rel_append hkept (.cons ?_ .nil)
      exact List.getElem?_concat_length

end First

/-! ### Making a set -/

/-- The elements that were made of some items. -/
structure Collected (vs us : List Value) : Prop where
  first : FirstOccurrences vs us
  elements : Elements us
  found : ∀ k : Value, k.IsKey → k.memberOf us = k.memberOf vs

section Sets

variable {vs ws us : List Value} {v : Value}

theorem Elements.addElement (hus : Elements us) (hv : v.IsKey) : Elements (addElement us v) := by
  refine ⟨hus.distinct.addElement hv.hashable, fun u hu => ?_⟩
  unfold Value.addElement at hu
  split at hu
  · exact hus.keys u hu
  · rcases List.mem_append.mp hu with hu | hu
    · exact hus.keys u hu
    · rw [List.mem_singleton.mp hu]
      exact hv

/-- An element that is added is found, and nothing else that was not found before. -/
theorem memberOf_addElement {k : Value} (hus : ∀ u ∈ us, u.IsKey) (hv : v.IsKey) (hk : k.IsKey) :
    k.memberOf (addElement us v) = (k.memberOf us || v.eq k) := by
  unfold addElement
  split
  · next hmem =>
    cases hvk : v.eq k with
    | false => rw [Bool.or_false]
    | true => rw [← memberOf_congr hv hk hus hvk, hmem, Bool.or_true]
  · rw [memberOf_append, memberOf_singleton]

theorem collected_nil : Collected [] [] :=
  ⟨firstOccurrences_nil, ⟨.nil, List.forall_mem_nil _⟩, fun _ _ => rfl⟩

theorem Collected.add (h : Collected vs us) (hv : v.IsKey) :
    Collected (vs ++ [v]) (Value.addElement us v) where
  first := h.first.add (h.found v hv)
  elements := h.elements.addElement hv
  found k hk := by
    rw [memberOf_addElement h.elements.keys hv hk, h.found k hk, memberOf_append,
      memberOf_singleton]

theorem mkSet_go_collected (h : Collected vs us) (hws : ∀ w ∈ ws, w.IsKey) :
    ∃ us', mkSet.go us ws = .ok (.set us') ∧ Collected (vs ++ ws) us' := by
  induction ws generalizing vs us with
  | nil => exact ⟨us, rfl, (List.append_nil vs).symm ▸ h⟩
  | cons w ws ih =>
    obtain ⟨hw, hws⟩ := List.forall_mem_cons.mp hws
    obtain ⟨us', hus', hcollected⟩ := ih (h.add hw) hws
    refine ⟨us', ?_, List.append_cons vs w ws ▸ hcollected⟩
    rw [mkSet.go, requireHashable, if_pos hw.hashable]
    exact hus'

/-- **A set is made of the first occurrences.** -/
theorem mkSet_collected (hvs : ∀ v ∈ vs, v.IsKey) :
    ∃ us, mkSet vs = .ok (.set us) ∧ Collected vs us :=
  mkSet_go_collected collected_nil hvs

end Sets

/-! ### Making a dict -/

/-- The entries that were made of some entries. -/
structure Recorded (es made : List (Value × Value)) : Prop where
  keys : Collected (es.map Prod.fst) (made.map Prod.fst)
  values : ∀ e ∈ made, IsLastValue es e.1 e.2

section Dicts

variable {es fs made : List (Value × Value)} {k v : Value} {e : Value × Value}

/-- One entry is given the value, and the others stay. -/
theorem putEntry_cases (hmade : Elements (made.map Prod.fst)) (hk : k.IsKey)
    (he : e ∈ putEntry made k v) :
    k.eq e.1 = true ∧ e.2 = v ∨ e ∈ made ∧ k.eq e.1 = false := by
  induction made with
  | nil =>
    rw [putEntry, List.mem_singleton] at he
    rw [he]
    exact .inl ⟨hk.eq_refl, rfl⟩
  | cons f made ih =>
    obtain ⟨k', v'⟩ := f
    rw [List.map_cons] at hmade
    obtain ⟨hdiffer, hrest⟩ := List.pairwise_cons.mp hmade.distinct.differ
    obtain ⟨hk', hkeys⟩ := List.forall_mem_cons.mp hmade.keys
    have hmade' : Elements (made.map Prod.fst) :=
      ⟨⟨fun u hu => (hkeys u hu).hashable, hrest⟩, hkeys⟩
    rw [putEntry] at he
    split at he
    · next heq =>
      rw [hk'.eq_comm hk] at heq
      rcases List.mem_cons.mp he with rfl | he
      · exact .inl ⟨heq, rfl⟩
      · refine .inr ⟨List.mem_cons_of_mem _ he, ?_⟩
        -- a second entry with this key would be equal to the first one
        have hmem := List.mem_map_of_mem (f := Prod.fst) he
        cases hke : k.eq e.1 with
        | false => rfl
        | true =>
          rw [hk.eq_comm hk'] at heq
          have := hk'.eq_trans hk (hkeys _ hmem) heq hke
          rw [(hdiffer _ hmem).1] at this
          cases this
    · next hne =>
      rw [Bool.not_eq_true, hk'.eq_comm hk] at hne
      rcases List.mem_cons.mp he with rfl | he
      · exact .inr ⟨List.mem_cons_self, hne⟩
      · rcases ih hmade' he with h | ⟨he, h⟩
        · exact .inl h
        · exact .inr ⟨List.mem_cons_of_mem _ he, h⟩

theorem isLastValue_append_self (h : k.eq e.1 = true) : IsLastValue (es ++ [(k, v)]) e.1 v :=
  ⟨es, k, [], rfl, h, List.forall_mem_nil _⟩

theorem IsLastValue.append {k' v' : Value} (h : IsLastValue es k v) (hne : k'.eq k = false) :
    IsLastValue (es ++ [(k', v')]) k v := by
  obtain ⟨before, l, after, rfl, hl, hafter⟩ := h
  refine ⟨before, l, after ++ [(k', v')], by simp, hl, ?_⟩
  exact List.forall_mem_append.mpr ⟨hafter, by simpa using hne⟩

theorem recorded_nil : Recorded [] [] := ⟨collected_nil, List.forall_mem_nil _⟩

theorem Recorded.put (h : Recorded es made) (hk : k.IsKey) (v : Value) :
    Recorded (es ++ [(k, v)]) (putEntry made k v) where
  keys := by
    rw [keys_putEntry, List.map_append]
    exact h.keys.add hk
  values e he := by
    rcases putEntry_cases h.keys.elements hk he with ⟨heq, rfl⟩ | ⟨he, hne⟩
    · exact isLastValue_append_self heq
    · exact (h.values e he).append hne

theorem mkDict_go_recorded (h : Recorded es made) (hfs : ∀ f ∈ fs, f.1.IsKey) :
    ∃ made', mkDict.go made fs = .ok (.dict made') ∧ Recorded (es ++ fs) made' := by
  induction fs generalizing es made with
  | nil => exact ⟨made, rfl, (List.append_nil es).symm ▸ h⟩
  | cons f fs ih =>
    obtain ⟨k, v⟩ := f
    obtain ⟨hk, hfs⟩ := List.forall_mem_cons.mp hfs
    obtain ⟨made', hmade', hrecorded⟩ := ih (h.put hk v) hfs
    refine ⟨made', ?_, List.append_cons es (k, v) fs ▸ hrecorded⟩
    rw [mkDict.go, requireHashable, if_pos hk.hashable]
    exact hmade'

/-- **A dict is made of the first occurrences of the keys, with their last values.** -/
theorem mkDict_recorded (hes : ∀ e ∈ es, e.1.IsKey) :
    ∃ made, mkDict es = .ok (.dict made) ∧ Recorded es made :=
  mkDict_go_recorded recorded_nil hes

end Dicts

/-! ### Equality does not see the order -/

section Equality

/-- **Sets are equal just if they contain the same**, and equal if they are made of the same items
in any order. -/
theorem mkSet_eq_iff {vs ws : List Value} {a b : Value} (hvs : ∀ v ∈ vs, v.IsKey)
    (hws : ∀ w ∈ ws, w.IsKey) (ha : mkSet vs = .ok a) (hb : mkSet ws = .ok b) :
    (a.eq b = true ↔ ∀ x : Value, x.IsKey → (a.Has x ↔ b.Has x)) ∧
      (vs.Perm ws → a.eq b = true) := by
  obtain ⟨us, hus, hcollected⟩ := mkSet_collected hvs
  obtain ⟨us', hus', hcollected'⟩ := mkSet_collected hws
  cases ha.symm.trans hus
  cases hb.symm.trans hus'
  rw [set_eq_iff hcollected.elements hcollected'.elements]
  constructor
  · refine forall₂_congr fun x hx => ?_
    rw [has_set_iff hx.hashable, has_set_iff hx.hashable, Bool.eq_iff_iff]
  · intro hperm k hk
    rw [hcollected.found k hk, hcollected'.found k hk, memberOf_perm hperm]

variable {es fs made made' : List (Value × Value)}

/-- **Dicts are equal just if they contain the same keys with equal values.** -/
theorem Recorded.eq_iff (h : Recorded es made) (h' : Recorded fs made') :
    (dict made).eq (dict made') = true ↔
      (∀ x : Value, x.IsKey → ((dict made).Has x ↔ (dict made').Has x)) ∧
      ∀ e ∈ made, ∀ f ∈ made', e.1.eq f.1 = true → e.2.eq f.2 = true := by
  rw [dict_eq_iff h.keys.elements h'.keys.elements]
  refine and_congr_left fun _ => forall₂_congr fun x hx => ?_
  rw [has_dict_iff hx.hashable, has_dict_iff hx.hashable, Bool.eq_iff_iff]

theorem IsLastValue.exists_mem {k v : Value} (h : IsLastValue es k v) :
    ∃ k', (k', v) ∈ es ∧ k'.eq k = true := by
  obtain ⟨before, k', after, rfl, hk', -⟩ := h
  exact ⟨k', List.mem_append_right _ List.mem_cons_self, hk'⟩

/-- **Entries with distinct keys make equal dicts in any order.** -/
theorem Recorded.eq_of_perm (h : Recorded es made) (h' : Recorded fs made') (hperm : es.Perm fs)
    (hkeys : Elements (es.map Prod.fst)) (hvalues : ∀ e ∈ es, e.2.eq e.2 = true) :
    (dict made).eq (dict made') = true := by
  rw [dict_eq_iff h.keys.elements h'.keys.elements]
  refine ⟨fun k hk => ?_, fun e he f hf hef => ?_⟩
  · rw [h.keys.found k hk, h'.keys.found k hk, memberOf_perm (hperm.map Prod.fst)]
  · obtain ⟨k, hk, hke⟩ := (h.values e he).exists_mem
    obtain ⟨l, hl, hlf⟩ := (h'.values f hf).exists_mem
    have hl := hperm.mem_iff.mpr hl
    have hkk := hkeys.keys k (List.mem_map_of_mem (f := Prod.fst) hk)
    have hlk := hkeys.keys l (List.mem_map_of_mem (f := Prod.fst) hl)
    have hek := h.keys.elements.keys e.1 (List.mem_map_of_mem he)
    have hfk := h'.keys.elements.keys f.1 (List.mem_map_of_mem hf)
    -- both values come from the one entry with this key
    have hkl : k.eq l = true :=
      hkk.eq_trans hfk hlk (hkk.eq_trans hek hfk hke hef) (hlk.eq_comm hfk ▸ hlf)
    have hsame : (k, e.2) = (l, f.2) := hkeys.entry_eq hk hl hkl
    rw [← congrArg Prod.snd hsame]
    exact hvalues (k, e.2) hk

end Equality

/-- **Sets and dicts are what they are made of.**  Of the items of a set the first occurrences are
kept, in their places; so are the first occurrences of the keys of a dict, each with its last value.
Two sets are equal just if they contain the same, two dicts just if they contain the same keys with
equal values; so to change the order of the items, or of entries with distinct keys, gives something
equal. -/
theorem construction_extensional :
    (∀ vs : List Value, (∀ v ∈ vs, v.IsKey) →
      ∃ us, mkSet vs = .ok (.set us) ∧ FirstOccurrences vs us) ∧
    (∀ es : List (Value × Value), (∀ e ∈ es, e.1.IsKey) →
      ∃ made, mkDict es = .ok (.dict made) ∧
        FirstOccurrences (es.map Prod.fst) (made.map Prod.fst) ∧
        ∀ e ∈ made, IsLastValue es e.1 e.2) ∧
    (∀ (vs ws : List Value) (a b : Value), (∀ v ∈ vs, v.IsKey) → (∀ w ∈ ws, w.IsKey) →
      mkSet vs = .ok a → mkSet ws = .ok b →
        (a.eq b = true ↔ ∀ x : Value, x.IsKey → (a.Has x ↔ b.Has x)) ∧
        (vs.Perm ws → a.eq b = true)) ∧
    ∀ es fs made made' : List (Value × Value), (∀ e ∈ es, e.1.IsKey) → (∀ f ∈ fs, f.1.IsKey) →
      mkDict es = .ok (.dict made) → mkDict fs = .ok (.dict made') →
        ((dict made).eq (dict made') = true ↔
          (∀ x : Value, x.IsKey → ((dict made).Has x ↔ (dict made').Has x)) ∧
          ∀ e ∈ made, ∀ f ∈ made', e.1.eq f.1 = true → e.2.eq f.2 = true) ∧
        (es.Perm fs → es.Pairwise (fun e f => e.1.eq f.1 = false) → (∀ e ∈ es, e.2.FloatFree) →
          (dict made).eq (dict made') = true) := by
  refine ⟨fun vs hvs => ?_, fun es hes => ?_, fun vs ws a b => mkSet_eq_iff,
    fun es fs made made' hes hfs hmade hmade' => ?_⟩
  · obtain ⟨us, hus, hcollected⟩ := mkSet_collected hvs
    exact ⟨us, hus, hcollected.first⟩
  · obtain ⟨made, hmade, hrecorded⟩ := mkDict_recorded hes
    exact ⟨made, hmade, hrecorded.keys.first, hrecorded.values⟩
  · obtain ⟨_, hes', hrecorded⟩ := mkDict_recorded hes
    obtain ⟨_, hfs', hrecorded'⟩ := mkDict_recorded hfs
    cases hmade.symm.trans hes'
    cases hmade'.symm.trans hfs'
    refine ⟨hrecorded.eq_iff hrecorded', fun hperm hdistinct hfree => ?_⟩
    have hkeys : ∀ k ∈ es.map Prod.fst, k.IsKey := List.forall_mem_map.mpr hes
    have helements : Elements (es.map Prod.fst) := by
      refine ⟨⟨fun k hk => (hkeys k hk).hashable, List.pairwise_map.mpr ?_⟩, hkeys⟩
      refine hdistinct.imp_of_mem fun {e f} he hf hne => ⟨hne, ?_⟩
      rw [(hes f hf).eq_comm (hes e he), hne]
    exact hrecorded.eq_of_perm hrecorded' hperm helements
      fun e he => eq_refl_of_nanFree e.2 (hfree e he).nanFree

/-- `1` and `True` are one key, in its first spelling and with its last value; the entry of the pair
may come first or last. -/
theorem construction_extensional_mixed :
    let pair : Value := .tuple [.int 0, .none]
    let es : List (Value × Value) := [(pair, .list []), (.int 1, .str "a"), (.bool true, .str "b")]
    let fs : List (Value × Value) := [(.int 1, .str "b"), (pair, .list [])]
    (∀ e ∈ es, e.1.IsKey) ∧ (∀ f ∈ fs, f.1.IsKey) ∧
      FirstOccurrences (es.map Prod.fst) [pair, .int 1] ∧
      IsLastValue es (.int 1) (.str "b") ∧
      (dict [(pair, .list []), (.int 1, .str "b")]).eq (dict fs) = true := by
  intro pair es fs
  have hkey : ∀ k ∈ [pair, .int 1, .bool true], k.IsKey := by
    simp only [List.forall_mem_cons]
    refine ⟨⟨rfl, ?_⟩, ⟨rfl, ?_⟩, ⟨rfl, ?_⟩, List.forall_mem_nil _⟩
    all_goals simp [pair, FloatFree, numbers, numbersAll]
  have hes : ∀ e ∈ es, e.1.IsKey := by
    simp only [List.forall_mem_cons, es] at hkey ⊢
    exact ⟨hkey.1, hkey.2.1, hkey.2.2.1, List.forall_mem_nil _⟩
  have hfs : ∀ f ∈ fs, f.1.IsKey := by
    simp only [List.forall_mem_cons, fs] at hkey ⊢
    exact ⟨hkey.2.1, hkey.1, List.forall_mem_nil _⟩
  obtain ⟨-, hdict, -, hequal⟩ := construction_extensional
  have hmade : mkDict es = .ok (.dict [(pair, .list []), (.int 1, .str "b")]) := by rfl
  have hmade' : mkDict fs = .ok (.dict fs) := by rfl
  obtain ⟨made, hok, hfirst, hlast⟩ := hdict es hes
  cases hmade.symm.trans hok
  have hfs' : mkDict fs.reverse = .ok (.dict fs.reverse) := by rfl
  obtain ⟨-, hperm⟩ := hequal fs.reverse fs _ _
    (fun f hf => hfs f (List.mem_reverse.mp hf)) hfs hfs' hmade'
  refine ⟨hes, hfs, hfirst, hlast (.int 1, .str "b") (by simp), ?_⟩
  refine hperm (List.reverse_perm fs) (by decide +kernel) ?_
  simp [fs, FloatFree, numbers, numbersAll]

end Value

end SafeExpr
