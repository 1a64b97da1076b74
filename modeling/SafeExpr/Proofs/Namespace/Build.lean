/-
  SafeExpr/Proofs/Namespace/Build.lean
  ====================================
  **A namespace holds exactly what was granted.**

  The export list of a module and the choice of builtin functions are what a host grants.
  `Exportable` says which lists of exports are in order, `ExportOffence` what is wrong with
  a name behind others that are; building a namespace goes through the list, and its error
  is that of the first offence (`FirstOffence`).  What is built binds the exports, then the
  chosen builtins, and nothing else (`build_grants`).
-/
import SafeExpr.Namespace.Build
import SafeExpr.Proofs.Except
import SafeExpr.Proofs.Namespace.History

namespace SafeExpr

open Registration (lastBinding)

/-! ### What may be granted -/

/-- These names may be exported together: each could stand in an expression, is harmless and
    bound, and none comes twice. -/
structure Exportable (m : Module) (names : List String) : Prop where
  identifiers : ∀ n ∈ names, isIdentifier n = true
  harmless : ∀ n ∈ names, isUnsafeName n = false
  once : names.Nodup
  bound : ∀ n ∈ names, (m.resolve n).isSome = true

/-- What is wrong with an export behind those in `before`.  Of several things the first
    counts. -/
inductive ExportOffence (m : Module) (before : List String) (name : String) :
    NamespaceError → Prop
  | invalid (h : isIdentifier name = false) : ExportOffence m before name (.invalidName name)
  | dangerous (hname : isIdentifier name = true) (h : isUnsafeName name = true) :
    ExportOffence m before name (.unsafeName name)
  | duplicate (hname : isIdentifier name = true) (hsafe : isUnsafeName name = false)
    (h : name ∈ before) : ExportOffence m before name (.duplicateExport name)
  | unbound (hname : isIdentifier name = true) (hsafe : isUnsafeName name = false)
    (hnew : name ∉ before) (h : m.resolve name = none) :
    ExportOffence m before name (.unboundExport name)

/-- The builtin function of a name. -/
def builtin? (name : String) : Option NativeFunction := builtins.find? (·.name = name)

/-- A name by which a builtin function may be chosen. -/
def Choosable (name : String) : Prop :=
  isUnsafeName name = false ∧ (builtin? name).isSome = true

inductive ChoiceOffence (name : String) : NamespaceError → Prop
  | dangerous (h : isUnsafeName name = true) : ChoiceOffence name (.unsafeName name)
  | unknown (hsafe : isUnsafeName name = false) (h : builtin? name = none) :
    ChoiceOffence name (.unknownBuiltin name)

namespace BuiltinSelection

/-- Does a selection include the builtin function of this name, if there is one? -/
def includes : BuiltinSelection → String → Bool
  | all, _ => true
  | nothing, _ => false
  | only names, n => names.contains n

/-- The builtin function that a selection grants under a name. -/
def grants (selection : BuiltinSelection) (n : String) : Option Binding :=
  if selection.includes n then (builtin? n).map .function else none

/-- Every name that is listed can be chosen. -/
def Choosable (selection : BuiltinSelection) : Prop :=
  ∀ names, selection = only names → ∀ n ∈ names, SafeExpr.Choosable n

end BuiltinSelection

/-- The module has an export list, and everything listed may be granted. -/
def Buildable (m : Module) (selection : BuiltinSelection) : Prop :=
  (∃ exports, m.exports = some exports ∧ Exportable m exports) ∧ selection.Choosable

/-- The first thing that is wrong: no export list, else the first offence among the exports,
    else the first one among the names of builtins. -/
inductive FirstOffence (m : Module) : BuiltinSelection → NamespaceError → Prop
  | missing {selection} (h : m.exports = none) : FirstOffence m selection .missingExportList
  | exported {selection} {before after : List String} {name : String} {e : NamespaceError}
    (hexports : m.exports = some (before ++ name :: after)) (hbefore : Exportable m before)
    (h : ExportOffence m before name e) : FirstOffence m selection e
  | choice {exports before after : List String} {name : String} {e : NamespaceError}
    (hexports : m.exports = some exports) (hexportable : Exportable m exports)
    (hbefore : ∀ n ∈ before, Choosable n) (h : ChoiceOffence name e) :
    FirstOffence m (.only (before ++ name :: after)) e

/-! ### Either all is in order or there is a first offence -/

theorem exportable_nil (m : Module) : Exportable m [] where
  identifiers := List.forall_mem_nil _
  harmless := List.forall_mem_nil _
  once := List.nodup_nil
  bound := List.forall_mem_nil _

theorem exportable_concat_iff {m : Module} {before : List String} {name : String} :
    Exportable m (before ++ [name]) ↔ Exportable m before ∧ isIdentifier name = true ∧
      isUnsafeName name = false ∧ name ∉ before ∧ (m.resolve name).isSome = true := by
  constructor
  · rintro ⟨hid, hsafe, honce, hbound⟩
    rw [List.forall_mem_append, List.forall_mem_singleton] at hid hsafe hbound
    rw [List.nodup_append] at honce
    refine ⟨⟨hid.1, hsafe.1, honce.1, hbound.1⟩, hid.2, hsafe.2, ?_, hbound.2⟩
    intro hmem
    exact honce.2.2 name hmem name (List.mem_singleton_self name) rfl
  · rintro ⟨⟨hid, hsafe, honce, hbound⟩, hname, hnameSafe, hnew, hnameBound⟩
    constructor
    · exact List.forall_mem_append.mpr ⟨hid, List.forall_mem_singleton.mpr hname⟩
    · exact List.forall_mem_append.mpr ⟨hsafe, List.forall_mem_singleton.mpr hnameSafe⟩
    · refine List.nodup_append.mpr ⟨honce, List.pairwise_singleton _ _, ?_⟩
      intro n hn n' hn' heq
      rw [List.mem_singleton.mp hn'] at heq
      exact hnew (heq ▸ hn)
    · exact List.forall_mem_append.mpr ⟨hbound, List.forall_mem_singleton.mpr hnameBound⟩

theorem exportable_or_offence {m : Module} {before : List String} (h : Exportable m before)
    (name : String) :
    Exportable m (before ++ [name]) ∨ ∃ e, ExportOffence m before name e := by
  rw [exportable_concat_iff]
  cases hname : isIdentifier name with
  | false => exact Or.inr ⟨_, .invalid hname⟩
  | true =>
    cases hsafe : isUnsafeName name with
    | true => exact Or.inr ⟨_, .dangerous hname hsafe⟩
    | false =>
      by_cases hnew : name ∈ before
      · exact Or.inr ⟨_, .duplicate hname hsafe hnew⟩
      · cases hbound : m.resolve name with
        | none => exact Or.inr ⟨_, .unbound hname hsafe hnew hbound⟩
        | some b => exact Or.inl ⟨h, rfl, rfl, hnew, rfl⟩

theorem exportable_or_first {m : Module} {before : List String} (h : Exportable m before)
    (names : List String) :
    Exportable m (before ++ names) ∨ ∃ front name after e, names = front ++ name :: after ∧
      Exportable m (before ++ front) ∧ ExportOffence m (before ++ front) name e := by
  induction names generalizing before with
  | nil =>
    left
    rwa [List.append_nil]
  | cons name rest ih =>
    rcases exportable_or_offence h name with hnext | ⟨e, he⟩
    · rcases ih hnext with hall | ⟨front, name', after, e, hrest, hfront, he⟩
      · left
        rwa [List.append_assoc, List.singleton_append] at hall
      · right
        rw [List.append_assoc, List.singleton_append] at hfront he
        exact ⟨name :: front, name', after, e, by rw [hrest, List.cons_append], hfront, he⟩
    · right
      refine ⟨[], name, rest, e, rfl, ?_, ?_⟩
      · rwa [List.append_nil]
      · rwa [List.append_nil]

theorem choosable_or_first (names : List String) :
    (∀ n ∈ names, Choosable n) ∨ ∃ front name after e, names = front ++ name :: after ∧
      (∀ n ∈ front, Choosable n) ∧ ChoiceOffence name e := by
  induction names with
  | nil => exact Or.inl (List.forall_mem_nil _)
  | cons name rest ih =>
    have hfirst : Choosable name ∨ ∃ e, ChoiceOffence name e := by
      cases hsafe : isUnsafeName name with
      | true => exact Or.inr ⟨_, .dangerous hsafe⟩
      | false =>
        cases hknown : builtin? name with
        | none => exact Or.inr ⟨_, .unknown hsafe hknown⟩
        | some f => exact Or.inl ⟨hsafe, by rw [hknown]; rfl⟩
    rcases hfirst with hname | ⟨e, he⟩
    · rcases ih with hall | ⟨front, name', after, e, hrest, hfront, he⟩
      · exact Or.inl (List.forall_mem_cons.mpr ⟨hname, hall⟩)
      · exact Or.inr ⟨name :: front, name', after, e, by rw [hrest, List.cons_append],
          List.forall_mem_cons.mpr ⟨hname, hfront⟩, he⟩
    · exact Or.inr ⟨[], name, rest, e, rfl, List.forall_mem_nil _, he⟩

theorem buildable_or_first (m : Module) (selection : BuiltinSelection) :
    Buildable m selection ∨ ∃ e, FirstOffence m selection e := by
  cases hexports : m.exports with
  | none => exact Or.inr ⟨_, .missing hexports⟩
  | some exports =>
    rcases exportable_or_first (exportable_nil m) exports with
      hall | ⟨before, name, after, e, rfl, hbefore, he⟩
    · have hexportable : ∃ es, m.exports = some es ∧ Exportable m es := ⟨exports, hexports, hall⟩
      cases selection with
      | all | nothing =>
        left
        refine ⟨hexportable, ?_⟩
        intro names h
        cases h
      | only names =>
        rcases choosable_or_first names with hnames | ⟨before, name, after, e, rfl, hbefore, he⟩
        · left
          refine ⟨hexportable, ?_⟩
          intro names' h
          cases h
          exact hnames
        · exact Or.inr ⟨e, .choice hexports hall hbefore he⟩
    · exact Or.inr ⟨e, .exported hexports hbefore he⟩

namespace Namespace

/-! ### Exports -/

/-- The bindings that have been made are those of the exports taken so far. -/
structure Taken (m : Module) (taken : List String) (made : Table Binding) : Prop where
  exportable : Exportable m taken
  get? : ∀ n, made.get? n = if n ∈ taken then m.resolve n else none

theorem taken_nil (m : Module) : Taken m [] {} := by
  refine ⟨exportable_nil m, ?_⟩
  intro n
  rfl

theorem Taken.contains_eq {m : Module} {taken : List String} {made : Table Binding}
    (h : Taken m taken made) (n : String) : made.contains n = decide (n ∈ taken) := by
  rw [Table.contains, h.get?]
  by_cases hn : n ∈ taken
  · rw [if_pos hn, h.exportable.bound n hn, decide_eq_true hn]
  · rw [if_neg hn, decide_eq_false hn]
    rfl

section Exports

variable {m : Module} {taken : List String} {made : Table Binding} {name : String}

/-- One more export that is in order is bound as it is in the module. -/
theorem addExport_ok (h : Taken m taken made) (hnext : Exportable m (taken ++ [name])) :
    ∃ made', addExport m made name = .ok made' ∧ Taken m (taken ++ [name]) made' := by
  obtain ⟨-, hname, hsafe, hnew, hbound⟩ := exportable_concat_iff.mp hnext
  obtain ⟨b, hb⟩ := Option.isSome_iff_exists.mp hbound
  have hcontains : made.contains name = false := by
    rw [h.contains_eq, decide_eq_false hnew]
  refine ⟨made.insert name b, ?_, hnext, ?_⟩
  · simp [addExport, hname, hsafe, hcontains, hb]
  · intro n
    rw [Table.get?_insert, h.get?]
    simp only [List.mem_append, List.mem_singleton]
    by_cases hn : n = name
    · simp [hn, hb]
    · simp [hn]

/-- One that is not in order is refused. -/
theorem addExport_error (h : Taken m taken made) {e : NamespaceError}
    (he : ExportOffence m taken name e) : addExport m made name = .error e := by
  cases he with
  | invalid hname => simp [addExport, hname]
  | dangerous hname hsafe => simp [addExport, hname, hsafe]
  | duplicate hname hsafe hmem => simp [addExport, hname, hsafe, h.contains_eq, hmem]
  | unbound hname hsafe hnew hbound =>
    simp [addExport, hname, hsafe, h.contains_eq, hnew, hbound]

theorem addExports_ok {names : List String} (h : Taken m taken made)
    (hall : Exportable m (taken ++ names)) :
    ∃ made', names.foldlM (addExport m) made = .ok made' ∧ Taken m (taken ++ names) made' := by
  induction names generalizing taken made with
  | nil =>
    refine ⟨made, rfl, ?_⟩
    rwa [List.append_nil]
  | cons name rest ih =>
    rw [← List.singleton_append, ← List.append_assoc] at hall
    have hnext : Exportable m (taken ++ [name]) := by
      obtain ⟨hid, hsafe, honce, hbound⟩ := hall
      exact ⟨(List.forall_mem_append.mp hid).1, (List.forall_mem_append.mp hsafe).1,
        (List.nodup_append.mp honce).1, (List.forall_mem_append.mp hbound).1⟩
    obtain ⟨next, hadd, hmade⟩ := addExport_ok h hnext
    obtain ⟨made', hrest, hmade'⟩ := ih hmade hall
    refine ⟨made', ?_, ?_⟩
    · rw [List.foldlM_cons, hadd]
      exact hrest
    · rwa [List.append_assoc, List.singleton_append] at hmade'

theorem addExports_error {before after : List String} {e : NamespaceError}
    (hbefore : Exportable m before) (he : ExportOffence m before name e) :
    (before ++ name :: after).foldlM (addExport m) {} = .error e := by
  obtain ⟨made, hmade, htaken⟩ := addExports_ok (taken_nil m) hbefore
  rw [List.foldlM_append, hmade]
  change (name :: after).foldlM (addExport m) made = .error e
  rw [List.foldlM_cons, addExport_error htaken he]
  rfl

end Exports

/-! ### Builtin functions -/

theorem selectBuiltin_ok {name : String} {f : NativeFunction} (hsafe : isUnsafeName name = false)
    (h : builtin? name = some f) : selectBuiltin name = .ok f := by
  rw [builtin?] at h
  simp [selectBuiltin, hsafe, h]

theorem selectBuiltin_error {name : String} {e : NamespaceError} (h : ChoiceOffence name e) :
    selectBuiltin name = .error e := by
  cases h with
  | dangerous hsafe => simp [selectBuiltin, hsafe]
  | unknown hsafe hknown =>
    rw [builtin?] at hknown
    simp [selectBuiltin, hsafe, hknown]

theorem name_of_builtin? {name : String} {f : NativeFunction} (h : builtin? name = some f) :
    f ∈ builtins ∧ f.name = name := by
  refine ⟨List.mem_of_find?_eq_some h, ?_⟩
  simpa using List.find?_some h

/-- What is chosen by names is found under these names, and no other. -/
theorem selectBuiltins_ok {names : List String} (h : ∀ n ∈ names, Choosable n) :
    ∃ fs, names.mapM selectBuiltin = .ok fs ∧
      ∀ n, fs.find? (·.name = n) = if n ∈ names then builtin? n else none := by
  induction names with
  | nil =>
    refine ⟨[], rfl, ?_⟩
    intro n
    rfl
  | cons name rest ih =>
    obtain ⟨⟨hsafe, hknown⟩, hrest⟩ := List.forall_mem_cons.mp h
    obtain ⟨f, hf⟩ := Option.isSome_iff_exists.mp hknown
    obtain ⟨fs, hfs, hfind⟩ := ih hrest
    obtain ⟨-, rfl⟩ := name_of_builtin? hf
    refine ⟨f :: fs, ?_, ?_⟩
    · rw [List.mapM_cons, selectBuiltin_ok hsafe hf, hfs]
      rfl
    · intro n
      rw [List.find?_cons, hfind]
      simp only [List.mem_cons]
      by_cases hn : f.name = n
      · subst hn
        simp [hf]
      · simp [hn, Ne.symm hn]

theorem selectBuiltins_error {before after : List String} {name : String} {e : NamespaceError}
    (hbefore : ∀ n ∈ before, Choosable n) (he : ChoiceOffence name e) :
    (before ++ name :: after).mapM selectBuiltin = .error e := by
  obtain ⟨fs, hfs, -⟩ := selectBuiltins_ok hbefore
  rw [List.mapM_append, hfs, List.mapM_cons, selectBuiltin_error he]
  rfl

theorem selected_ok {selection : BuiltinSelection} (h : selection.Choosable) :
    ∃ fs, selected selection = .ok fs ∧
      ∀ n, (fs.find? (·.name = n)).map .function = selection.grants n := by
  cases selection with
  | all => exact ⟨builtins, rfl, fun _ => rfl⟩
  | nothing => exact ⟨[], rfl, fun _ => rfl⟩
  | only names =>
    obtain ⟨fs, hfs, hfind⟩ := selectBuiltins_ok (h names rfl)
    refine ⟨fs, hfs, ?_⟩
    intro n
    rw [hfind, BuiltinSelection.grants, BuiltinSelection.includes]
    by_cases hn : n ∈ names
    · simp [hn]
    · simp [hn]

/-- A builtin function is added under its name, unless that is taken. -/
theorem get?_addBuiltin (made : Table Binding) (f : NativeFunction) (n : String) :
    (addBuiltin made f).get? n =
      (made.get? n).or (if f.name = n then some (.function f) else none) := by
  unfold addBuiltin Table.contains
  by_cases hn : f.name = n
  · subst hn
    cases h : made.get? f.name with
    | none => simp [Table.get?_insert]
    | some b => simp [h]
  · cases h : made.get? f.name with
    | none => simp [Table.get?_insert, hn, Ne.symm hn]
    | some b => simp [hn]

/-- Whatever was bound before stays, and of several functions of a name the first counts. -/
theorem get?_addBuiltins (made : Table Binding) (fs : List NativeFunction) (n : String) :
    (fs.foldl addBuiltin made).get? n =
      (made.get? n).or ((fs.find? (·.name = n)).map .function) := by
  induction fs generalizing made with
  | nil => exact Option.or_none.symm
  | cons f rest ih =>
    rw [List.foldl_cons, ih, get?_addBuiltin, Option.or_assoc, List.find?_cons]
    by_cases hn : f.name = n
    · simp [hn]
    · simp [hn]

/-- The names of the builtin functions are harmless names of expressions. -/
theorem builtins_named {f : NativeFunction} (hf : f ∈ builtins) :
    isIdentifier f.name = true ∧ isUnsafeName f.name = false := by
  have hall : (builtins.map (·.name)).all fun n => isIdentifier n && !isUnsafeName n := by
    decide +kernel
  simpa using List.all_eq_true.mp hall f.name (List.mem_map_of_mem hf)

/-! ### Whole namespaces -/

section Builds

variable {m : Module} {selection : BuiltinSelection}

theorem build_of_exports {exports : List String} (h : m.exports = some exports) :
    build m selection = (do
      let made ← exports.foldlM (addExport m) {}
      let chosen ← selected selection
      return ⟨chosen.foldl addBuiltin made, exports⟩) := by
  rw [build, h]
  rfl

theorem build_of_buildable (h : Buildable m selection) :
    ∃ ns, build m selection = .ok ns ∧ m.exports = some ns.exports ∧
      Exportable m ns.exports ∧
      ∀ n, ns.lookup n = if n ∈ ns.exports then m.resolve n else selection.grants n := by
  obtain ⟨⟨exports, hexports, hexportable⟩, hchoosable⟩ := h
  obtain ⟨made, hmade, htaken⟩ := addExports_ok (taken_nil m) hexportable
  obtain ⟨fs, hfs, hfind⟩ := selected_ok hchoosable
  refine ⟨⟨fs.foldl addBuiltin made, exports⟩, ?_, hexports, hexportable, ?_⟩
  · rw [build_of_exports hexports, hmade, hfs]
    rfl
  · intro n
    rw [lookup, get?_addBuiltins, htaken.get?, hfind, List.nil_append]
    by_cases hn : n ∈ exports
    · obtain ⟨b, hb⟩ := Option.isSome_iff_exists.mp (hexportable.bound n hn)
      rw [if_pos hn, if_pos hn, hb]
      rfl
    · rw [if_neg hn, if_neg hn]
      rfl

theorem build_of_first {e : NamespaceError} (h : FirstOffence m selection e) :
    build m selection = .error e := by
  cases h with
  | missing hexports =>
    rw [build, hexports]
    rfl
  | exported hexports hbefore he =>
    rw [build_of_exports hexports, addExports_error hbefore he]
    rfl
  | choice hexports hexportable hbefore he =>
    obtain ⟨made, hmade, -⟩ := addExports_ok (taken_nil m) hexportable
    rw [build_of_exports hexports, hmade, selected, selectBuiltins_error hbefore he]
    rfl

theorem build_eq_ok_iff : (∃ ns, build m selection = .ok ns) ↔ Buildable m selection := by
  constructor
  · rintro ⟨ns, h⟩
    rcases buildable_or_first m selection with hbuildable | ⟨e, he⟩
    · exact hbuildable
    · rw [build_of_first he] at h
      cases h
  · intro h
    obtain ⟨ns, hns, -⟩ := build_of_buildable h
    exact ⟨ns, hns⟩

theorem build_eq_error_iff {e : NamespaceError} :
    build m selection = .error e ↔ FirstOffence m selection e := by
  constructor
  · intro h
    rcases buildable_or_first m selection with hbuildable | ⟨e', he'⟩
    · obtain ⟨ns, hns⟩ := build_eq_ok_iff.mpr hbuildable
      rw [hns] at h
      cases h
    · rw [build_of_first he'] at h
      cases h
      exact he'
  · exact build_of_first

/-- Nothing has a name that no expression could have, or a dangerous one. -/
theorem named_of_grants {exports : List String} {n : String} (hexportable : Exportable m exports)
    (h : (if n ∈ exports then m.resolve n else selection.grants n).isSome = true) :
    isIdentifier n = true ∧ isUnsafeName n = false := by
  by_cases hn : n ∈ exports
  · exact ⟨hexportable.identifiers n hn, hexportable.harmless n hn⟩
  · rw [if_neg hn, BuiltinSelection.grants] at h
    by_cases hincluded : selection.includes n = true
    · rw [if_pos hincluded, Option.isSome_map] at h
      obtain ⟨f, hf⟩ := Option.isSome_iff_exists.mp h
      obtain ⟨hmem, rfl⟩ := name_of_builtin? hf
      exact builtins_named hmem
    · rw [if_neg hincluded] at h
      cases h

end Builds

end Namespace

open Namespace in
/-- **Whoever exports everything has only the names to take care of**: none of them is unbound
    or comes twice. -/
theorem build_declareAll (name : String) (history : List Registration)
    (selection : BuiltinSelection) :
    (∃ ns, build (Module.ofHistory name (history ++ [.declareAll])) selection = .ok ns) ↔
      (∀ n, (lastBinding history n).isSome = true →
        isIdentifier n = true ∧ isUnsafeName n = false) ∧ selection.Choosable := by
  obtain ⟨hexports, -, hnodup, hmem⟩ := Module.names_ofHistory name history
  have hbound : ∀ n, (Module.ofHistory name (history ++ [.declareAll])).resolve n =
      lastBinding history n := by
    intro n
    rw [Module.resolve_ofHistory, lastBinding, List.filterMap_append]
    exact congrArg (fun bs => List.lookup n (List.reverse bs)) (List.append_nil _)
  rw [build_eq_ok_iff, Buildable, and_congr_left_iff]
  intro _
  constructor
  · rintro ⟨exports, hlist, hid, hsafe, -, -⟩ n hn
    rw [hexports] at hlist
    cases hlist
    exact ⟨hid n ((hmem n).mpr hn), hsafe n ((hmem n).mpr hn)⟩
  · intro hnamed
    refine ⟨_, hexports, ?_, ?_, hnodup, ?_⟩
    · exact fun n hn => (hnamed n ((hmem n).mp hn)).1
    · exact fun n hn => (hnamed n ((hmem n).mp hn)).2
    · intro n hn
      rw [hbound]
      exact (hmem n).mp hn

end SafeExpr
