import Wamrx.Proofs.SessionRuns

/-!
# `Wamrx.Proofs.DefinitionOrder`: when the order of definitions matters

WAMR's registry is a list of all definitions of all linkers, and an import is looked up in it by its
names (`LinksByName`). So the order of `define_func` calls can matter, but only between definitions
of one name. Their types may differ: with the rule of `newestNamed` the newest definition of the
name decides whether an import is linked. `defines_reorder` says that definitions of different names
can be made in any order.

`SameForImports` relates two sessions whose lists of definitions differ in this way, and every
operation keeps it.
-/

set_option autoImplicit false

namespace Wamrx.Proofs

open Support

variable {F : Type} {link : Linking} {usizeBits : Nat} {s s' t : Session F} {w w' : World F}

/-- The definition has this module name and this bare name. -/
def hasKey (module bare : Name) (d : Definition F) : Bool :=
  d.module = module ∧ bareName d.name = bare

/-- The same state, up to the order of definitions of different names. -/
structure SameForImports (s t : Session F) : Prop where
  engines : s.engines = t.engines
  linkers : s.linkers = t.linkers
  modules : s.modules = t.modules
  instances : s.instances = t.instances
  defs : ∀ module bare, s.defs.filter (hasKey module bare) = t.defs.filter (hasKey module bare)

/-! ### Imports -/

/-- A rule that looks symbols up by name sees the definitions of one name only. -/
theorem pick_counting (hlink : LinksByName link) (l : List (Definition F))
    (holds : Definition F → Bool) (imp : Import) :
    link.pick Definition.view (l.filter holds) imp = link.pick Definition.view
      ((l.filter (hasKey imp.moduleName (bareName imp.fieldName))).filter holds) imp := by
  rw [hlink.pick_filter, List.filter_filter, List.filter_filter]
  congr 2
  funext d
  exact Bool.and_comm _ _

theorem SameForImports.resolve (hlink : LinksByName link) (h : SameForImports s t)
    (imp : Import) : s.resolve link imp = t.resolve link imp := by
  have hholds : s.holds = t.holds := by
    funext l
    rw [Session.holds, Session.holds, h.linkers, h.instances]
  rw [Session.resolve, Session.resolve, Session.counting, Session.counting, hholds,
    pick_counting hlink s.defs, pick_counting hlink t.defs, h.defs]

/-! ### Every operation -/

theorem sameForImports_step (hlink : LinksByName link) (s t : Session F) (op : Op F)
    (h : SameForImports s t) :
    Option.Rel SameForImports (s.step link usizeBits op) (t.step link usizeBits op) := by
  have hresolve : s.resolve link = t.resolve link := funext (h.resolve hlink)
  obtain ⟨defs, engines, linkers, modules, instances⟩ := s
  obtain ⟨defs', _, _, _, _⟩ := t
  obtain ⟨rfl, rfl, rfl, rfl, hdefs⟩ := h
  cases op with
  | engineNew initOk => exact .some ⟨rfl, rfl, rfl, rfl, hdefs⟩
  | engineClone e | linkerNew e => exact optionRel_map _ fun _ => ⟨rfl, rfl, rfl, rfl, hdefs⟩
  | engineDrop e | linkerDrop e | moduleDrop e | instanceDrop e =>
    exact optionRel_map _ fun _ => ⟨rfl, rfl, rfl, rfl, hdefs⟩
  | call i => exact optionRel_map _ fun _ => ⟨rfl, rfl, rfl, rfl, hdefs⟩
  | defineFunc l module name ty func registerOk =>
    refine optionRel_map _ fun _ => ?_
    split
    · exact ⟨rfl, rfl, rfl, rfl, hdefs⟩
    · refine ⟨rfl, rfl, rfl, rfl, fun m bare => ?_⟩
      rw [List.filter_cons, List.filter_cons, hdefs]
  | moduleNew e bytes loaded =>
    simp only [Session.step]
    split
    · refine optionRel_map _ fun _ => ?_
      cases loaded with
      | error text => exact ⟨rfl, rfl, rfl, rfl, hdefs⟩
      | ok imports => exact ⟨rfl, rfl, by simp only [hresolve], rfl, hdefs⟩
    · exact .none
  | instantiate l m result =>
    simp only [Session.step]
    split
    · exact .some ⟨rfl, rfl, rfl, rfl, hdefs⟩
    · exact .none

/-! ### Definitions in another order -/

/-- The operation is a `define_func`. -/
def isDefine : Op F → Bool
  | .defineFunc .. => true
  | .engineNew _ | .engineClone _ | .engineDrop _ | .linkerNew _ | .linkerDrop _ | .moduleNew ..
  | .moduleDrop _ | .instantiate .. | .call _ | .instanceDrop _ => false

/-- The operation is a `define_func` of this module name and this bare name. -/
def definesKey (module bare : Name) : Op F → Bool
  | .defineFunc _ module' name _ _ _ => module' = module ∧ bareName name = bare
  | .engineNew _ | .engineClone _ | .engineDrop _ | .linkerNew _ | .linkerDrop _ | .moduleNew ..
  | .moduleDrop _ | .instantiate .. | .call _ | .instanceDrop _ => false

/-- What a `define_func` adds, if it succeeds. -/
def definitionOf : Op F → Option (Definition F)
  | .defineFunc l module name ty func registerOk =>
    if 0 ∈ module ∨ 0 ∈ name ∨ registerOk = false then none
    else some ⟨l, module, name, ty, func⟩
  | .engineNew _ | .engineClone _ | .engineDrop _ | .linkerNew _ | .linkerDrop _ | .moduleNew ..
  | .moduleDrop _ | .instantiate .. | .call _ | .instanceDrop _ => none

/-- The linker of a `define_func` is there. -/
def linkerThere (s : Session F) : Op F → Bool
  | .defineFunc l .. => (s.linkers.get? l).isSome
  | .engineNew _ | .engineClone _ | .engineDrop _ | .linkerNew _ | .linkerDrop _ | .moduleNew ..
  | .moduleDrop _ | .instantiate .. | .call _ | .instanceDrop _ => false

/-- Any number of definitions at once. -/
theorem run_defines {ops : List (Op F)} (hops : ∀ op ∈ ops, isDefine op = true) (s : Session F) :
    run (Session.step link usizeBits) s ops = if ops.all (linkerThere s) then
      some { s with defs := (ops.filterMap definitionOf).reverse ++ s.defs } else none := by
  induction ops generalizing s with
  | nil => rfl
  | cons op ops ih =>
    obtain ⟨hop, hrest⟩ := List.forall_mem_cons.mp hops
    cases op with
    | defineFunc l module name ty func registerOk =>
      rw [run_cons, List.all_cons, linkerThere, Session.step]
      cases s.linkers.get? l with
      | none => rfl
      | some _ =>
        rw [Option.map_some, Option.bind_some, Option.isSome_some, Bool.true_and,
          List.filterMap_cons, definitionOf]
        split
        · rw [ih hrest]
        · rw [ih hrest, List.reverse_cons, List.append_assoc]
          rfl
    | _ => cases hop

/-- The definitions of a key come from the operations of that key. -/
theorem filterMap_definitionOf (module bare : Name) (ops : List (Op F)) :
    (ops.filterMap definitionOf).filter (hasKey module bare)
      = (ops.filter (definesKey module bare)).filterMap definitionOf := by
  induction ops with
  | nil => rfl
  | cons op ops ih =>
    cases hd : definitionOf op with
    | none =>
      rw [List.filterMap_cons_none hd, ih, List.filter_cons]
      split
      · rw [List.filterMap_cons_none hd]
      · rfl
    | some d =>
      rw [List.filterMap_cons_some hd, List.filter_cons, List.filter_cons, ih]
      have hkey : hasKey module bare d = definesKey module bare op := by
        cases op with
        | defineFunc l m n ty func registerOk =>
          rw [definitionOf] at hd
          split at hd
          · cases hd
          · cases hd
            rfl
        | _ => cases hd
      rw [hkey]
      split
      · rw [List.filterMap_cons_some hd]
      · rfl

/-- Definitions in another order lead to the same state for imports. -/
theorem run_defines_reorder {defs defs' : List (Op F)} (hperm : defs.Perm defs')
    (hdefs : ∀ op ∈ defs, isDefine op = true)
    (hkeys : ∀ module bare,
      defs.filter (definesKey module bare) = defs'.filter (definesKey module bare))
    (s : Session F) :
    Option.Rel SameForImports (run (Session.step link usizeBits) s defs)
      (run (Session.step link usizeBits) s defs') := by
  rw [run_defines hdefs s, run_defines (fun op hop => hdefs op (hperm.mem_iff.mpr hop)) s,
    hperm.all_eq]
  split
  · refine .some ⟨rfl, rfl, rfl, rfl, fun module bare => ?_⟩
    rw [List.filter_append, List.filter_append, List.filter_reverse, List.filter_reverse,
      filterMap_definitionOf, filterMap_definitionOf, hkeys]
  · exact .none

/-! ### What the user sees -/

/-- Two states that agree with sessions that are the same for imports are alike. -/
theorem SameForImports.alike (h : SameForImports s t) (hw : Agree w s) (hw' : Agree w' t) :
    Alike w w' := by
  obtain ⟨defs, engines, linkers, modules, instances⟩ := s
  obtain ⟨defs', _, _, _, _⟩ := t
  obtain ⟨rfl, rfl, rfl, rfl, -⟩ := h
  exact ⟨fun e => (hw.engines e).trans (hw'.engines e).symm,
    fun l => (hw.linkers l).trans (hw'.linkers l).symm,
    fun m => (hw.modules m).trans (hw'.modules m).symm,
    fun i => (hw.instances i).trans (hw'.instances i).symm,
    fun i k => (hw.dispatch i k).trans (hw'.dispatch i k).symm⟩

/-- Calls of `define_func` that follow each other can be made in any order that keeps the order of
those with the same module name and the same name (a leading underscore makes no difference), with
any rule of WAMR that looks imports up by name. It does not matter to which linkers they belong,
which types they have and which of them fail. The same operations are possible afterwards, and they
lead to states that the user can not tell apart: every import of every instance calls the same. -/
theorem defines_reorder (link : Linking) (hlink : LinksByName link) (usizeBits : Nat)
    (pre defs defs' post : List (Op F)) (hperm : defs.Perm defs')
    (hdefs : ∀ op ∈ defs, isDefine op = true)
    (hkeys : ∀ module bare,
      defs.filter (definesKey module bare) = defs'.filter (definesKey module bare)) :
    Option.Rel Alike (run (World.step link usizeBits) World.init (pre ++ defs ++ post))
      (run (World.step link usizeBits) World.init (pre ++ defs' ++ post)) := by
  have hsessions : Option.Rel SameForImports
      (run (Session.step link usizeBits) (Session.init : Session F) (pre ++ defs ++ post))
      (run (Session.step link usizeBits) Session.init (pre ++ defs' ++ post)) := by
    rw [List.append_assoc, List.append_assoc, run_append, run_append]
    cases run (Session.step link usizeBits) (Session.init : Session F) pre with
    | none => exact .none
    | some s =>
      rw [Option.bind_some, Option.bind_some, run_append, run_append]
      exact optionRel_bind (run_defines_reorder hperm hdefs hkeys s) fun _ _ h =>
        run_rel SameForImports (sameForImports_step hlink) h post
  have hagree := optionRel_comp (fun w s t h h' => Exists.intro s (And.intro h h'))
    (refines_init.agree_run link usizeBits (pre ++ defs ++ post)) hsessions
  exact optionRel_common (fun w w' t ⟨s, hw, hst⟩ hw' => hst.alike hw hw') hagree
    (refines_init.agree_run link usizeBits (pre ++ defs' ++ post))

/-- Two linkers define two functions of one name and different types, and between them one under
another name. -/
def threeDefinitions : List (Op Nat) :=
  [.defineFunc 0 [0x6d] [0x66] ⟨[.i32], []⟩ 0 true, .defineFunc 1 [0x6d] [0x67] ⟨[], []⟩ 2 true,
    .defineFunc 1 [0x6d] [0x66] ⟨[.i64], []⟩ 1 true]

/-- The same, with the other name last. -/
def threeDefinitionsMoved : List (Op Nat) :=
  [.defineFunc 0 [0x6d] [0x66] ⟨[.i32], []⟩ 0 true,
    .defineFunc 1 [0x6d] [0x66] ⟨[.i64], []⟩ 1 true, .defineFunc 1 [0x6d] [0x67] ⟨[], []⟩ 2 true]

/-- Two linkers, before any definition. -/
def twoLinkers : List (Op Nat) := [.engineNew true, .linkerNew 0, .linkerNew 0]

/-- A module imports all three. -/
def importsThree : List (Op Nat) :=
  [.moduleNew 0 [] (.ok [⟨[0x6d], [0x66], ⟨[.i64], []⟩⟩, ⟨[0x6d], [0x66], ⟨[.i32], []⟩⟩,
    ⟨[0x6d], [0x67], ⟨[], []⟩⟩]), .instantiate 1 0 .ok]

/-- The older definition of the common name is out of reach in both orders. -/
theorem defines_reorder_moved :
    ∃ w w', run (World.step wamrLink 64) World.init (twoLinkers ++ threeDefinitions ++ importsThree)
        = some w ∧
      run (World.step wamrLink 64) World.init (twoLinkers ++ threeDefinitionsMoved ++ importsThree)
        = some w' ∧ Alike w w' ∧ w'.dispatch 0 0 = some (.closure 1) ∧
      w'.dispatch 0 1 = some .unlinked ∧ w'.dispatch 0 2 = some (.closure 2) := by
  have hreorder := defines_reorder wamrLink (newestNamed_byName _) 64 twoLinkers threeDefinitions
    threeDefinitionsMoved importsThree (.cons _ (.swap _ _ [])) (by decide) fun module bare => by
      -- The two that change places have different names.
      have hf : bareName [0x66] = [0x66] := by decide
      have hg : bareName [0x67] = [0x67] := by decide
      by_cases hbare : [0x66] = bare
      · subst hbare
        simp [threeDefinitions, threeDefinitionsMoved, List.filter_cons, definesKey, hf, hg]
      · simp [threeDefinitions, threeDefinitionsMoved, List.filter_cons, definesKey, hf, hg, hbare]
  let w' := (run (World.step wamrLink 64) World.init
    (twoLinkers ++ threeDefinitionsMoved ++ importsThree)).get (by decide)
  have hw' : run (World.step wamrLink 64) World.init
      (twoLinkers ++ threeDefinitionsMoved ++ importsThree) = some w' := (Option.some_get _).symm
  rcases optionRel_cases hreorder with ⟨-, hnone⟩ | ⟨w, w'', hw, hsome, halike⟩
  · rw [hw'] at hnone
    cases hnone
  · obtain rfl := Option.some.inj (hw'.symm.trans hsome)
    exact ⟨w, w', hw, hw', halike, by decide, by decide, by decide⟩

end Wamrx.Proofs
