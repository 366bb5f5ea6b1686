import Wamrx.Proofs.SessionRelation

/-!
# `Wamrx.Proofs.SessionRefinement`: the API does what a session says

`refines_forward` is one operation of the API, with its possible failures, and the same operation
of the session. `refines_backward` says that the session can do no more. `session_refines`
concludes that the same runs are possible, and that the user can not tell the two apart: the same
values are alive, and every call of an import does the same (`Agree`).
-/

set_option autoImplicit false

namespace Wamrx.Proofs

open Support

variable {F : Type} {link : Linking} {usizeBits : Nat} {w w' : World F} {s s' : Session F}
  {c : Process F}

/-! ### The operations -/

/-- The symbol says what was defined, and leads to the context of the definition's entry. -/
def LeadsTo (c : Process F) (symbol : SymbolView × Nat) (d : Definition F) : Prop :=
  ∃ n ∈ entriesOf c d.linker, symbol = (d.view, n.context) ∧ Shows c n (viewOf d)

/-- The registered symbols are those of the definitions that count. -/
theorem Refines.symbols (h : Refines w s) :
    List.Forall₂ (LeadsTo w.proc) w.proc.symbols s.counting := by
  have hmap : ∀ {nodes defs}, List.Forall₂ (Registered w.proc) nodes defs →
      List.Forall₂ (LeadsTo w.proc) (nodes.filterMap w.proc.symbolAt) defs := by
    intro nodes defs hnodes
    induction hnodes with
    | nil => exact .nil
    | cons hnode _ ih =>
      obtain ⟨n, hn, rfl, hshows⟩ := hnode
      rw [List.filterMap_cons_some hshows.symbolAt]
      exact .cons ⟨n, hn, rfl, hshows⟩ ih
  exact hmap h.registry

/-- An import that is resolved now gets the same target on both sides, whatever the rule is. -/
theorem Refines.resolve (h : Refines w s) (link : Linking) (imp : Import) :
    SameTarget w.proc s (w.proc.resolve link imp) (s.resolve link imp) := by
  have hrel := pick_of_forall₂ link Prod.fst Definition.view
    (fun symbol d hlead => by obtain ⟨n, -, rfl, -⟩ := hlead; rfl) h.symbols imp
  unfold Process.resolve Session.resolve
  rcases optionRel_cases hrel with ⟨hnone, hnone'⟩ | ⟨symbol, d, hsymbol, hd, n, hn, rfl, hshows⟩
  · rw [hnone, hnone']
    exact .unlinked imp
  · rw [hsymbol, hd]
    obtain ⟨hmem, hcounts⟩ := List.mem_filter.mp (mem_of_pick hd)
    refine .linked imp _ d ⟨Arena.lt_next_of_get? hshows.context, h.defs_old d hmem,
      fun _ => ⟨n, hn, rfl, hshows⟩, fun hgone => ?_⟩
    rw [hcounts] at hgone
    cases hgone

/-- The user holds a value on both sides, or on neither. -/
theorem Refines.inUse_iff (h : Refines w s) : s.inUse = true ↔ ∃ v, v ∈ valuesOf w := by
  simp only [Session.inUse, Bool.or_eq_true, Arena.any_iff, and_true, or_assoc]
  constructor
  · rintro (⟨i, _, hi⟩ | ⟨i, _, hi⟩ | ⟨i, _, hi⟩ | ⟨i, _, hi⟩)
    · obtain ⟨en, hen, -⟩ := h.engines.of_right hi
      exact ⟨_, mem_valuesOf.mpr (Or.inl ⟨i, en, hen, rfl⟩)⟩
    · obtain ⟨li, hli, -⟩ := h.linkers.of_right hi
      exact ⟨_, mem_valuesOf.mpr (Or.inr (Or.inl ⟨i, li, hli, rfl⟩))⟩
    · obtain ⟨mo, hmo, -⟩ := h.modules.of_right hi
      exact ⟨_, mem_valuesOf.mpr (Or.inr (Or.inr (Or.inl ⟨i, mo, hmo, rfl⟩)))⟩
    · obtain ⟨ins, hins, -⟩ := h.instances.of_right hi
      exact ⟨_, mem_valuesOf.mpr (Or.inr (Or.inr (Or.inr ⟨i, ins, hins, rfl⟩)))⟩
  · rintro ⟨v, hv⟩
    rcases mem_valuesOf.mp hv with
      ⟨i, x, hi, -⟩ | ⟨i, x, hi, -⟩ | ⟨i, x, hi, -⟩ | ⟨i, x, hi, -⟩
    · exact Or.inl ⟨i, (h.engines.of_left hi).imp fun _ hy => hy.1⟩
    · exact Or.inr (Or.inl ⟨i, (h.linkers.of_left hi).imp fun _ hy => hy.1⟩)
    · exact Or.inr (Or.inr (Or.inl ⟨i, (h.modules.of_left hi).imp fun _ hy => hy.1⟩))
    · exact Or.inr (Or.inr (Or.inr ⟨i, (h.instances.of_left hi).imp fun _ hy => hy.1⟩))

/-- `Engine::new` succeeds when the initialisation does, or when the runtime is up. -/
theorem newEngine_cases (c : Process F) (initOk : Bool) :
    ((initOk = true ∨ 0 < c.eng.refcount) ∧ ∃ e, (c.newEngine initOk).2 = .ok e) ∨
      (¬ (initOk = true ∨ 0 < c.eng.refcount) ∧ ∃ err, (c.newEngine initOk).2 = .error err) := by
  unfold Process.newEngine EngineState.new
  by_cases hzero : c.eng.refcount = 0
  · cases initOk with
    | true => exact Or.inl ⟨Or.inl rfl, _, by simp only [hzero, if_true]; rfl⟩
    | false => exact Or.inr ⟨by simp [hzero], _, by simp only [hzero, if_true]; rfl⟩
  · exact Or.inl ⟨Or.inr (Nat.pos_of_ne_zero hzero), _, by simp only [hzero, if_false]; rfl⟩

theorem Refines.engineNew (h : Refines w s) {initOk : Bool}
    (hs : w.step link usizeBits (.engineNew initOk) = some w') :
    ∃ s', s.step link usizeBits (.engineNew initOk) = some s' ∧ Refines w' s' := by
  refine ⟨_, rfl, ?_⟩
  cases step_iff.mp hs with
  | engineNew _ =>
    refine h.quiet hs (Quiet.newEngine _ _) ?_ h.linkers (h.kept_modules _) (h.kept_instances _) rfl
    have hup : (initOk || s.inUse) = true ↔ initOk = true ∨ 0 < w.proc.eng.refcount := by
      rw [Bool.or_eq_true, h.inUse_iff, h.inv.refcount_pos_iff]
    rcases newEngine_cases w.proc initOk with ⟨hok, e, he⟩ | ⟨hno, err, herr⟩
    · simp only [he, addResult, if_pos (hup.mpr hok)]
      exact h.engines.push trivial
    · simp only [herr, addResult, if_neg (mt hup.mp hno)]
      exact h.engines.skip

theorem Refines.linkerNew (h : Refines w s) {e : Nat}
    (hs : w.step link usizeBits (.linkerNew e) = some w') :
    ∃ s', s.step link usizeBits (.linkerNew e) = some s' ∧ Refines w' s' := by
  cases step_iff.mp hs with
  | linkerNew _ en he =>
    obtain ⟨_, he', -⟩ := h.engines.of_left he
    refine ⟨{ s with linkers := s.linkers.push () }, by simp [Session.step, he'], ?_⟩
    exact h.quiet hs (Quiet.newLinker _ _) h.engines (h.linkers.push trivial) (h.kept_modules _)
      (h.kept_instances _) rfl

theorem Refines.defineFunc (h : Refines w s) {l : Nat} {module name : Name} {ty : FuncType}
    {func : F} {registerOk : Bool}
    (hs : w.step link usizeBits (.defineFunc l module name ty func registerOk) = some w') :
    ∃ s', s.step link usizeBits (.defineFunc l module name ty func registerOk) = some s' ∧
      Refines w' s' := by
  have hinv' := inv_step w _ w' h.inv hs
  cases step_iff.mp hs with
  | defineFunc _ _ _ _ _ _ li hl =>
    obtain ⟨_, hl', -⟩ := h.linkers.of_left hl
    have hptr := mem_stateRefsOf_valuesOf.mpr (Or.inl ⟨l, li, hl, rfl⟩)
    rcases defineFunc_cases h.inv hptr module name ty func registerOk with
      ⟨err, hfail, hdef, herr⟩ | ⟨b, hm, hn, hok, hb, hdef⟩
    -- A refusal changes nothing on either side.
    · refine ⟨s, by simp [Session.step, hl', hfail], ?_⟩
      refine h.quiet hs ?_ h.engines h.linkers (h.kept_modules _) (h.kept_instances _) rfl
      rw [hdef]
      exact Quiet.register_error herr
    · subst hok
      let d : Definition F := ⟨l, module, name, ty, func⟩
      refine ⟨{ s with defs := d :: s.defs }, by simp [Session.step, hl', hm, hn, d], ?_⟩
      refine h.next hs h.engines h.linkers (h.kept_modules _) (h.kept_instances _)
        (Nat.le_refl _) ?_ fun hholds => ?_
      · intro d' hd'
        rcases List.mem_cons.mp hd' with rfl | hd'
        · exact Arena.lt_next_of_get? hl'
        · exact h.defs_old d' hd'
      · have hstate := h.bind.linker_state l li hl
        have hf := step_follows w _ _ h.inv hs
        simp only [hdef] at hinv' hf ⊢
        have hcounting : Session.counting { s with defs := d :: s.defs } = d :: s.counting := by
          refine List.filter_cons_of_pos ?_
          simp [Session.holds, d, hl']
        rw [hcounting, defined_registry]
        refine .cons ?_ (h.registry.imp ?_)
        -- The new entry comes first in the registry, and it says what was defined.
        · have hmem : entryAt w.proc.heap.next
              ∈ entriesOf (defined w.proc li.state b.val module name ty func) l := by
            rw [entriesOf_defined w.proc hb, if_pos hstate.symm]
            exact List.mem_append_right _ (List.mem_singleton_self _)
          exact ⟨_, hmem, rfl, shows_defined w.proc (hinv'.entry_ok hmem)⟩
        · rintro node d' ⟨n, hn', rfl, hshows⟩
          have hmem : n ∈ entriesOf (defined w.proc li.state b.val module name ty func)
              d'.linker := by
            rw [entriesOf_defined w.proc hb]
            exact List.mem_append_left _ hn'
          exact ⟨n, hmem, rfl, hshows.keep hf.heap (hinv'.entry_ok hmem)⟩

/-- A module that WAMR loads is a `Module`: the parser does not panic. -/
theorem newModule_loads (link : Linking) (c : Process F) (e : Engine) {bytes : List UInt8}
    (imports : List Import) (hsize : bytes.length ≤ isizeMax usizeBits) :
    ∃ mo, (Module.new link usizeBits c e bytes (.ok imports)).2 = .ok mo := by
  unfold Module.new
  simp only
  split
  · exact ⟨_, rfl⟩
  · exact ⟨_, rfl⟩
  · rename_i p hpanic
    exact absurd hpanic (parseMemoryType_ne_panic (lt_two_pow_of_le_isizeMax hsize) p)

theorem Refines.moduleNew (h : Refines w s) {e : Nat} {bytes : List UInt8} {loaded : LoadResult}
    (hs : w.step link usizeBits (.moduleNew e bytes loaded) = some w') :
    ∃ s', s.step link usizeBits (.moduleNew e bytes loaded) = some s' ∧ Refines w' s' := by
  cases step_iff.mp hs with
  | moduleNew _ _ _ en hsize he =>
    obtain ⟨_, he', -⟩ := h.engines.of_left he
    have hquiet := Quiet.newModule link usizeBits w.proc en bytes loaded
    cases loaded with
    | error errBuf =>
      refine ⟨{ s with modules := s.modules.skip }, by simp [Session.step, hsize, he'], ?_⟩
      exact h.quiet hs hquiet h.engines h.linkers (h.kept_modules _).skip (h.kept_instances _) rfl
    | ok imports =>
      refine ⟨{ s with modules := s.modules.push (imports.map (s.resolve link)) },
        by simp [Session.step, hsize, he'], ?_⟩
      refine h.quiet hs hquiet h.engines h.linkers ?_ (h.kept_instances _) rfl
      obtain ⟨mo, hmo⟩ := newModule_loads link w.proc en imports hsize
      simp only [hmo, addResult]
      refine (h.kept_modules _).push (Or.inr ?_)
      obtain ⟨imports', heq, himports, -⟩ := newModule_ok hmo
      cases heq
      show List.Forall₂ _
        ((Module.new link usizeBits w.proc en bytes (.ok imports)).1.importsOf mo) _
      rw [himports, List.forall₂_map_left_iff, List.forall₂_map_right_iff, List.forall₂_same]
      intro imp _
      rw [h.inv.resolve_alloc]
      exact h.resolve link imp

theorem Refines.instantiate (h : Refines w s) {l m : Nat} {result : InstantiateResult}
    (hs : w.step link usizeBits (.instantiate l m result) = some w') :
    ∃ s', s.step link usizeBits (.instantiate l m result) = some s' ∧ Refines w' s' := by
  cases step_iff.mp hs with
  | instantiate _ _ _ li mo hl hm =>
    obtain ⟨_, hl', -⟩ := h.linkers.of_left hl
    obtain ⟨bs, hm', hbs⟩ := h.modules.of_left hm
    refine ⟨_, by simp only [Session.step, hl', hm']; rfl, ?_⟩
    refine h.quiet hs (Quiet.linkerInstantiate _ _ _ _) h.engines h.linkers
      ((h.kept_modules _).erase m) ?_ rfl
    cases result with
    | ok =>
      refine (h.kept_instances _).push ⟨(h.bind.linker_state l li hl).symm, Or.inl ⟨?_, hbs⟩⟩
      exact Or.inl ⟨m, hm⟩
    | instantiateFailed errBuf => exact (h.kept_instances _).skip
    | execEnvFailed => exact (h.kept_instances _).skip

/-- What the API does in an operation, the session does, too. -/
theorem refines_forward (h : Refines w s) {op : Op F} (hs : w.step link usizeBits op = some w') :
    ∃ s', s.step link usizeBits op = some s' ∧ Refines w' s' := by
  cases op with
  | engineNew initOk => exact h.engineNew hs
  | linkerNew e => exact h.linkerNew hs
  | defineFunc l module name ty func registerOk => exact h.defineFunc hs
  | moduleNew e bytes loaded => exact h.moduleNew hs
  | instantiate l m result => exact h.instantiate hs
  | engineClone e =>
    cases step_iff.mp hs with
    | engineClone _ en he =>
      obtain ⟨_, he', -⟩ := h.engines.of_left he
      refine ⟨{ s with engines := s.engines.push () }, by simp [Session.step, he'], ?_⟩
      exact h.quiet hs (Quiet.cloneEngine _ _) (h.engines.push trivial) h.linkers
        (h.kept_modules _) (h.kept_instances _) rfl
  | engineDrop e =>
    cases step_iff.mp hs with
    | engineDrop _ en he =>
      obtain ⟨_, he', -⟩ := h.engines.of_left he
      refine ⟨{ s with engines := s.engines.erase e }, by simp [Session.step, Arena.take, he'], ?_⟩
      exact h.quiet hs (Quiet.dropEngine _ _) (h.engines.erase e) h.linkers
        (h.kept_modules _) (h.kept_instances _) rfl
  | linkerDrop l =>
    cases step_iff.mp hs with
    | linkerDrop _ li hl =>
      obtain ⟨_, hl', -⟩ := h.linkers.of_left hl
      refine ⟨{ s with linkers := s.linkers.erase l }, by simp [Session.step, Arena.take, hl'], ?_⟩
      exact h.quiet hs (Quiet.dropRc _ _) h.engines (h.linkers.erase l) (h.kept_modules _)
        (h.kept_instances _) rfl
  | moduleDrop m =>
    cases step_iff.mp hs with
    | moduleDrop _ mo hm =>
      obtain ⟨_, hm', -⟩ := h.modules.of_left hm
      refine ⟨{ s with modules := s.modules.erase m }, by simp [Session.step, Arena.take, hm'], ?_⟩
      exact h.quiet hs (Quiet.dropModule _ _) h.engines h.linkers ((h.kept_modules _).erase m)
        (h.kept_instances _) rfl
  | call i =>
    cases step_iff.mp hs with
    | call _ ins hi =>
      obtain ⟨_, hi', -⟩ := h.instances.of_left hi
      exact ⟨s, by simp [Session.step, hi'], h⟩
  | instanceDrop i =>
    cases step_iff.mp hs with
    | instanceDrop _ ins hi =>
      obtain ⟨_, hi', -⟩ := h.instances.of_left hi
      refine ⟨{ s with instances := s.instances.erase i },
        by simp [Session.step, Arena.take, hi'], ?_⟩
      exact h.quiet hs (Quiet.dropInstance _ _) h.engines h.linkers (h.kept_modules _)
        ((h.kept_instances _).erase i) rfl

/-- An operation that a program cannot make in the session, it cannot make in the API. -/
theorem refines_backward (h : Refines w s) {op : Op F} (hs : s.step link usizeBits op = some s') :
    ∃ w', w.step link usizeBits op = some w' := by
  -- Each operation asks for values, and the same values are alive.
  cases op with
  | engineNew initOk => exact ⟨_, rfl⟩
  | engineClone e =>
    obtain ⟨_, he', -⟩ := Option.map_eq_some_iff.mp hs
    obtain ⟨en, he, -⟩ := h.engines.of_right he'
    exact ⟨_, step_iff.mpr (.engineClone e en he)⟩
  | engineDrop e =>
    obtain ⟨_, htake, -⟩ := Option.map_eq_some_iff.mp hs
    obtain ⟨_, he', -⟩ := Option.map_eq_some_iff.mp htake
    obtain ⟨en, he, -⟩ := h.engines.of_right he'
    exact ⟨_, step_iff.mpr (.engineDrop e en he)⟩
  | linkerNew e =>
    obtain ⟨_, he', -⟩ := Option.map_eq_some_iff.mp hs
    obtain ⟨en, he, -⟩ := h.engines.of_right he'
    exact ⟨_, step_iff.mpr (.linkerNew e en he)⟩
  | defineFunc l module name ty func registerOk =>
    obtain ⟨_, hl', -⟩ := Option.map_eq_some_iff.mp hs
    obtain ⟨li, hl, -⟩ := h.linkers.of_right hl'
    exact ⟨_, step_iff.mpr (.defineFunc l module name ty func registerOk li hl)⟩
  | linkerDrop l =>
    obtain ⟨_, htake, -⟩ := Option.map_eq_some_iff.mp hs
    obtain ⟨_, hl', -⟩ := Option.map_eq_some_iff.mp htake
    obtain ⟨li, hl, -⟩ := h.linkers.of_right hl'
    exact ⟨_, step_iff.mpr (.linkerDrop l li hl)⟩
  | moduleNew e bytes loaded =>
    simp only [Session.step] at hs
    split at hs
    · rename_i hsize
      obtain ⟨_, he', -⟩ := Option.map_eq_some_iff.mp hs
      obtain ⟨en, he, -⟩ := h.engines.of_right he'
      exact ⟨_, step_iff.mpr (.moduleNew e bytes loaded en hsize he)⟩
    · cases hs
  | moduleDrop m =>
    obtain ⟨_, htake, -⟩ := Option.map_eq_some_iff.mp hs
    obtain ⟨_, hm', -⟩ := Option.map_eq_some_iff.mp htake
    obtain ⟨mo, hm, -⟩ := h.modules.of_right hm'
    exact ⟨_, step_iff.mpr (.moduleDrop m mo hm)⟩
  | instantiate l m result =>
    simp only [Session.step] at hs
    split at hs
    · rename_i bs hl' hm'
      obtain ⟨li, hl, -⟩ := h.linkers.of_right hl'
      obtain ⟨mo, hm, -⟩ := h.modules.of_right hm'
      exact ⟨_, step_iff.mpr (.instantiate l m result li mo hl hm)⟩
    · cases hs
  | call i =>
    obtain ⟨_, hi', -⟩ := Option.map_eq_some_iff.mp hs
    obtain ⟨ins, hi, -⟩ := h.instances.of_right hi'
    exact ⟨_, step_iff.mpr (.call i ins hi)⟩
  | instanceDrop i =>
    obtain ⟨_, htake, -⟩ := Option.map_eq_some_iff.mp hs
    obtain ⟨_, hi', -⟩ := Option.map_eq_some_iff.mp htake
    obtain ⟨ins, hi, -⟩ := h.instances.of_right hi'
    exact ⟨_, step_iff.mpr (.instanceDrop i ins hi)⟩

theorem refines_step (w : World F) (s : Session F) (op : Op F) (h : Refines w s) :
    Option.Rel Refines (w.step link usizeBits op) (s.step link usizeBits op) := by
  cases hw : w.step link usizeBits op with
  | none =>
    cases hs : s.step link usizeBits op with
    | none => exact .none
    | some s' =>
      obtain ⟨w', hw'⟩ := refines_backward h hs
      rw [hw] at hw'
      cases hw'
  | some w' =>
    obtain ⟨s', hs, hR⟩ := refines_forward h hw
    rw [hs]
    exact .some hR

/-! ### What the user sees -/

/-- The same values are alive, and each import of each instance calls the same. -/
structure Agree (w : World F) (s : Session F) : Prop where
  engines : ∀ e, (w.engines.get? e).isSome = (s.engines.get? e).isSome
  linkers : ∀ l, (w.linkers.get? l).isSome = (s.linkers.get? l).isSome
  modules : ∀ m, (w.modules.get? m).isSome = (s.modules.get? m).isSome
  instances : ∀ i, (w.instances.get? i).isSome = (s.instances.get? i).isSome
  dispatch : ∀ i k, w.dispatch i k = s.dispatch i k

/-- What an import calls on both sides. -/
theorem SameTarget.dispatch {b : BoundImport} {b' : Binding F} (h : SameTarget c s b b') :
    c.dispatchImport b = s.dispatchBinding b' := by
  cases h with
  | unlinked imp => rfl
  | linked imp addr d hd =>
    simp only [Process.dispatchImport, Session.dispatchBinding]
    cases hcounts : s.holds d.linker with
    | true =>
      obtain ⟨n, -, rfl, hshows⟩ := hd.counts hcounts
      rw [hshows.context]
      rfl
    | false =>
      rw [hd.gone hcounts]
      rfl

theorem Refines.dispatch (h : Refines w s) (i k : Nat) : w.dispatch i k = s.dispatch i k := by
  unfold World.dispatch Session.dispatch
  cases hi : w.instances.get? i with
  | none => rw [(h.instances.none_iff i).mp hi]; rfl
  | some ins =>
    obtain ⟨ins', hi', -, hsame⟩ := h.instances.of_left hi
    rw [hi']
    simp only [Option.bind_eq_bind, Option.bind_some, Option.pure_def]
    cases hk : (w.proc.importsOf ins.module)[k]? with
    | none =>
      have hnone : ins'.bindings[k]? = none := by
        rw [List.getElem?_eq_none_iff] at hk ⊢
        rwa [← hsame.length_eq]
      rw [hnone, Option.bind_none, Option.bind_none]
    | some b =>
      obtain ⟨hlt, rfl⟩ := List.getElem?_eq_some_iff.mp hk
      have hlt' : k < ins'.bindings.length := hsame.length_eq ▸ hlt
      rw [List.getElem?_eq_getElem hlt', Option.bind_some, Option.bind_some]
      exact congrArg some ((List.forall₂_iff_get.mp hsame).2 k hlt hlt').dispatch

theorem Refines.agree (h : Refines w s) : Agree w s := by
  have hlive : ∀ {α β : Type} {P : α → β → Prop} {a : Arena α} {b : Arena β}, Arena.Rel P a b →
      ∀ i, (a.get? i).isSome = (b.get? i).isSome := by
    intro α β P a b hR i
    cases ha : a.get? i with
    | none => rw [(hR.none_iff i).mp ha]; rfl
    | some x =>
      obtain ⟨y, hy, -⟩ := hR.of_left ha
      rw [hy]
      rfl
  exact ⟨hlive h.engines, hlive h.linkers, hlive h.modules, hlive h.instances, h.dispatch⟩

/-- Every run of the API from a related state. -/
theorem refines_run (h : Refines w s) (ops : List (Op F)) :
    Option.Rel Refines (run (World.step link usizeBits) w ops)
      (run (Session.step link usizeBits) s ops) :=
  run_rel Refines refines_step h ops

/-- What the user sees of such runs. -/
theorem Refines.agree_run (h : Refines w s) (link : Linking) (usizeBits : Nat) (ops : List (Op F)) :
    Option.Rel Agree (run (World.step link usizeBits) w ops)
      (run (Session.step link usizeBits) s ops) :=
  optionRel_imp (fun _ _ hR => hR.agree) (refines_run h ops)

/-- The session of a run of the API. -/
theorem session_of_run {ops : List (Op F)}
    (h : run (World.step link usizeBits) World.init ops = some w) :
    ∃ s, run (Session.step link usizeBits) Session.init ops = some s ∧ Refines w s := by
  have hrel : Option.Rel Refines (run (World.step link usizeBits) World.init ops)
      (run (Session.step link usizeBits) Session.init ops) := refines_run refines_init ops
  rw [h] at hrel
  exact optionRel_some hrel

/-- The API does what a session says, on every run: with any number of engines, linkers, modules
and instances, with failures of WAMR at any point, and with drops in any order. A run that is
possible on one side is possible on the other. Then the same values are alive, and each import of
each instance calls the same. -/
theorem session_refines (link : Linking) (usizeBits : Nat) (ops : List (Op F)) :
    Option.Rel Agree (run (World.step link usizeBits) World.init ops)
      (run (Session.step link usizeBits) Session.init ops) :=
  refines_init.agree_run link usizeBits ops

end Wamrx.Proofs
