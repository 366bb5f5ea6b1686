import Wamrx.Proofs.Worlds

/-!
# `Wamrx.Proofs.DanglingHostFunctions`: whose context an import points at

A module is bound to contexts when it is loaded, and an instance keeps the `LinkerState` of the
linker that instantiated it. Nothing ties the two together. `Safe w` says that every pointer
that a live instance was bound to designates a context of a live `LinkerState`, and
`KeepsHostFunctions` is the condition on each step under which it stays so:

* an instance is made only of a module whose contexts are alive;
* the last reference to a `LinkerState` is dropped only when no other instance is bound to it.

`host_functions_alive` says that a run is safe in all its states exactly when its steps meet the
condition. `host_function_dangles` is a run that does not.
-/

set_option autoImplicit false

namespace Wamrx.Proofs

open Support

variable {F : Type} {link : Linking} {usizeBits : Nat} {w w' : World F} {c c' : Process F}

/-- The context belongs to an entry of a live `LinkerState`. -/
def OwnedContext (c : Process F) (addr : Nat) : Prop :=
  ∃ ptr s, Rc.deref? c.states ptr = some s ∧ ∃ n ∈ s.entries, n.context = addr

/-- An import of the module is bound to an entry of the `LinkerState`. -/
def BoundToState (c : Process F) (m : Module) (ptr : Nat) : Prop :=
  ∃ b ∈ c.importsOf m, ∃ addr, b.attachment = some addr ∧
    ∃ s, Rc.deref? c.states ptr = some s ∧ ∃ n ∈ s.entries, n.context = addr

/-- All contexts that the module is bound to are owned. -/
def ContextsOwned (c : Process F) (m : Module) : Prop :=
  ∀ b ∈ c.importsOf m, ∀ addr, b.attachment = some addr → OwnedContext c addr

/-- No live instance is bound to a context that is gone. -/
def Safe (w : World F) : Prop :=
  ∀ i ins, w.instances.get? i = some ins → ContextsOwned w.proc ins.module

/-- The step does not take the host functions of an instance away. -/
def KeepsHostFunctions (w : World F) : Op F → Prop
  | .instantiate _ m .ok => ∀ mo, w.modules.get? m = some mo → ContextsOwned w.proc mo
  | .linkerDrop l => ∀ li, w.linkers.get? l = some li →
      Rc.strongCount w.proc.states li.state = 1 →
      ∀ i ins, w.instances.get? i = some ins → ¬ BoundToState w.proc ins.module li.state
  | .instanceDrop i => ∀ ins, w.instances.get? i = some ins →
      Rc.strongCount w.proc.states ins.linkerState = 1 →
      ∀ j jns, j ≠ i → w.instances.get? j = some jns →
        ¬ BoundToState w.proc jns.module ins.linkerState
  | .engineNew _ | .engineClone _ | .engineDrop _ | .linkerNew _ | .defineFunc .. | .moduleNew ..
  | .moduleDrop _ | .instantiate _ _ (.instantiateFailed _) | .instantiate _ _ .execEnvFailed
  | .call _ => True

/-! ### What a step preserves -/

/-- A quiet step adds no owner. -/
theorem Quiet.owned_old (h : Quiet c c') {addr : Nat} (howned : OwnedContext c' addr) :
    OwnedContext c addr := by
  obtain ⟨ptr, s, hs, n, hn, hctx⟩ := howned
  rcases Nat.lt_or_ge ptr c.states.next with hlt | hge
  · exact ⟨ptr, s, h.states_old ptr s hlt hs, n, hn, hctx⟩
  · rw [h.states_new ptr s hge hs] at hn
    simp at hn

/-- A `LinkerState` that is still referenced keeps its contexts. -/
theorem owned_of_referenced (hfollows : Follows w.proc w'.proc) (h' : Inv w'.proc (valuesOf w'))
    {ptr addr : Nat} {s : LinkerState} (hs : Rc.deref? w.proc.states ptr = some s)
    {n : NativeEntry} (hn : n ∈ s.entries) (hctx : n.context = addr)
    (hptr : ptr ∈ stateRefsOf (valuesOf w')) : OwnedContext w'.proc addr := by
  obtain ⟨s', hs'⟩ := h'.states.deref?_of_mem hptr
  exact ⟨ptr, s', hs', n, (hfollows.entries_prefix hs hs').subset hn, hctx⟩

/-- A step that keeps all references keeps all owners. -/
theorem owned_of_refs (h : Inv w.proc (valuesOf w)) (hfollows : Follows w.proc w'.proc)
    (h' : Inv w'.proc (valuesOf w'))
    (hrefs : ∀ ptr ∈ stateRefsOf (valuesOf w), ptr ∈ stateRefsOf (valuesOf w')) {addr : Nat}
    (howned : OwnedContext w.proc addr) : OwnedContext w'.proc addr := by
  obtain ⟨ptr, s, hs, n, hn, hctx⟩ := howned
  obtain ⟨k, hk⟩ := Rc.deref?_eq_some.mp hs
  exact owned_of_referenced hfollows h' hs hn hctx (hrefs ptr ((h.states.live_iff ptr).mp ⟨_, hk⟩))

/-- A step that makes no instance and keeps all references is safe. -/
theorem safe_of_refs (h : Inv w.proc (valuesOf w)) (hfollows : Follows w.proc w'.proc)
    (h' : Inv w'.proc (valuesOf w'))
    (hrefs : ∀ ptr ∈ stateRefsOf (valuesOf w), ptr ∈ stateRefsOf (valuesOf w'))
    (hinsts : ∀ i ins, w'.instances.get? i = some ins → w.instances.get? i = some ins)
    (hsafe : Safe w) : Safe w' := by
  intro i ins hi b hb addr haddr
  rw [importsOf_eq hfollows (h.instance_loaded (hinsts i ins hi)) (h'.instance_loaded hi)] at hb
  exact owned_of_refs h hfollows h' hrefs (hsafe i ins (hinsts i ins hi) b hb addr haddr)

/-- The drop of one reference to a `LinkerState` is safe exactly when it is not the last one, or
when no remaining instance is bound to the `LinkerState`. -/
theorem safe_drop_iff (h : Inv w.proc (valuesOf w)) (hquiet : Quiet w.proc w'.proc)
    (h' : Inv w'.proc (valuesOf w')) {ptr : Nat}
    (hrefs : stateRefsOf (valuesOf w) = ptr ::ₘ stateRefsOf (valuesOf w'))
    (hinsts : ∀ i ins, w'.instances.get? i = some ins → w.instances.get? i = some ins)
    (hsafe : Safe w) :
    Safe w' ↔ (Rc.strongCount w.proc.states ptr = 1 →
      ∀ i ins, w'.instances.get? i = some ins → ¬ BoundToState w.proc ins.module ptr) := by
  have himports : ∀ {i ins}, w'.instances.get? i = some ins →
      w'.proc.importsOf ins.module = w.proc.importsOf ins.module := fun {i ins} hi =>
    importsOf_eq hquiet.follows (h.instance_loaded (hinsts i ins hi)) (h'.instance_loaded hi)
  -- The strong count is the number of references before the step, and one of them goes.
  have hlast : Rc.strongCount w.proc.states ptr = 1 ↔ ptr ∉ stateRefsOf (valuesOf w') := by
    rw [h.states.count, hrefs, Multiset.count_cons_self, ← Multiset.count_eq_zero]
    omega
  rw [hlast]
  constructor
  · rintro hsafe' hgone i ins hi ⟨b, hb, addr, haddr, s, hs, n, hn, hctx⟩
    -- After the step another `LinkerState` owns the context, and so it did before.
    rw [← himports hi] at hb
    obtain ⟨ptr', s', hs', n', hn', hctx'⟩ := hsafe' i ins hi b hb addr haddr
    obtain ⟨k', hk'⟩ := Rc.deref?_eq_some.mp hs'
    have hmem' := (h'.states.live_iff ptr').mp ⟨_, hk'⟩
    have hlt : ptr' < w.proc.states.next := by
      by_contra hge
      rw [hquiet.states_new ptr' s' (by omega) hs'] at hn'
      simp at hn'
    have hold := hquiet.states_old ptr' s' hlt hs'
    have heq := h.context_unique hs hn hold hn' (hctx.trans hctx'.symm)
    exact hgone (heq ▸ hmem')
  · intro hcond i ins hi b hb addr haddr
    rw [himports hi] at hb
    obtain ⟨ptr', s', hs', n', hn', hctx'⟩ := hsafe i ins (hinsts i ins hi) b hb addr haddr
    refine owned_of_referenced hquiet.follows h' hs' hn' hctx' ?_
    obtain ⟨k', hk'⟩ := Rc.deref?_eq_some.mp hs'
    have hmem := (h.states.live_iff ptr').mp ⟨_, hk'⟩
    rw [hrefs] at hmem
    rcases Multiset.mem_cons.mp hmem with rfl | hmem
    -- Its owner is the dropped `LinkerState`, or one that is still referenced.
    · by_contra hgone
      exact hcond hgone i ins hi ⟨b, hb, addr, haddr, s', hs', n', hn', hctx'⟩
    · exact hmem

/-- Linkers and instances that stay keep their references. -/
theorem stateRefs_mono (hl : ∀ l li, w.linkers.get? l = some li → w'.linkers.get? l = some li)
    (hi : ∀ i ins, w.instances.get? i = some ins → w'.instances.get? i = some ins) :
    ∀ ptr ∈ stateRefsOf (valuesOf w), ptr ∈ stateRefsOf (valuesOf w') := by
  intro ptr hptr
  rw [mem_stateRefsOf_valuesOf] at hptr ⊢
  rcases hptr with ⟨l, li, hli, heq⟩ | ⟨i, ins, hins, heq⟩
  · exact Or.inl ⟨l, li, hl l li hli, heq⟩
  · exact Or.inr ⟨i, ins, hi i ins hins, heq⟩

/-- A new instance is safe exactly when the contexts of its module are owned. -/
theorem safe_new_iff (h : Inv w.proc (valuesOf w)) (hquiet : Quiet w.proc w'.proc)
    (h' : Inv w'.proc (valuesOf w')) {m : Nat} {mo : Module} {new : Instance}
    (hm : w.modules.get? m = some mo) (hmodule : new.module = mo)
    (hlinkers : w'.linkers = w.linkers) (hinsts : w'.instances = w.instances.push new)
    (hsafe : Safe w) : Safe w' ↔ ContextsOwned w.proc mo := by
  have hnew : w'.instances.get? w.instances.next = some new := by
    rw [hinsts, Arena.get?_push_next]
  have himports : w'.proc.importsOf mo = w.proc.importsOf mo := by
    refine importsOf_eq hquiet.follows (h.module_loaded hm) ?_
    rw [← hmodule]
    exact h'.instance_loaded hnew
  have hrefs := @stateRefs_mono F w w' (fun l li hl => by rwa [hlinkers])
    fun i ins hi => by rw [hinsts]; exact Arena.get?_push_of_some _ hi
  constructor
  · intro hsafe' b hb addr haddr
    rw [← himports, ← hmodule] at hb
    exact hquiet.owned_old (hsafe' _ new hnew b hb addr haddr)
  · intro howned i ins hi b hb addr haddr
    refine owned_of_refs h hquiet.follows h' hrefs ?_
    rw [hinsts, Arena.get?_push] at hi
    split at hi
    · obtain rfl := Option.some.inj hi
      rw [hmodule, himports] at hb
      exact howned b hb addr haddr
    · have hlive : w'.instances.get? i = some ins := by
        rw [hinsts]
        exact Arena.get?_push_of_some _ hi
      rw [importsOf_eq hquiet.follows (h.instance_loaded hi) (h'.instance_loaded hlive)] at hb
      exact hsafe i ins hi b hb addr haddr

/-- From a safe state, a step leads to a safe state exactly when it keeps the host functions. -/
theorem safe_step_iff (w : World F) (op : Op F) (w' : World F) (h : Inv w.proc (valuesOf w))
    (hsafe : Safe w) (hs : w.step link usizeBits op = some w') :
    Safe w' ↔ KeepsHostFunctions w op := by
  have h' := inv_step w op w' h hs
  have hfollows := step_follows w op w' h hs
  -- Most operations keep the linkers and make no instance.
  have hkeep : (∀ l li, w.linkers.get? l = some li → w'.linkers.get? l = some li) →
      (∀ i, w'.instances.get? i = w.instances.get? i) → Safe w' := fun hl hi =>
    safe_of_refs h hfollows h' (stateRefs_mono hl fun i ins hins => (hi i).trans hins)
      (fun i ins hins => (hi i).symm.trans hins) hsafe
  cases step_iff.mp hs with
  | engineNew _ | engineClone _ _ _ | engineDrop _ _ _ | defineFunc _ _ _ _ _ _ _ _
  | moduleNew _ _ _ _ _ _ | moduleDrop _ _ _ =>
    exact iff_of_true (hkeep (fun _ _ hl => hl) fun _ => rfl) trivial
  | linkerNew e en he =>
    exact iff_of_true (hkeep (fun _ _ hl => Arena.get?_push_of_some _ hl) fun _ => rfl) trivial
  | linkerDrop l li hl =>
    have hrefs := congrArg stateRefsOf (valuesOf_eraseLinker hl (li.drop w.proc))
    rw [stateRefsOf_cons, Owned.stateRefs, Multiset.singleton_add] at hrefs
    rw [safe_drop_iff h (Quiet.dropRc _ _) h' hrefs (fun _ _ hi => hi) hsafe]
    constructor
    · intro hcond li' hl'
      obtain rfl := Option.some.inj (hl.symm.trans hl')
      exact hcond
    · intro hcond
      exact hcond li hl
  | instantiate l m result li mo hl hm =>
    have hquiet := Quiet.linkerInstantiate w.proc li mo result
    cases result with
    | instantiateFailed errBuf =>
      exact iff_of_true (hkeep (fun _ _ hl => hl) fun i => Arena.get?_skip _ _) trivial
    | execEnvFailed =>
      exact iff_of_true (hkeep (fun _ _ hl => hl) fun i => Arena.get?_skip _ _) trivial
    | ok =>
      rw [safe_new_iff h hquiet h' hm rfl rfl rfl hsafe]
      constructor
      · intro howned mo' hm'
        obtain rfl := Option.some.inj (hm.symm.trans hm')
        exact howned
      · intro hcond
        exact hcond mo hm
  | call i ins hi => exact iff_of_true hsafe trivial
  | instanceDrop i ins hi =>
    have hrefs := congrArg stateRefsOf (valuesOf_eraseInstance hi (ins.drop w.proc))
    rw [stateRefsOf_cons, Owned.stateRefs, Multiset.singleton_add] at hrefs
    -- The other instances are those with another number.
    have hget : ∀ j jns, (w.instances.erase i).get? j = some jns ↔
        j ≠ i ∧ w.instances.get? j = some jns := by
      intro j jns
      rw [Arena.get?_erase]
      split <;> simp [*]
    rw [safe_drop_iff h (Quiet.dropInstance _ _) h' hrefs (fun j jns hj => ((hget j jns).mp hj).2)
      hsafe]
    constructor
    · intro hcond ins' hi' hlast j jns hne hj
      obtain rfl := Option.some.inj (hi.symm.trans hi')
      exact hcond hlast j jns ((hget j jns).mpr ⟨hne, hj⟩)
    · intro hcond hlast j jns hj
      obtain ⟨hne, hj⟩ := (hget j jns).mp hj
      exact hcond ins hi hlast j jns hne hj

/-! ### Host calls -/

/-- In a safe state, the trampoline finds a context behind every pointer it gets. -/
theorem dispatch_ne_dangling (h : Inv w.proc (valuesOf w)) (hsafe : Safe w) (i k : Nat) :
    w.dispatch i k ≠ some .dangling := by
  intro hdispatch
  simp only [World.dispatch, Option.bind_eq_bind, Option.bind_eq_some_iff, Option.pure_def,
    Option.some.injEq] at hdispatch
  obtain ⟨ins, hi, b, hb, hdangling⟩ := hdispatch
  unfold Process.dispatchImport at hdangling
  split at hdangling
  · cases hdangling
  · rename_i addr haddr
    obtain ⟨ptr, s, hs, n, hn, hctx⟩ := hsafe i ins hi b (List.mem_of_getElem? hb) addr haddr
    obtain ⟨ty, func, hcell, -⟩ := (h.entryOk hs hn).context
    rw [hctx] at hcell
    simp [hcell] at hdangling

/-- The pointers that the live instances were bound to designate contexts of live
`LinkerState`s in all states of a run, exactly when no step of the run takes a host function
away. In every such state, the trampoline never follows a dangling pointer. -/
theorem host_functions_alive (link : Linking) (usizeBits : Nat) (ops : List (Op F)) (w : World F)
    (h : run (World.step link usizeBits) World.init ops = some w) :
    (AllStates (World.step link usizeBits) Safe World.init ops ↔
      AllSteps (World.step link usizeBits) KeepsHostFunctions World.init ops) ∧
    (Safe w → ∀ i k, w.dispatch i k ≠ some .dangling) := by
  refine ⟨?_, dispatch_ne_dangling (inv_run h)⟩
  refine allStates_iff_allSteps (I := fun w : World F => Inv w.proc (valuesOf w)) inv_step
    safe_step_iff inv_init ?_ h
  intro i ins hi
  simp [World.init] at hi

/-- One linker defines a function, loads a module against it and instantiates it. The linker is
dropped first, and the instance keeps its `LinkerState`. -/
def ownLinkerRun : List (Op Unit) :=
  [.engineNew true, .linkerNew 0, .defineFunc 0 [0x6d] [0x66] ⟨[], []⟩ () true,
    .moduleNew 0 [] (.ok [⟨[0x6d], [0x66], ⟨[], []⟩⟩]), .instantiate 0 0 .ok, .linkerDrop 0,
    .call 0]

/-- The only module points at a context of a live `LinkerState` when it is instantiated, and the
linker is not the last one to go. -/
theorem keepsHostFunctions_ownLinkerRun :
    AllSteps (World.step wamrLink 64) KeepsHostFunctions World.init ownLinkerRun := by
  refine (allSteps_cons rfl).mpr ⟨trivial, ?_⟩
  refine (allSteps_cons rfl).mpr ⟨trivial, ?_⟩
  refine (allSteps_cons rfl).mpr ⟨trivial, ?_⟩
  refine (allSteps_cons rfl).mpr ⟨trivial, ?_⟩
  refine (allSteps_cons rfl).mpr ⟨?_, ?_⟩
  · intro mo hmo b hb addr haddr
    cases hmo
    cases List.mem_singleton.mp hb
    cases haddr
    exact ⟨0, _, rfl, _, List.mem_singleton_self _, rfl⟩
  refine (allSteps_cons rfl).mpr ⟨?_, ?_⟩
  · intro li hli hlast
    cases hli
    exact absurd hlast (by decide)
  exact (allSteps_cons rfl).mpr ⟨trivial, allSteps_nil⟩

/-- The run meets the condition, so it is safe in all its states, and the call reaches the
closure. -/
theorem host_functions_alive_ownLinkerRun :
    ∃ w, run (World.step wamrLink 64) World.init ownLinkerRun = some w ∧
      w.dispatch 0 0 = some (.closure ()) ∧
      AllSteps (World.step wamrLink 64) KeepsHostFunctions World.init ownLinkerRun ∧
      AllStates (World.step wamrLink 64) Safe World.init ownLinkerRun := by
  obtain ⟨w, hw⟩ := Option.isSome_iff_exists.mp
    (show (run (World.step wamrLink 64) World.init ownLinkerRun).isSome by decide)
  have hdispatch : (run (World.step wamrLink 64) World.init ownLinkerRun).bind (·.dispatch 0 0)
      = some (.closure ()) := by decide
  rw [hw] at hdispatch
  exact ⟨w, hw, hdispatch, keepsHostFunctions_ownLinkerRun,
    (host_functions_alive wamrLink 64 ownLinkerRun w hw).1.mpr keepsHostFunctions_ownLinkerRun⟩

/-- A module that was loaded against one linker and instantiated by another one: the drop of the
first linker frees the context, and the import is called afterwards. -/
def otherLinkerRun : List (Op Unit) :=
  [.engineNew true, .linkerNew 0, .linkerNew 0, .defineFunc 0 [0x6d] [0x66] ⟨[], []⟩ () true,
    .moduleNew 0 [] (.ok [⟨[0x6d], [0x66], ⟨[], []⟩⟩]), .instantiate 1 0 .ok, .linkerDrop 0,
    .call 0]

theorem host_function_dangles :
    ∃ w, run (World.step wamrLink 64) World.init otherLinkerRun = some w ∧
      w.dispatch 0 0 = some .dangling ∧ ¬ Safe w := by
  obtain ⟨w, hw⟩ := Option.isSome_iff_exists.mp
    (show (run (World.step wamrLink 64) World.init otherLinkerRun).isSome by decide)
  have hdispatch : (run (World.step wamrLink 64) World.init otherLinkerRun).bind (·.dispatch 0 0)
      = some .dangling := by decide
  rw [hw] at hdispatch
  exact ⟨w, hw, hdispatch, fun hsafe => dispatch_ne_dangling (inv_run hw) hsafe 0 0 hdispatch⟩

end Wamrx.Proofs
