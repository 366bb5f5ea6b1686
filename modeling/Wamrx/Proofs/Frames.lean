import Wamrx.Proofs.EntryRules

/-!
# `Wamrx.Proofs.Frames`: what the operations leave alone

`Quiet c c'` says what all operations have in common, except a `define_func` that succeeds:
heap blocks and loaded modules are made and removed but never overwritten, nothing new is
registered, and no `LinkerState` gets another entry. The trace grows by `Proper` events: what is
acquired relies on what it should. `Quiet.trans` composes it along the source.

The `_states` lemmas say which operations touch the `Rc` boxes of the `LinkerState`s.
-/

set_option autoImplicit false

namespace Wamrx.Proofs

open Support Support.Lifetime

variable {F : Type} {c c' c'' : Process F}

/-! ### The boxes of the linker states, and the registry -/

/-- An allocation leaves the `LinkerState`s alone. -/
@[simp] theorem alloc_states (c : Process F) (cell : Cell F) : (c.alloc cell).1.states = c.states :=
  rfl

/-- So does a deallocation. -/
@[simp] theorem free_states (c : Process F) (addr : Nat) : (c.free addr).states = c.states := rfl

/-- An allocation registers nothing. -/
@[simp] theorem alloc_registry (c : Process F) (cell : Cell F) :
    (c.alloc cell).1.registry = c.registry := rfl

/-- A deallocation unregisters nothing. -/
@[simp] theorem free_registry (c : Process F) (addr : Nat) :
    (c.free addr).registry = c.registry := rfl

/-- Calls of the runtime know nothing of `LinkerState`s. -/
@[simp] theorem foldl_runtimeCall_states (calls : List RuntimeCall) (c : Process F) :
    (calls.foldl Process.runtimeCall c).states = c.states := by
  induction calls generalizing c with
  | nil => rfl
  | cons call calls ih =>
    rw [List.foldl_cons, ih]
    rcases call with ⟨_ | _⟩ | _ <;> rfl

/-- `Engine::new` touches no `LinkerState`. -/
@[simp] theorem newEngine_states (c : Process F) (initOk : Bool) :
    (c.newEngine initOk).1.states = c.states := foldl_runtimeCall_states _ _

/-- Nor does the clone of an engine. -/
@[simp] theorem cloneEngine_states (c : Process F) (e : Engine) :
    (c.cloneEngine e).states = c.states := rfl

/-- Nor does the drop of an engine, also of the last one. -/
@[simp] theorem dropEngine_states (c : Process F) (e : Engine) :
    (c.dropEngine e).states = c.states := by
  unfold Process.dropEngine
  simp only
  split
  · exact foldl_runtimeCall_states _ _
  · rfl

/-- `wasm_runtime_unregister_natives` works on the registry only. -/
@[simp] theorem unregisterNatives_states (c : Process F) (moduleName symbols : Nat) :
    (c.unregisterNatives moduleName symbols).states = c.states := by
  unfold Process.unregisterNatives
  simp only
  split <;> rfl

/-- The same, for all entries of a `LinkerState`. -/
@[simp] theorem foldl_unregister_states (ns : List NativeEntry) (c : Process F) :
    (ns.foldl (fun c n => c.unregisterNatives n.moduleName n.symbol) c).states = c.states := by
  induction ns generalizing c with
  | nil => rfl
  | cons n ns ih => rw [List.foldl_cons, ih, unregisterNatives_states]

/-- The drop of entries frees their blocks, and touches no `LinkerState`. -/
@[simp] theorem foldl_dropEntry_states (ns : List NativeEntry) (c : Process F) :
    (ns.foldl NativeEntry.drop c).states = c.states := by
  induction ns generalizing c with
  | nil => rfl
  | cons n ns ih => rw [List.foldl_cons, ih]; rfl

/-- The drop of the contents of a box does not touch the other boxes. -/
@[simp] theorem dropState_states (c : Process F) (s : LinkerState) :
    (s.drop c).states = c.states := by
  unfold LinkerState.drop
  cases s.buf <;> simp

/-- The drop of a reference is that of `Rc`, whatever the last one takes along. -/
@[simp] theorem dropRc_states (c : Process F) (ptr : Nat) :
    (LinkerState.dropRc c ptr).states = (Rc.drop c.states ptr).1 := by
  unfold LinkerState.dropRc
  simp only
  split <;> simp

/-- A module holds no reference to a `LinkerState`. -/
@[simp] theorem dropModule_states (c : Process F) (m : Module) :
    (m.drop c).states = c.states := by
  simp [Module.drop, Process.unload, Process.release]

/-- Loading a module touches no `LinkerState`, whatever the outcome. -/
@[simp] theorem newModule_states (link : Linking) (usizeBits : Nat) (c : Process F) (e : Engine)
    (bytes : List UInt8) (loaded : LoadResult) :
    (Module.new link usizeBits c e bytes loaded).1.states = c.states := by
  unfold Module.new
  cases loaded with
  | error errBuf => rfl
  | ok imports =>
    simp only
    split <;> rfl

/-- The drop of an instance drops the reference that it holds. -/
@[simp] theorem dropInstance_states (c : Process F) (i : Instance) :
    (i.drop c).states = (Rc.drop c.states i.linkerState).1 := by
  simp [Instance.drop, Process.destroyExecEnv, Process.deinstantiate, Process.release]

/-! ### Growing traces -/

/-- What a resource relies on. A handle relies on the handle it was made from, or on the blocks
that WAMR got pointers to, and on the runtime. -/
def ReliesOn : Resource → List Resource → Prop
  | .runtime _, deps => deps = []
  | .block _, deps => deps = []
  | .natives node, deps => ∃ (n : NativeEntry) (k : Nat), n.node = node ∧
      deps = n.blocks.map Resource.block ++ [.runtime k]
  | .module _, deps => ∃ addr k, deps = [.block addr, .runtime k]
  | .moduleInst _, deps => ∃ module k, deps = [.module module, .runtime k]
  | .execEnv _, deps => ∃ moduleInst k, deps = [.moduleInst moduleInst, .runtime k]

/-- An acquisition says what the resource should rely on. -/
def Proper : Act Resource → Prop
  | .acquire r deps => ReliesOn r deps
  | .release _ => True

/-- The second trace has more events, all of them proper. -/
def Grows (tr tr' : List (Act Resource)) : Prop := ∃ new, tr' = tr ++ new ∧ ∀ a ∈ new, Proper a

/-- A trace that stays as it is. -/
theorem Grows.refl (tr : List (Act Resource)) : Grows tr tr := ⟨[], by simp, by simp⟩

/-- Two parts of a trace, one after the other. -/
theorem Grows.trans {tr tr' tr'' : List (Act Resource)} (h : Grows tr tr')
    (h' : Grows tr' tr'') : Grows tr tr'' := by
  obtain ⟨new, rfl, hnew⟩ := h
  obtain ⟨new', rfl, hnew'⟩ := h'
  refine ⟨new ++ new', by simp, ?_⟩
  intro a ha
  exact (List.mem_append.mp ha).elim (hnew a) (hnew' a)

/-- An acquisition that relies on what it should. -/
theorem grows_acquire (tr : List (Act Resource)) {r : Resource} {deps : List Resource}
    (h : ReliesOn r deps) : Grows tr (tr ++ [.acquire r deps]) :=
  ⟨_, rfl, by simpa [Proper] using h⟩

/-- A release at the end of the trace. -/
theorem grows_release (tr : List (Act Resource)) (r : Resource) :
    Grows tr (tr ++ [.release r]) := ⟨_, rfl, by simp [Proper]⟩

/-! ### Quiet operations -/

/-- Nothing is overwritten, nothing is registered, and the boxes get no new entry. -/
structure Quiet (c c' : Process F) : Prop where
  trace : Grows c.trace c'.trace
  heap : c.heap.Later c'.heap
  modules : c.modules.Later c'.modules
  registry : c'.registry.Sublist c.registry
  states_next : c.states.next ≤ c'.states.next
  states_old : ∀ ptr s, ptr < c.states.next → Rc.deref? c'.states ptr = some s →
    Rc.deref? c.states ptr = some s
  states_new : ∀ ptr s, c.states.next ≤ ptr → Rc.deref? c'.states ptr = some s → s.entries = []

namespace Quiet

/-- A pointer beyond the frontier reads nothing. -/
private theorem deref?_beyond {t : Rc.Table LinkerState} {ptr : Nat} (h : t.next ≤ ptr) :
    Rc.deref? t ptr = none := by
  simp [Rc.deref?, Arena.get?_of_next_le h]

/-- An operation that does not touch the boxes. -/
theorem of_states_eq (trace : Grows c.trace c'.trace) (heap : c.heap.Later c'.heap)
    (modules : c.modules.Later c'.modules) (registry : c'.registry.Sublist c.registry)
    (states : c'.states = c.states) : Quiet c c' := by
  refine ⟨trace, heap, modules, registry, by rw [states], fun ptr s _ h => by rwa [states] at h, ?_⟩
  intro ptr s hge h
  rw [states, deref?_beyond hge] at h
  cases h

/-- Nothing happens. -/
theorem refl (c : Process F) : Quiet c c :=
  of_states_eq (.refl _) (.refl _) (.refl _) (.refl _) rfl

/-- Two quiet changes, one after the other. -/
theorem trans (h : Quiet c c') (h' : Quiet c' c'') : Quiet c c'' := by
  refine ⟨h.trace.trans h'.trace, h.heap.trans h'.heap, h.modules.trans h'.modules,
    h'.registry.trans h.registry, Nat.le_trans h.states_next h'.states_next, ?_, ?_⟩
  · intro ptr s hlt hs
    exact h.states_old ptr s hlt (h'.states_old ptr s (Nat.lt_of_lt_of_le hlt h.states_next) hs)
  · intro ptr s hge hs
    -- The box was made by the first or by the second operation.
    rcases Nat.lt_or_ge ptr c'.states.next with hlt | hge'
    · exact h.states_new ptr s hge (h'.states_old ptr s hlt hs)
    · exact h'.states_new ptr s hge' hs

/-- Changing a count, or removing a box. -/
theorem setStates {t : Rc.Table LinkerState} (hnext : t.next = c.states.next)
    (h : ∀ ptr s, Rc.deref? t ptr = some s → Rc.deref? c.states ptr = some s) :
    Quiet c { c with states := t } := by
  refine ⟨.refl _, .refl _, .refl _, .refl _, Nat.le_of_eq hnext.symm,
    fun ptr s _ hs => h ptr s hs, ?_⟩
  intro ptr s hge hs
  rw [show Rc.deref? t ptr = none from deref?_beyond (by omega)] at hs
  cases hs

/-- A new block of the heap. -/
theorem alloc (c : Process F) (cell : Cell F) : Quiet c (c.alloc cell).1 :=
  of_states_eq (grows_acquire _ rfl) (Arena.later_push _ _) (.refl _) (.refl _) rfl

/-- A block of the heap goes. -/
theorem free (c : Process F) (addr : Nat) : Quiet c (c.free addr) :=
  of_states_eq (grows_release _ _) (Arena.later_erase _ _) (.refl _) (.refl _) rfl

/-- The registry loses a node, or WAMR does not find it. -/
theorem unregisterNatives (c : Process F) (moduleName symbols : Nat) :
    Quiet c (c.unregisterNatives moduleName symbols) := by
  unfold Process.unregisterNatives
  simp only
  split
  · exact of_states_eq (grows_release _ _) (.refl _) (.refl _) List.erase_sublist rfl
  · exact refl c

/-- The runtime starts or ends. -/
theorem runtimeCalls (calls : List RuntimeCall) (c : Process F) :
    Quiet c (calls.foldl Process.runtimeCall c) := by
  induction calls generalizing c with
  | nil => exact refl c
  | cons call calls ih =>
    refine Quiet.trans ?_ (ih (c.runtimeCall call))
    rcases call with ⟨_ | _⟩ | _
    -- A failed start, a start, and an end, which empties the registry.
    · exact refl c
    · exact of_states_eq (grows_acquire _ rfl) (.refl _) (.refl _) (.refl _) rfl
    · exact of_states_eq (grows_release _ _) (.refl _) (.refl _) (List.nil_sublist _) rfl

/-- Setting the engine counters. -/
theorem setEngine (c : Process F) (eng : EngineState) : Quiet c { c with eng := eng } :=
  of_states_eq (.refl _) (.refl _) (.refl _) (.refl _) rfl

/-- `Engine::clone`. -/
theorem cloneEngine (c : Process F) (e : Engine) : Quiet c (c.cloneEngine e) := setEngine c _

/-- `Engine::new`, also when it fails. -/
theorem newEngine (c : Process F) (initOk : Bool) : Quiet c (c.newEngine initOk).1 :=
  (setEngine c _).trans (runtimeCalls _ _)

/-- The drop of an engine, also of the last one. -/
theorem dropEngine (c : Process F) (e : Engine) : Quiet c (c.dropEngine e) := by
  unfold Process.dropEngine
  simp only
  split
  · exact (setEngine c _).trans (runtimeCalls _ _)
  · exact setEngine c _

/-- `wasm_runtime_unload`. -/
theorem unload (c : Process F) (handle : Nat) : Quiet c (c.unload handle) :=
  of_states_eq (grows_release _ _) (.refl _) (Arena.later_erase _ _) (.refl _) rfl

/-- `wasm_runtime_load`, with any rule for the imports. -/
theorem load (link : Linking) (c : Process F) (buf : Nat) (imports : List Import) :
    Quiet c (c.load link buf imports).1 :=
  of_states_eq (grows_acquire _ ⟨buf, _, rfl⟩) (.refl _) (Arena.later_push _ _) (.refl _) rfl

/-- `wasm_runtime_instantiate`. -/
theorem instantiate (c : Process F) (module : Nat) : Quiet c (c.instantiate module).1 :=
  of_states_eq (grows_acquire _ ⟨module, _, rfl⟩) (.refl _) (.refl _) (.refl _) rfl

/-- `wasm_runtime_deinstantiate`. -/
theorem deinstantiate (c : Process F) (handle : Nat) : Quiet c (c.deinstantiate handle) :=
  of_states_eq (grows_release _ _) (.refl _) (.refl _) (.refl _) rfl

/-- `wasm_runtime_create_exec_env`. -/
theorem createExecEnv (c : Process F) (moduleInst : Nat) :
    Quiet c (c.createExecEnv moduleInst).1 :=
  of_states_eq (grows_acquire _ ⟨moduleInst, _, rfl⟩) (.refl _) (.refl _) (.refl _) rfl

/-- `wasm_runtime_destroy_exec_env`. -/
theorem destroyExecEnv (c : Process F) (handle : Nat) : Quiet c (c.destroyExecEnv handle) :=
  of_states_eq (grows_release _ _) (.refl _) (.refl _) (.refl _) rfl

/-! ### Linker states -/

/-- The five blocks of an entry go. -/
theorem dropEntry (c : Process F) (n : NativeEntry) : Quiet c (n.drop c) :=
  (free _ _).trans <| (free _ _).trans <| (free _ _).trans <| (free _ _).trans (free _ _)

/-- A loop of quiet operations is quiet. -/
theorem foldl {α : Type} {f : Process F → α → Process F} (h : ∀ c x, Quiet c (f c x))
    (xs : List α) (c : Process F) : Quiet c (xs.foldl f c) := by
  induction xs generalizing c with
  | nil => exact refl c
  | cons x xs ih => exact (h c x).trans (ih (f c x))

/-- `Drop for LinkerState`, and then its fields. -/
theorem dropState (c : Process F) (s : LinkerState) : Quiet c (s.drop c) := by
  have h := (foldl (fun c n => unregisterNatives c n.moduleName n.symbol) s.entries c).trans
    ((dropEngine _ s.engine).trans (foldl dropEntry s.entries _))
  unfold LinkerState.drop
  cases s.buf with
  | none => exact h
  | some buf => exact h.trans (free _ _)

/-- A reference to a `LinkerState` goes, and with the last one the `LinkerState`. -/
theorem dropRc (c : Process F) (ptr : Nat) : Quiet c (LinkerState.dropRc c ptr) := by
  have h : Quiet c { c with states := (Rc.drop c.states ptr).1 } :=
    setStates (by simp) fun _ _ => Rc.deref?_of_drop
  unfold LinkerState.dropRc
  simp only
  split
  · exact h.trans (dropState _ _)
  · exact h

/-- `Linker::new`. -/
theorem newLinker (c : Process F) (e : Engine) : Quiet c (Linker.new c e).1 := by
  refine ⟨.refl _, .refl _, .refl _, .refl _, ?_, ?_, ?_⟩
  · simp [Linker.new, Rc.new]
  · intro ptr s hlt hs
    rw [show (Linker.new c e).1.states = Rc.new c.states _ from rfl, Rc.deref?_new,
      if_neg (Nat.ne_of_lt hlt)] at hs
    exact hs
  · intro ptr s hge hs
    rw [show (Linker.new c e).1.states = Rc.new c.states ⟨e, none, 0, []⟩ from rfl,
      Rc.deref?_new] at hs
    split at hs
    · cases hs
      rfl
    · rw [deref?_beyond hge] at hs
      cases hs

/-! ### Modules and instances -/

/-- `Module::new`, whatever the outcome. -/
theorem newModule (link : Linking) (usizeBits : Nat) (c : Process F) (e : Engine)
    (bytes : List UInt8) (loaded : LoadResult) :
    Quiet c (Module.new link usizeBits c e bytes loaded).1 := by
  have h := alloc c (.bytes bytes)
  unfold Module.new
  cases loaded with
  | error errBuf => exact h.trans (free _ _)
  | ok imports =>
    have h₁ := h.trans (load link _ c.heap.next imports)
    simp only
    split
    · exact h₁.trans (cloneEngine _ _)
    · exact h₁.trans (cloneEngine _ _)
    -- The panic of the parser would free the bytes.
    · exact h₁.trans (free _ _)

/-- `Drop for Module`, and then its fields. -/
theorem dropModule (c : Process F) (m : Module) : Quiet c (m.drop c) :=
  (unload _ _).trans ((free _ _).trans (dropEngine _ _))

/-- `Instance::new`, whatever the outcome. -/
theorem newInstance (c : Process F) (m : Module) (ptr : Nat) (result : InstantiateResult) :
    Quiet c (Instance.new c m ptr result).1 := by
  cases result with
  | ok => exact (instantiate _ _).trans (createExecEnv _ _)
  | instantiateFailed errBuf => exact (dropRc _ _).trans (dropModule _ _)
  | execEnvFailed =>
    exact (instantiate _ _).trans <| (deinstantiate _ _).trans <| (dropRc _ _).trans
      (dropModule _ _)

/-- `Drop for Instance`, and then its fields. -/
theorem dropInstance (c : Process F) (i : Instance) : Quiet c (i.drop c) :=
  (destroyExecEnv _ _).trans <| (deinstantiate _ _).trans <| (dropModule _ _).trans (dropRc _ _)

/-- `Linker::instantiate`, whatever the outcome. -/
theorem linkerInstantiate (c : Process F) (l : Linker) (m : Module) (result : InstantiateResult) :
    Quiet c (l.instantiate c m result).1 :=
  (setStates (by simp) fun ptr s h => by simpa using h).trans (newInstance _ _ _ _)

/-- A registration that fails. -/
theorem register_error {module name : Name} {ty : FuncType} {func : F} {registerOk : Bool}
    {err : Error} (h : (NativeEntry.register c module name ty func registerOk).2 = .error err) :
    Quiet c (NativeEntry.register c module name ty func registerOk).1 := by
  rcases register_cases c module name ty func registerOk with
    ⟨-, hr⟩ | ⟨-, -, hr⟩ | ⟨-, -, -, hr⟩ | ⟨-, -, -, hr⟩ <;> rw [hr] at h ⊢
  · exact refl c
  · exact (alloc _ _).trans (free _ _)
  · exact (alloc _ _).trans <| (alloc _ _).trans <| (alloc _ _).trans <| (alloc _ _).trans <|
      (alloc _ _).trans <| (free _ _).trans <| (free _ _).trans <| (free _ _).trans <|
      (free _ _).trans (free _ _)
  · cases h

/-- The move of an entry into the `Vec`. The box itself is written afterwards. -/
theorem push (c : Process F) (s : LinkerState) (n : NativeEntry) : Quiet c (s.push c n).1 := by
  unfold LinkerState.push
  split
  · refine (alloc c .entries).trans ?_
    simp only
    split
    · exact free _ _
    · exact refl _
  · exact refl c

end Quiet

/-- What `define_func` allocates is new. -/
theorem later_registered (c : Process F) (module name : Name) (ty : FuncType) (func : F) :
    c.heap.Later (registered c module name ty func).heap :=
  (Arena.later_push _ _).trans <| (Arena.later_push _ _).trans <| (Arena.later_push _ _).trans <|
    (Arena.later_push _ _).trans (Arena.later_push _ _)

/-- The trace of a registration. -/
theorem grows_registered (c : Process F) (module name : Name) (ty : FuncType) (func : F) :
    Grows c.trace (registered c module name ty func).trace := by
  refine ⟨_, List.append_assoc _ _ _, ?_⟩
  intro a ha
  rcases List.mem_append.mp ha with ha | ha
  · obtain ⟨addr, -, rfl⟩ := List.mem_map.mp ha
    exact rfl
  · rw [List.mem_singleton.mp ha]
    exact ⟨_, _, rfl, rfl⟩

end Wamrx.Proofs
