import Wamrx.Proofs.HandleLifecycle

/-!
# `Wamrx.Proofs.LiveTables`: nothing is left over

`Mirrored c` says that the heap and WAMR's tables hold exactly what the trace acquired and did not
release. Every operation keeps it, whatever its arguments are. With the invariant of the run, the
tables then hold exactly what the values of the user own.

`tables_exact` is about every run, with every pattern of failures of WAMR.
-/

set_option autoImplicit false

namespace Wamrx.Proofs

open Support Support.Lifetime

variable {F : Type} {link : Linking} {usizeBits : Nat} {c c' : Process F} {w : World F}

/-- The resource is a block or a handle: it has a place in a table. -/
def HasPlace : Resource → Prop
  | .block _ | .module _ | .moduleInst _ | .execEnv _ => True
  | .runtime _ | .natives _ => False

/-- The resource is in its table. -/
def present (c : Process F) : Resource → Bool
  | .block addr => (c.heap.get? addr).isSome
  | .module handle => (c.modules.get? handle).isSome
  | .moduleInst handle => (c.moduleInsts.get? handle).isSome
  | .execEnv handle => (c.execEnvs.get? handle).isSome
  | .runtime _ | .natives _ => false

/-- The tables hold exactly what is open in the trace. -/
def Mirrored (c : Process F) : Prop := ∀ r, HasPlace r → present c r = isOpen c.trace r

/-- At the start, there is nothing on either side. -/
theorem mirrored_init : Mirrored (Process.init : Process F) := by
  intro r _
  cases r <;> rfl

/-! ### The tables -/

/-- The keys after a push. -/
theorem isSome_push {α : Type} (a : Arena α) (x : α) (i : Nat) :
    ((a.push x).get? i).isSome = (decide (i = a.next) || (a.get? i).isSome) := by
  rw [Arena.get?_push]
  by_cases h : i = a.next
  · simp [h]
  · simp [h]

/-- The keys after an erasure. -/
theorem isSome_erase {α : Type} (a : Arena α) (i j : Nat) :
    ((a.erase i).get? j).isSome = (!decide (j = i) && (a.get? j).isSome) := by
  rw [Arena.get?_erase]
  by_cases h : j = i
  · simp [h]
  · simp [h]

/-- An event that does to the tables what it says. -/
theorem Mirrored.event (h : Mirrored c) (a : Act Resource) (htrace : c'.trace = c.trace ++ [a])
    (hpresent : ∀ r, HasPlace r → present c' r = openAfter r (present c r) a) : Mirrored c' := by
  intro r hr
  rw [hpresent r hr, htrace, isOpen_append, h r hr]
  rfl

/-- An acquisition that enters its resource in the table. -/
theorem Mirrored.acquire (h : Mirrored c) {r : Resource} {deps : List Resource}
    (htrace : c'.trace = c.trace ++ [.acquire r deps])
    (hpresent : ∀ q, present c' q = (decide (q = r) || present c q)) : Mirrored c' :=
  h.event _ htrace fun q _ => hpresent q

/-- A release that takes its resource out of the table. -/
theorem Mirrored.release (h : Mirrored c) {r : Resource}
    (htrace : c'.trace = c.trace ++ [.release r])
    (hpresent : ∀ q, present c' q = (!decide (q = r) && present c q)) : Mirrored c' :=
  h.event _ htrace fun q _ => hpresent q

/-- An operation that touches neither the tables nor the trace. -/
theorem Mirrored.same (h : Mirrored c) (htrace : c'.trace = c.trace)
    (hpresent : ∀ r, present c' r = present c r) : Mirrored c' := by
  intro r hr
  rw [hpresent r, htrace, h r hr]

/-! ### The primitive operations -/

/-- A new block of the heap. -/
theorem Mirrored.alloc (h : Mirrored c) (cell : Cell F) : Mirrored (c.alloc cell).1 :=
  h.acquire rfl fun q => by cases q <;> simp [present, Process.alloc, Process.acquire, isSome_push]

/-- A block of the heap goes. -/
theorem Mirrored.free (h : Mirrored c) (addr : Nat) : Mirrored (c.free addr) :=
  h.release rfl fun q => by cases q <;> simp [present, Process.free, Process.release, isSome_erase]

/-- `wasm_runtime_load`. -/
theorem Mirrored.load (h : Mirrored c) (link : Linking) (buf : Nat) (imports : List Import) :
    Mirrored (c.load link buf imports).1 :=
  h.acquire rfl fun q => by cases q <;> simp [present, Process.load, Process.acquire, isSome_push]

/-- `wasm_runtime_unload`. -/
theorem Mirrored.unload (h : Mirrored c) (handle : Nat) : Mirrored (c.unload handle) :=
  h.release rfl fun q => by
    cases q <;> simp [present, Process.unload, Process.release, isSome_erase]

/-- `wasm_runtime_instantiate`. -/
theorem Mirrored.instantiate (h : Mirrored c) (module : Nat) :
    Mirrored (c.instantiate module).1 :=
  h.acquire rfl fun q => by
    cases q <;> simp [present, Process.instantiate, Process.acquire, isSome_push]

/-- `wasm_runtime_deinstantiate`. -/
theorem Mirrored.deinstantiate (h : Mirrored c) (handle : Nat) :
    Mirrored (c.deinstantiate handle) :=
  h.release rfl fun q => by
    cases q <;> simp [present, Process.deinstantiate, Process.release, isSome_erase]

/-- `wasm_runtime_create_exec_env`. -/
theorem Mirrored.createExecEnv (h : Mirrored c) (moduleInst : Nat) :
    Mirrored (c.createExecEnv moduleInst).1 :=
  h.acquire rfl fun q => by
    cases q <;> simp [present, Process.createExecEnv, Process.acquire, isSome_push]

/-- `wasm_runtime_destroy_exec_env`. -/
theorem Mirrored.destroyExecEnv (h : Mirrored c) (handle : Nat) :
    Mirrored (c.destroyExecEnv handle) :=
  h.release rfl fun q => by
    cases q <;> simp [present, Process.destroyExecEnv, Process.release, isSome_erase]

/-- Registrations and the runtime have no place in these tables. -/
theorem Mirrored.elsewhere (h : Mirrored c) {a : Act Resource}
    (ha : ∀ r, HasPlace r → ∀ live, openAfter r live a = live)
    (htrace : c'.trace = c.trace ++ [a]) (hpresent : ∀ r, present c' r = present c r) :
    Mirrored c' :=
  h.event a htrace fun r hr => by rw [hpresent r, ha r hr]

/-- `wasm_runtime_register_natives`. -/
theorem Mirrored.registerNatives (h : Mirrored c) (node : NativesNode) (retained : List Nat) :
    Mirrored (c.registerNatives node retained) := by
  refine h.elsewhere (fun r hr live => ?_) rfl fun r => by cases r <;> rfl
  cases r <;> first | rfl | cases hr

/-- `wasm_runtime_unregister_natives`, also when there is no such node. -/
theorem Mirrored.unregisterNatives (h : Mirrored c) (moduleName symbols : Nat) :
    Mirrored (c.unregisterNatives moduleName symbols) := by
  unfold Process.unregisterNatives
  simp only
  split
  · refine h.elsewhere (fun r hr live => ?_) rfl fun r => by cases r <;> rfl
    cases r <;> first | rfl | cases hr
  · exact h

/-- The runtime starts or ends. It has no table. -/
theorem Mirrored.runtimeCalls (h : Mirrored c) (calls : List RuntimeCall) :
    Mirrored (calls.foldl Process.runtimeCall c) := by
  induction calls generalizing c with
  | nil => exact h
  | cons call calls ih =>
    refine ih ?_
    rcases call with ⟨_ | _⟩ | _
    -- A failed start, a start, and an end.
    · exact h
    · refine h.elsewhere (fun r hr live => ?_) rfl fun r => by cases r <;> rfl
      cases r <;> first | rfl | cases hr
    · refine h.elsewhere (fun r hr live => ?_) rfl fun r => by cases r <;> rfl
      cases r <;> first | rfl | cases hr

/-- The counts of the engines are in no table. -/
theorem Mirrored.setEngine (h : Mirrored c) (eng : EngineState) :
    Mirrored { c with eng := eng } := h.same rfl fun r => by cases r <;> rfl

/-- Nor are the `LinkerState`s. -/
theorem Mirrored.setStates (h : Mirrored c) (states : Rc.Table LinkerState) :
    Mirrored { c with states := states } := h.same rfl fun r => by cases r <;> rfl

/-! ### The API -/

/-- `Engine::new`, also when it fails. -/
theorem Mirrored.newEngine (h : Mirrored c) (initOk : Bool) : Mirrored (c.newEngine initOk).1 :=
  (h.setEngine _).runtimeCalls _

/-- `Engine::clone`. -/
theorem Mirrored.cloneEngine (h : Mirrored c) (e : Engine) : Mirrored (c.cloneEngine e) :=
  h.setEngine _

/-- The drop of an engine, also of the last one. -/
theorem Mirrored.dropEngine (h : Mirrored c) (e : Engine) : Mirrored (c.dropEngine e) := by
  unfold Process.dropEngine
  simp only
  split
  · exact (h.setEngine _).runtimeCalls _
  · exact h.setEngine _

/-- A loop over entries. -/
theorem Mirrored.foldl {α : Type} {f : Process F → α → Process F}
    (hf : ∀ c x, Mirrored c → Mirrored (f c x)) (h : Mirrored c) (xs : List α) :
    Mirrored (xs.foldl f c) := by
  induction xs generalizing c with
  | nil => exact h
  | cons x xs ih => exact ih (hf c x h)

/-- The five blocks of an entry go. -/
theorem Mirrored.dropEntry (h : Mirrored c) (n : NativeEntry) : Mirrored (n.drop c) :=
  ((((h.free _).free _).free _).free _).free _

/-- Five blocks and a node, or none of them. -/
theorem Mirrored.register (h : Mirrored c) (module name : Name) (ty : FuncType) (func : F)
    (registerOk : Bool) : Mirrored (NativeEntry.register c module name ty func registerOk).1 := by
  unfold NativeEntry.register
  split
  · exact h
  simp only
  split
  · exact (h.alloc _).free _
  have hfive := ((((h.alloc (.cstring module)).alloc (.cstring name)).alloc
    (.cstring ty.signatureCString)).alloc (.context ty func)).alloc
      (.symbols ⟨c.heap.next + 1, c.heap.next + 2, c.heap.next + 3⟩)
  simp only [Process.alloc, Process.acquire, Arena.next_push, Nat.add_assoc, Nat.reduceAdd]
    at hfive ⊢
  split
  · exact hfive.registerNatives _ _
  · exact ((((hfive.free _).free _).free _).free _).free _

/-- `Vec::push`, which may move the buffer. -/
theorem Mirrored.push (h : Mirrored c) (s : LinkerState) (n : NativeEntry) :
    Mirrored (s.push c n).1 := by
  unfold LinkerState.push
  split
  · simp only
    split
    · exact (h.alloc _).free _
    · exact h.alloc _
  · exact h

/-- `Drop for LinkerState`, and then its fields. -/
theorem Mirrored.dropState (h : Mirrored c) (s : LinkerState) : Mirrored (s.drop c) := by
  have hentries := ((h.foldl (fun c n hc => Mirrored.unregisterNatives hc n.moduleName n.symbol)
    s.entries).dropEngine s.engine).foldl (fun c n hc => Mirrored.dropEntry hc n) s.entries
  unfold LinkerState.drop
  cases s.buf with
  | none => exact hentries
  | some buf => exact hentries.free buf

/-- A reference to a `LinkerState` goes, and with the last one the `LinkerState`. -/
theorem Mirrored.dropRc (h : Mirrored c) (ptr : Nat) : Mirrored (LinkerState.dropRc c ptr) := by
  unfold LinkerState.dropRc
  simp only
  split
  · exact (h.setStates _).dropState _
  · exact h.setStates _

/-- `Linker::new`. -/
theorem Mirrored.newLinker (h : Mirrored c) (e : Engine) : Mirrored (Linker.new c e).1 :=
  (h.cloneEngine e).setStates _

/-- `define_func`, on each of its exits. -/
theorem Mirrored.defineFunc (h : Mirrored c) (l : Linker) (module name : Name) (ty : FuncType)
    (func : F) (registerOk : Bool) :
    Mirrored (l.defineFunc c module name ty func registerOk).1 := by
  have hreg := h.register module name ty func registerOk
  unfold Linker.defineFunc
  split
  · rename_i heq
    rwa [heq] at hreg
  · rename_i n heq
    rw [heq] at hreg
    split
    · exact (hreg.push _ n).setStates _
    · exact hreg

/-- `Module::new`, whatever the outcome. -/
theorem Mirrored.newModule (h : Mirrored c) (link : Linking) (usizeBits : Nat) (e : Engine)
    (bytes : List UInt8) (loaded : LoadResult) :
    Mirrored (Module.new link usizeBits c e bytes loaded).1 := by
  unfold Module.new
  cases loaded with
  | error errBuf => exact (h.alloc _).free _
  | ok imports =>
    have hloaded := (h.alloc (.bytes bytes)).load link c.heap.next imports
    simp only
    split
    · exact hloaded.cloneEngine e
    · exact hloaded.cloneEngine e
    · exact hloaded.free _

/-- `Drop for Module`, and then its fields. -/
theorem Mirrored.dropModule (h : Mirrored c) (m : Module) : Mirrored (m.drop c) :=
  ((h.unload _).free _).dropEngine _

/-- `Linker::instantiate`, whatever the outcome. -/
theorem Mirrored.linkerInstantiate (h : Mirrored c) (l : Linker) (m : Module)
    (result : InstantiateResult) : Mirrored (l.instantiate c m result).1 := by
  have hrc := h.setStates (Rc.clone c.states l.state)
  cases result with
  | ok => exact (hrc.instantiate _).createExecEnv _
  | instantiateFailed errBuf => exact (hrc.dropRc _).dropModule m
  | execEnvFailed => exact (((hrc.instantiate _).deinstantiate _).dropRc _).dropModule m

/-- `Drop for Instance`, and then its fields. -/
theorem Mirrored.dropInstance (h : Mirrored c) (i : Instance) : Mirrored (i.drop c) :=
  (((h.destroyExecEnv _).deinstantiate _).dropModule _).dropRc _

/-- Every operation of the API keeps the tables and the trace in step. -/
theorem mirrored_step (w : World F) (op : Op F) (w' : World F) (h : Mirrored w.proc)
    (hs : w.step link usizeBits op = some w') : Mirrored w'.proc := by
  cases step_iff.mp hs with
  | engineNew initOk => exact h.newEngine initOk
  | engineClone e en he => exact h.cloneEngine en
  | engineDrop e en he => exact h.dropEngine en
  | linkerNew e en he => exact h.newLinker en
  | defineFunc l module name ty func registerOk li hl =>
    exact h.defineFunc li module name ty func registerOk
  | linkerDrop l li hl => exact h.dropRc li.state
  | moduleNew e bytes loaded en hsize he => exact h.newModule link usizeBits en bytes loaded
  | moduleDrop m mo hm => exact h.dropModule mo
  | instantiate l m result li mo hl hm => exact h.linkerInstantiate li mo result
  | call i ins hi => exact h
  | instanceDrop i ins hi => exact h.dropInstance ins

/-! ### Runs -/

/-- A block or a handle is in its table exactly when a value of the user owns it. -/
theorem present_iff_held {ops : List (Op F)}
    (h : run (World.step link usizeBits) World.init ops = some w) {r : Resource} (hr : HasPlace r) :
    present w.proc r = true ↔ Held w r := by
  have hmirror := run_inv (fun w : World F => Mirrored w.proc) mirrored_step mirrored_init h
  rw [hmirror r hr, (inv_run h).owns.tracks.isOpen_iff r, held_iff]

/-- The process as it was before the first call, but for the numbers that are used up. -/
structure Clean (c : Process F) : Prop where
  heap : ∀ addr, c.heap.get? addr = none
  modules : ∀ handle, c.modules.get? handle = none
  moduleInsts : ∀ handle, c.moduleInsts.get? handle = none
  execEnvs : ∀ handle, c.execEnvs.get? handle = none
  states : ∀ ptr, Rc.deref? c.states ptr = none
  registry : c.registry = []
  refcount : c.eng.refcount = 0
  initialized : c.eng.initialized = false
  released : ∀ r deps, .acquire r deps ∈ c.trace → c.trace.count (.release r) = 1

/-- Without a value of the user, nothing holds a resource. -/
theorem not_held_of_no_value (h : Inv w.proc (valuesOf w)) (hnone : valuesOf w = 0) :
    (∀ ptr, Rc.deref? w.proc.states ptr = none) ∧ w.proc.eng.refcount = 0 ∧
      w.proc.eng.initialized = false ∧ ∀ r, ¬ Held w r := by
  have hstates : ∀ ptr, Rc.deref? w.proc.states ptr = none := by
    intro ptr
    cases hptr : Rc.deref? w.proc.states ptr with
    | none => rfl
    | some s =>
      obtain ⟨k, hk⟩ := Rc.deref?_eq_some.mp hptr
      have hmem := (h.states.live_iff ptr).mp ⟨_, hk⟩
      rw [hnone] at hmem
      simp [stateRefsOf] at hmem
  have hcount : w.proc.eng.refcount = 0 := by
    refine Nat.eq_zero_of_not_pos fun hpos => ?_
    obtain ⟨v, hv⟩ := h.refcount_pos_iff.mp hpos
    simp [hnone] at hv
  have hdown : w.proc.eng.initialized = false := by
    rw [Bool.eq_false_iff, ne_eq, h.owns.engines.initialized_iff, hcount]
    exact Nat.lt_irrefl 0
  have hno : ∀ v, v ∉ valuesOf w := by simp [hnone]
  refine ⟨hstates, hcount, hdown, ?_⟩
  rintro r (⟨hup, -⟩ | ⟨m, mo, hm, -⟩ | ⟨i, ins, hi, -⟩ | ⟨ptr, s, hs, -⟩)
  · rw [hdown] at hup
    cases hup
  · exact hno _ (mem_valuesOf.mpr (Or.inr (Or.inr (Or.inl ⟨m, mo, hm, rfl⟩))))
  · exact hno _ (mem_valuesOf.mpr (Or.inr (Or.inr (Or.inr ⟨i, ins, hi, rfl⟩))))
  · rw [hstates] at hs
    cases hs

/-- Nor is a host function registered. -/
theorem registry_nil_of_no_value (h : Inv w.proc (valuesOf w)) (hnone : valuesOf w = 0)
    (hstates : ∀ ptr, Rc.deref? w.proc.states ptr = none) : w.proc.registry = [] := by
  have hparts : statesParts w.proc = 0 := by
    refine Multiset.eq_zero_of_forall_notMem fun v hv => ?_
    obtain ⟨s, hs, -⟩ := Multiset.mem_bind.mp hv
    obtain ⟨ptr, hptr⟩ := Rc.mem_contents.mp hs
    rw [hstates] at hptr
    cases hptr
  have hnodes := h.owns.registry
  rw [hnone, hparts] at hnodes
  exact (Multiset.coe_eq_zero _).mp hnodes

/-- In every state that a run reaches, with every pattern of failures: the heap, and WAMR's tables
of modules, module instances and execution environments hold exactly what the values of the user
own. When the user has dropped all values, nothing is left: the tables and the registry are empty,
the runtime is down, and everything that was ever acquired was released, once. -/
theorem tables_exact (link : Linking) (usizeBits : Nat) (ops : List (Op F)) (w : World F)
    (h : run (World.step link usizeBits) World.init ops = some w) :
    (∀ r, HasPlace r → (present w.proc r = true ↔ Held w r)) ∧
      (valuesOf w = 0 → Clean w.proc) := by
  refine ⟨fun r hr => present_iff_held h hr, fun hnone => ?_⟩
  have hinv := inv_run h
  obtain ⟨hstates, hcount, hdown, hheld⟩ := not_held_of_no_value hinv hnone
  have habsent : ∀ r, HasPlace r → present w.proc r = false := by
    intro r hr
    rw [Bool.eq_false_iff, ne_eq, present_iff_held h hr]
    exact hheld r
  have hlife := lifecycle_run h
  exact {
    heap := fun addr => by simpa [present] using habsent (.block addr) trivial
    modules := fun handle => by simpa [present] using habsent (.module handle) trivial
    moduleInsts := fun handle => by simpa [present] using habsent (.moduleInst handle) trivial
    execEnvs := fun handle => by simpa [present] using habsent (.execEnv handle) trivial
    states := hstates
    registry := registry_nil_of_no_value hinv hnone hstates
    refcount := hcount
    initialized := hdown
    released := fun r deps ha => Nat.le_antisymm (hlife.once r)
      (List.one_le_count_iff.mpr ((hlife.released_iff r deps ha).mpr (hheld r))) }

/-- Successes and failures of every kind, and then all values are dropped, the linker before the
instance that uses it. -/
def droppedRun : List (Op Unit) :=
  [.engineNew false, .engineNew true, .linkerNew 1, .defineFunc 0 [0x6d] [0x66] ⟨[], []⟩ () true,
    .defineFunc 0 [0x6d] [0x67] ⟨[], []⟩ () false, .moduleNew 1 [] (.error []),
    .moduleNew 1 [] (.ok [⟨[0x6d], [0x66], ⟨[], []⟩⟩]), .moduleNew 1 [] (.ok []),
    .instantiate 0 2 .execEnvFailed, .instantiate 0 1 .ok, .linkerDrop 0, .engineDrop 1,
    .instanceDrop 1]

/-- Everything was dropped, and nothing is left. -/
theorem tables_exact_droppedRun :
    ∃ w, run (World.step wamrLink 64) World.init droppedRun = some w ∧ Clean w.proc := by
  obtain ⟨w, hw⟩ := Option.isSome_iff_exists.mp
    (show (run (World.step wamrLink 64) World.init droppedRun).isSome by decide)
  refine ⟨w, hw, (tables_exact wamrLink 64 droppedRun w hw).2 ?_⟩
  cases hw
  rfl

end Wamrx.Proofs
