import Wamrx.Proofs.ValueRules

/-!
# `Wamrx.Proofs.Worlds`: every run keeps the invariant

`valuesOf w` collects the values that the user of the API holds, and `Inv w.proc (valuesOf w)`
holds in every state of every run (`inv_run`). Each case of `inv_step` is one rule of
`Proofs/ValueRules.lean`.

`Stepped` says once what a step does, and all case analyses over the operations go through it
(`step_iff`). `step_effect` sums up what it means for the shared tables: the step is `Quiet`, or
it is a `define_func` that succeeds.
-/

set_option autoImplicit false

namespace Wamrx.Proofs

open Support Support.Lifetime

variable {F : Type} {link : Linking} {usizeBits : Nat} {w w' : World F}

/-- The values that the user holds. -/
def valuesOf (w : World F) : Multiset Owned :=
  w.engines.values.map .engine + w.linkers.values.map (fun l => .state l.state) +
    w.modules.values.map .module + w.instances.values.map .inst

/-! ### Adding and taking a value -/

theorem valuesOf_pushEngine (w : World F) (p : Process F) (e : Engine) :
    valuesOf { w with proc := p, engines := w.engines.push e } = .engine e ::ₘ valuesOf w := by
  simp [valuesOf]

theorem valuesOf_eraseEngine {e : Nat} {en : Engine} (h : w.engines.get? e = some en)
    (p : Process F) :
    valuesOf w = .engine en ::ₘ valuesOf { w with proc := p, engines := w.engines.erase e } := by
  simp [valuesOf, Arena.values_erase h]

theorem valuesOf_pushLinker (w : World F) (p : Process F) (l : Linker) :
    valuesOf { w with proc := p, linkers := w.linkers.push l } = .state l.state ::ₘ valuesOf w := by
  simp [valuesOf]

theorem valuesOf_eraseLinker {l : Nat} {li : Linker} (h : w.linkers.get? l = some li)
    (p : Process F) : valuesOf w
      = .state li.state ::ₘ valuesOf { w with proc := p, linkers := w.linkers.erase l } := by
  simp [valuesOf, Arena.values_erase h]

theorem valuesOf_pushModule (w : World F) (p : Process F) (m : Module) :
    valuesOf { w with proc := p, modules := w.modules.push m } = .module m ::ₘ valuesOf w := by
  simp [valuesOf]

theorem valuesOf_eraseModule {m : Nat} {mo : Module} (h : w.modules.get? m = some mo)
    (p : Process F) :
    valuesOf w = .module mo ::ₘ valuesOf { w with proc := p, modules := w.modules.erase m } := by
  simp [valuesOf, Arena.values_erase h]

theorem valuesOf_pushInstance (w : World F) (p : Process F) (i : Instance) :
    valuesOf { w with proc := p, instances := w.instances.push i } = .inst i ::ₘ valuesOf w := by
  simp [valuesOf]

theorem valuesOf_eraseInstance {i : Nat} {ins : Instance} (h : w.instances.get? i = some ins)
    (p : Process F) :
    valuesOf w = .inst ins ::ₘ valuesOf { w with proc := p, instances := w.instances.erase i } := by
  simp [valuesOf, Arena.values_erase h]

/-! ### The values in hand -/

theorem mem_valuesOf {v : Owned} : v ∈ valuesOf w ↔
    (∃ e en, w.engines.get? e = some en ∧ .engine en = v) ∨
    (∃ l li, w.linkers.get? l = some li ∧ .state li.state = v) ∨
    (∃ m mo, w.modules.get? m = some mo ∧ .module mo = v) ∨
    ∃ i ins, w.instances.get? i = some ins ∧ .inst ins = v := by
  simp only [valuesOf, Multiset.mem_add, Arena.mem_map_values, or_assoc]

theorem mem_valuesOf_engine {e : Nat} {en : Engine} (h : w.engines.get? e = some en) :
    .engine en ∈ valuesOf w := mem_valuesOf.mpr (Or.inl ⟨e, en, h, rfl⟩)

/-- The pointers to a `LinkerState` are those of the linkers and of the instances. -/
theorem mem_stateRefsOf_valuesOf {ptr : Nat} : ptr ∈ stateRefsOf (valuesOf w) ↔
    (∃ l li, w.linkers.get? l = some li ∧ li.state = ptr) ∨
      ∃ i ins, w.instances.get? i = some ins ∧ ins.linkerState = ptr := by
  have hmem : stateRefsOf (valuesOf w)
      = w.linkers.values.map Linker.state + w.instances.values.map Instance.linkerState := by
    simp [stateRefsOf, valuesOf, Multiset.add_bind, Multiset.bind_map, Owned.stateRefs]
  rw [hmem, Multiset.mem_add, Arena.mem_map_values, Arena.mem_map_values]

/-- The box of an instance is live. -/
theorem Inv.instance_live (h : Inv w.proc (valuesOf w)) {i : Nat} {ins : Instance}
    (hi : w.instances.get? i = some ins) : ∃ s, Rc.deref? w.proc.states ins.linkerState = some s :=
  h.states.deref?_of_mem (mem_stateRefsOf_valuesOf.mpr (Or.inr ⟨i, ins, hi, rfl⟩))

/-- The module of a live instance is loaded. -/
theorem Inv.instance_loaded (h : Inv w.proc (valuesOf w)) {i : Nat} {ins : Instance}
    (hi : w.instances.get? i = some ins) :
    ∃ imports, w.proc.modules.get? ins.module.raw = some imports := by
  have hmem : .inst ins ∈ valuesOf w :=
    mem_valuesOf.mpr (Or.inr (Or.inr (Or.inr ⟨i, ins, hi, rfl⟩)))
  exact (h.owns.valid _ (Multiset.mem_add.mpr (Or.inl hmem))).2.2.1

theorem Inv.module_loaded (h : Inv w.proc (valuesOf w)) {m : Nat} {mo : Module}
    (hm : w.modules.get? m = some mo) : ∃ imports, w.proc.modules.get? mo.raw = some imports := by
  have hmem : .module mo ∈ valuesOf w :=
    mem_valuesOf.mpr (Or.inr (Or.inr (Or.inl ⟨m, mo, hm, rfl⟩)))
  exact (h.owns.valid _ (Multiset.mem_add.mpr (Or.inl hmem))).1

/-- The runtime is counted exactly while the user holds a value. -/
theorem Inv.refcount_pos_iff (h : Inv w.proc (valuesOf w)) :
    0 < w.proc.eng.refcount ↔ ∃ v, v ∈ valuesOf w := by
  have hengine : ∀ {v : Owned} {i : Nat}, v ∈ valuesOf w + statesParts w.proc →
      i ∈ v.engineRefs → 0 < w.proc.eng.refcount := fun {v i} hv hi =>
    h.owns.engines.refcount_pos (mem_engineRefsOf.mpr ⟨v, hv, hi⟩)
  -- A pointer to a `LinkerState` leads to the engine in its box.
  have hstate : ∀ {ptr : Nat}, ptr ∈ stateRefsOf (valuesOf w) → 0 < w.proc.eng.refcount := by
    intro ptr hptr
    obtain ⟨s, hs⟩ := h.states.deref?_of_mem hptr
    refine @hengine (.engine s.engine) s.engine.inner ?_ (Multiset.mem_singleton_self _)
    exact Multiset.mem_add.mpr (Or.inr (Multiset.mem_bind.mpr
      ⟨s, Rc.mem_contents.mpr ⟨ptr, hs⟩, by simp [parts]⟩))
  constructor
  · intro hpos
    rw [h.owns.engines.refcount_eq, Nat.add_zero, Multiset.card_pos_iff_exists_mem] at hpos
    -- A counted `EngineInner` has a clone, in a value or in the box that a value points at.
    obtain ⟨b, hb⟩ := hpos
    obtain ⟨i, hi⟩ := Arena.mem_values.mp hb
    obtain ⟨v, hv, -⟩ := mem_engineRefsOf.mp ((h.owns.engines.counted.live_iff i).mp ⟨b, hi⟩)
    rcases Multiset.mem_add.mp hv with hv | hv
    · exact ⟨v, hv⟩
    · obtain ⟨s, hs, -⟩ := Multiset.mem_bind.mp hv
      obtain ⟨ptr, hptr⟩ := Rc.mem_contents.mp hs
      obtain ⟨k, hk⟩ := Rc.deref?_eq_some.mp hptr
      obtain ⟨u, hu, -⟩ := Multiset.mem_bind.mp ((h.states.live_iff ptr).mp ⟨_, hk⟩)
      exact ⟨u, hu⟩
  · rintro ⟨v, hv⟩
    have hmem : v ∈ valuesOf w + statesParts w.proc := Multiset.mem_add.mpr (Or.inl hv)
    rcases mem_valuesOf.mp hv with
      ⟨e, en, -, rfl⟩ | ⟨l, li, hl, rfl⟩ | ⟨m, mo, -, rfl⟩ | ⟨i, ins, -, rfl⟩
    · exact hengine hmem (Multiset.mem_singleton_self _)
    · exact hstate (mem_stateRefsOf_valuesOf.mpr (Or.inl ⟨l, li, hl, rfl⟩))
    · exact hengine hmem (Multiset.mem_singleton_self _)
    · exact hengine hmem (Multiset.mem_singleton_self _)

/-! ### Steps and runs -/

/-- What one operation does, with the values that it finds. -/
inductive Stepped (link : Linking) (usizeBits : Nat) (w : World F) : Op F → World F → Prop where
  | engineNew (initOk : Bool) : Stepped link usizeBits w (.engineNew initOk)
      { w with proc := (w.proc.newEngine initOk).1,
               engines := addResult w.engines (w.proc.newEngine initOk).2 }
  | engineClone (e : Nat) (en : Engine) (he : w.engines.get? e = some en) :
      Stepped link usizeBits w (.engineClone e)
        { w with proc := w.proc.cloneEngine en, engines := w.engines.push en }
  | engineDrop (e : Nat) (en : Engine) (he : w.engines.get? e = some en) :
      Stepped link usizeBits w (.engineDrop e)
        { w with proc := w.proc.dropEngine en, engines := w.engines.erase e }
  | linkerNew (e : Nat) (en : Engine) (he : w.engines.get? e = some en) :
      Stepped link usizeBits w (.linkerNew e)
        { w with proc := (Linker.new w.proc en).1,
                 linkers := w.linkers.push (Linker.new w.proc en).2 }
  | defineFunc (l : Nat) (module name : Name) (ty : FuncType) (func : F) (registerOk : Bool)
      (li : Linker) (hl : w.linkers.get? l = some li) :
      Stepped link usizeBits w (.defineFunc l module name ty func registerOk)
        { w with proc := (li.defineFunc w.proc module name ty func registerOk).1 }
  | linkerDrop (l : Nat) (li : Linker) (hl : w.linkers.get? l = some li) :
      Stepped link usizeBits w (.linkerDrop l)
        { w with proc := li.drop w.proc, linkers := w.linkers.erase l }
  | moduleNew (e : Nat) (bytes : List UInt8) (loaded : LoadResult) (en : Engine)
      (hsize : bytes.length ≤ isizeMax usizeBits) (he : w.engines.get? e = some en) :
      Stepped link usizeBits w (.moduleNew e bytes loaded)
        { w with
          proc := (Module.new link usizeBits w.proc en bytes loaded).1
          modules := addResult w.modules (Module.new link usizeBits w.proc en bytes loaded).2 }
  | moduleDrop (m : Nat) (mo : Module) (hm : w.modules.get? m = some mo) :
      Stepped link usizeBits w (.moduleDrop m)
        { w with proc := mo.drop w.proc, modules := w.modules.erase m }
  | instantiate (l m : Nat) (result : InstantiateResult) (li : Linker) (mo : Module)
      (hl : w.linkers.get? l = some li) (hm : w.modules.get? m = some mo) :
      Stepped link usizeBits w (.instantiate l m result)
        { w with proc := (li.instantiate w.proc mo result).1,
                 modules := w.modules.erase m,
                 instances := addResult w.instances (li.instantiate w.proc mo result).2 }
  | call (i : Nat) (ins : Instance) (hi : w.instances.get? i = some ins) :
      Stepped link usizeBits w (.call i) w
  | instanceDrop (i : Nat) (ins : Instance) (hi : w.instances.get? i = some ins) :
      Stepped link usizeBits w (.instanceDrop i)
        { w with proc := ins.drop w.proc, instances := w.instances.erase i }

/-- `World.step` in terms of what it does. -/
theorem step_iff {op : Op F} :
    w.step link usizeBits op = some w' ↔ Stepped link usizeBits w op w' := by
  constructor
  · intro hs
    cases op with
    | engineNew initOk =>
      obtain rfl := Option.some.inj hs
      exact .engineNew initOk
    | engineClone e =>
      obtain ⟨en, he, rfl⟩ := Option.map_eq_some_iff.mp hs
      exact .engineClone e en he
    | engineDrop e =>
      obtain ⟨en, he, rfl⟩ := Option.map_eq_some_iff.mp hs
      exact .engineDrop e en he
    | linkerNew e =>
      obtain ⟨en, he, rfl⟩ := Option.map_eq_some_iff.mp hs
      exact .linkerNew e en he
    | defineFunc l module name ty func registerOk =>
      obtain ⟨li, hl, rfl⟩ := Option.map_eq_some_iff.mp hs
      exact .defineFunc l module name ty func registerOk li hl
    | linkerDrop l =>
      obtain ⟨li, hl, rfl⟩ := Option.map_eq_some_iff.mp hs
      exact .linkerDrop l li hl
    | moduleNew e bytes loaded =>
      simp only [World.step] at hs
      split at hs
      · rename_i hsize
        obtain ⟨en, he, rfl⟩ := Option.map_eq_some_iff.mp hs
        exact .moduleNew e bytes loaded en hsize he
      · cases hs
    | moduleDrop m =>
      obtain ⟨mo, hm, rfl⟩ := Option.map_eq_some_iff.mp hs
      exact .moduleDrop m mo hm
    | instantiate l m result =>
      simp only [World.step] at hs
      split at hs
      · rename_i li mo hl hm
        obtain rfl := Option.some.inj hs
        exact .instantiate l m result li mo hl hm
      · cases hs
    | call i =>
      obtain ⟨ins, hi, rfl⟩ := Option.map_eq_some_iff.mp hs
      exact .call i ins hi
    | instanceDrop i =>
      obtain ⟨ins, hi, rfl⟩ := Option.map_eq_some_iff.mp hs
      exact .instanceDrop i ins hi
  · intro hs
    cases hs <;> simp only [World.step, Option.map_some, if_true, *]

/-- One operation keeps the invariant: one rule for each constructor and each drop. -/
theorem inv_step (w : World F) (op : Op F) (w' : World F) (h : Inv w.proc (valuesOf w))
    (hs : w.step link usizeBits op = some w') : Inv w'.proc (valuesOf w') := by
  cases step_iff.mp hs with
  | engineNew initOk =>
    rcases h.newEngine initOk with ⟨e, hok, hinv⟩ | ⟨err, herr, hsame⟩
    · simpa only [hok, addResult, valuesOf_pushEngine] using hinv
    · rw [herr, hsame]
      simpa [addResult, valuesOf] using h
  | engineClone e en he =>
    rw [valuesOf_pushEngine]
    exact h.cloneEngine (mem_valuesOf_engine he)
  | engineDrop e en he =>
    rw [valuesOf_eraseEngine he (w.proc.dropEngine en)] at h
    exact h.dropEngine
  | linkerNew e en he =>
    rw [valuesOf_pushLinker]
    exact h.newLinker (mem_valuesOf_engine he)
  | defineFunc l module name ty func registerOk li hl =>
    exact h.defineFunc (mem_stateRefsOf_valuesOf.mpr (Or.inl ⟨l, li, hl, rfl⟩)) module name ty func
      registerOk
  | linkerDrop l li hl =>
    rw [valuesOf_eraseLinker hl (li.drop w.proc)] at h
    exact h.dropRc
  | moduleNew e bytes loaded en hsize he =>
    rcases h.newModule link (mem_valuesOf_engine he) hsize loaded with
      ⟨m, hok, hinv⟩ | ⟨err, herr, hinv⟩
    · simpa only [hok, addResult, valuesOf_pushModule] using hinv
    · simpa [herr, addResult, valuesOf] using hinv
  | moduleDrop m mo hm =>
    rw [valuesOf_eraseModule hm (mo.drop w.proc)] at h
    exact h.dropModule
  | instantiate l m result li mo hl hm =>
    have hptr : li.state ∈ stateRefsOf (valuesOf
        { w with proc := (li.instantiate w.proc mo result).1, modules := w.modules.erase m }) :=
      mem_stateRefsOf_valuesOf.mpr (Or.inl ⟨l, li, hl, rfl⟩)
    rw [valuesOf_eraseModule hm (li.instantiate w.proc mo result).1] at h
    rcases h.instantiate hptr result with ⟨i, hok, hinv⟩ | ⟨err, herr, hinv⟩
    · simp only [hok, addResult]
      rw [valuesOf_pushInstance { w with modules := w.modules.erase m }]
      exact hinv
    · simpa [herr, addResult, valuesOf] using hinv
  | call i ins hi => exact h
  | instanceDrop i ins hi =>
    rw [valuesOf_eraseInstance hi (ins.drop w.proc)] at h
    exact h.dropInstance

/-- The invariant holds in every state that a run reaches. -/
theorem inv_run {ops : List (Op F)} (h : run (World.step link usizeBits) World.init ops = some w) :
    Inv w.proc (valuesOf w) :=
  run_inv (fun w : World F => Inv w.proc (valuesOf w)) inv_step inv_init h

/-- What a step does to the shared tables: it is quiet, or it is a `define_func` that succeeds. -/
theorem step_effect (w : World F) (op : Op F) (w' : World F) (h : Inv w.proc (valuesOf w))
    (hs : w.step link usizeBits op = some w') :
    Quiet w.proc w'.proc ∨
      ∃ l li b module name ty func, op = .defineFunc l module name ty func true ∧
        w.linkers.get? l = some li ∧ w.proc.states.get? li.state = some b ∧
        0 ∉ module ∧ 0 ∉ name ∧
        w' = { w with proc := defined w.proc li.state b.val module name ty func } := by
  cases step_iff.mp hs with
  | engineNew initOk => exact Or.inl (Quiet.newEngine _ _)
  | engineClone e en he => exact Or.inl (Quiet.cloneEngine _ _)
  | engineDrop e en he => exact Or.inl (Quiet.dropEngine _ _)
  | linkerNew e en he => exact Or.inl (Quiet.newLinker _ _)
  | defineFunc l module name ty func registerOk li hl =>
    have hptr := mem_stateRefsOf_valuesOf.mpr (Or.inl ⟨l, li, hl, rfl⟩)
    rcases defineFunc_cases h hptr module name ty func registerOk with
      ⟨err, -, hdef, herr⟩ | ⟨b, hm, hn, rfl, hb, hdef⟩
    · exact Or.inl (by rw [hdef]; exact Quiet.register_error herr)
    · exact Or.inr ⟨l, li, b, module, name, ty, func, rfl, hl, hb, hm, hn, by rw [hdef]⟩
  | linkerDrop l li hl => exact Or.inl (Quiet.dropRc _ _)
  | moduleNew e bytes loaded en hsize he => exact Or.inl (Quiet.newModule _ _ _ _ _ _)
  | moduleDrop m mo hm => exact Or.inl (Quiet.dropModule _ _)
  | instantiate l m result li mo hl hm => exact Or.inl (Quiet.linkerInstantiate _ _ _ _)
  | call i ins hi => exact Or.inl (Quiet.refl _)
  | instanceDrop i ins hi => exact Or.inl (Quiet.dropInstance _ _)

/-- The trace of a step is proper. -/
theorem step_grows (w : World F) (op : Op F) (w' : World F) (h : Inv w.proc (valuesOf w))
    (hs : w.step link usizeBits op = some w') : Grows w.proc.trace w'.proc.trace := by
  rcases step_effect w op w' h hs with
    hquiet | ⟨l, li, b, module, name, ty, func, -, -, -, -, -, rfl⟩
  · exact hquiet.trace
  · exact (grows_registered w.proc module name ty func).trans (Quiet.push _ _ _).trace

/-- What is acquired in a run relies on what it should. -/
theorem reliesOn_run {ops : List (Op F)}
    (h : run (World.step link usizeBits) World.init ops = some w) {r : Resource}
    {deps : List Resource} (ha : .acquire r deps ∈ w.proc.trace) :
    ReliesOn r deps := by
  -- The invariant goes along, because a step is only proper in a state that satisfies it.
  have hall : Inv w.proc (valuesOf w) ∧ Grows [] w.proc.trace := by
    refine run_inv (fun w : World F => Inv w.proc (valuesOf w) ∧ Grows [] w.proc.trace) ?_
      ⟨inv_init, .refl _⟩ h
    intro w op w' ⟨hinv, hgrows⟩ hs
    exact ⟨inv_step w op w' hinv hs, hgrows.trans (step_grows w op w' hinv hs)⟩
  obtain ⟨new, heq, hnew⟩ := hall.2
  rw [List.nil_append] at heq
  exact hnew _ (heq ▸ ha)

/-! ### Later states -/

/-- The entries of a box, none when it is gone. -/
def entriesOf (c : Process F) (ptr : Nat) : List NativeEntry :=
  ((Rc.deref? c.states ptr).map LinkerState.entries).getD []

theorem entriesOf_eq {c : Process F} {ptr : Nat} {s : LinkerState}
    (h : Rc.deref? c.states ptr = some s) : entriesOf c ptr = s.entries := by
  simp [entriesOf, h]

/-- A box with an entry is live. -/
theorem live_of_mem_entriesOf {c : Process F} {ptr : Nat} {n : NativeEntry}
    (h : n ∈ entriesOf c ptr) : ∃ s, Rc.deref? c.states ptr = some s ∧ n ∈ s.entries := by
  unfold entriesOf at h
  cases hs : Rc.deref? c.states ptr with
  | none => simp [hs] at h
  | some s => exact ⟨s, rfl, by simpa [hs] using h⟩

/-- A box beyond the frontier has no entries. -/
theorem entriesOf_beyond {c : Process F} {ptr : Nat} (h : c.states.next ≤ ptr) :
    entriesOf c ptr = [] := by
  simp [entriesOf, Rc.deref?, Arena.get?_of_next_le h]

/-- `c'` is a later state of the run: blocks and modules were not overwritten, no box came back,
and a box that is live has kept its entries, in their order. The contexts of its new entries are
new blocks. -/
structure Follows (c c' : Process F) : Prop where
  heap : c.heap.Later c'.heap
  modules : c.modules.Later c'.modules
  states_next : c.states.next ≤ c'.states.next
  live : ∀ ptr s', ptr < c.states.next → Rc.deref? c'.states ptr = some s' →
    ∃ s, Rc.deref? c.states ptr = some s
  entries : ∀ ptr s', Rc.deref? c'.states ptr = some s' →
    ∃ new, s'.entries = entriesOf c ptr ++ new ∧ ∀ n ∈ new, c.heap.next ≤ n.context

theorem Follows.refl (c : Process F) : Follows c c :=
  ⟨.refl _, .refl _, Nat.le_refl _, fun _ s' _ h => ⟨s', h⟩, fun _ _ h =>
    ⟨[], by rw [entriesOf_eq h, List.append_nil], by simp⟩⟩

theorem Follows.trans {c c' c'' : Process F} (h : Follows c c') (h' : Follows c' c'') :
    Follows c c'' := by
  refine ⟨h.heap.trans h'.heap, h.modules.trans h'.modules,
    Nat.le_trans h.states_next h'.states_next, fun ptr s'' hlt hs'' => ?_, fun ptr s'' hs'' => ?_⟩
  · obtain ⟨s', hs'⟩ := h'.live ptr s'' (Nat.lt_of_lt_of_le hlt h.states_next) hs''
    exact h.live ptr s' hlt hs'
  · obtain ⟨new', heq', hnew'⟩ := h'.entries ptr s'' hs''
    have hnew'' : ∀ n ∈ new', c.heap.next ≤ n.context := fun n hn =>
      Nat.le_trans h.heap.next_le (hnew' n hn)
    rcases Nat.lt_or_ge ptr c'.states.next with hlt | hge
    -- The new entries of both parts, one after the other.
    · obtain ⟨s', hs'⟩ := h'.live ptr s'' hlt hs''
      obtain ⟨new, heq, hnew⟩ := h.entries ptr s' hs'
      refine ⟨new ++ new', by rw [heq', entriesOf_eq hs', heq, List.append_assoc], ?_⟩
      intro n hn
      exact (List.mem_append.mp hn).elim (hnew n) (hnew'' n)
    · -- The box is newer than both states.
      rw [entriesOf_beyond hge] at heq'
      exact ⟨new', by rw [heq', entriesOf_beyond (Nat.le_trans h.states_next hge)], hnew''⟩

/-- A box that is live in both states has its old entries first. -/
theorem Follows.entries_prefix {c c' : Process F} (h : Follows c c') {ptr : Nat}
    {s s' : LinkerState} (hs : Rc.deref? c.states ptr = some s)
    (hs' : Rc.deref? c'.states ptr = some s') : s.entries <+: s'.entries := by
  obtain ⟨new, heq, -⟩ := h.entries ptr s' hs'
  rw [heq, entriesOf_eq hs]
  exact List.prefix_append _ _

/-- A quiet operation adds no entry. -/
theorem Quiet.entriesOf_eq {c c' : Process F} (h : Quiet c c') {ptr : Nat} {s' : LinkerState}
    (hs' : Rc.deref? c'.states ptr = some s') : entriesOf c' ptr = entriesOf c ptr := by
  rw [Proofs.entriesOf_eq hs']
  rcases Nat.lt_or_ge ptr c.states.next with hlt | hge
  · rw [Proofs.entriesOf_eq (h.states_old ptr s' hlt hs')]
  · rw [entriesOf_beyond hge, h.states_new ptr s' hge hs']

theorem Quiet.follows {c c' : Process F} (h : Quiet c c') : Follows c c' := by
  refine ⟨h.heap, h.modules, h.states_next, fun ptr s' hlt hs' =>
    ⟨s', h.states_old ptr s' hlt hs'⟩, fun ptr s' hs' => ⟨[], ?_, by simp⟩⟩
  rw [List.append_nil, ← h.entriesOf_eq hs', Proofs.entriesOf_eq hs']

/-- A `define_func` that succeeds adds one entry to its box, and none to the others. -/
theorem entriesOf_defined (c : Process F) {ptr : Nat} {b : RcBox LinkerState}
    (hb : c.states.get? ptr = some b) (module name : Name) (ty : FuncType) (func : F) (p : Nat) :
    entriesOf (defined c ptr b.val module name ty func) p
      = entriesOf c p ++ if p = ptr then [entryAt c.heap.next] else [] := by
  have hderef : Rc.deref? c.states ptr = some b.val := by simp [Rc.deref?, hb]
  unfold entriesOf
  rw [defined_states, Rc.deref?_update]
  by_cases hp : p = ptr
  · subst hp
    simp [hderef]
  · simp [hp]

/-- A new entry comes last in its box. -/
theorem follows_defined (c : Process F) {ptr : Nat} {b : RcBox LinkerState}
    (hb : c.states.get? ptr = some b) (module name : Name) (ty : FuncType) (func : F) :
    Follows c (defined c ptr b.val module name ty func) := by
  have hpush := Quiet.push (registered c module name ty func) b.val (entryAt c.heap.next)
  refine ⟨(later_registered c module name ty func).trans hpush.heap, hpush.modules, ?_, ?_, ?_⟩
  · rw [defined_states, Rc.next_update]
  · intro p s' _ hs'
    rw [defined_states, Rc.deref?_update] at hs'
    split at hs'
    · obtain ⟨s, hs, -⟩ := Option.map_eq_some_iff.mp hs'
      exact ⟨s, hs⟩
    · exact ⟨s', hs'⟩
  · intro p s' hs'
    have heq := entriesOf_defined c hb module name ty func p
    rw [entriesOf_eq hs'] at heq
    refine ⟨_, heq, ?_⟩
    intro n hn
    split at hn
    · rw [List.mem_singleton.mp hn]
      show c.heap.next ≤ c.heap.next + 3
      omega
    · simp at hn

/-- A loaded module keeps its bindings. -/
theorem importsOf_eq {c c' : Process F} {m : Module} (h : Follows c c')
    (hm : ∃ imports, c.modules.get? m.raw = some imports)
    (hm' : ∃ imports, c'.modules.get? m.raw = some imports) : c'.importsOf m = c.importsOf m := by
  obtain ⟨imports, hm⟩ := hm
  obtain ⟨imports', hm'⟩ := hm'
  have := h.modules.get?_old m.raw imports' (Arena.lt_next_of_get? hm) hm'
  rw [Process.importsOf, Process.importsOf, hm', this]

theorem step_follows (w : World F) (op : Op F) (w' : World F) (h : Inv w.proc (valuesOf w))
    (hs : w.step link usizeBits op = some w') : Follows w.proc w'.proc := by
  rcases step_effect w op w' h hs with
    hquiet | ⟨l, li, b, module, name, ty, func, -, -, hb, -, -, rfl⟩
  · exact hquiet.follows
  · exact follows_defined _ hb _ _ _ _

/-- The states of a run follow each other. -/
theorem run_follows {ops : List (Op F)} (h : Inv w.proc (valuesOf w))
    (hrun : run (World.step link usizeBits) w ops = some w') : Follows w.proc w'.proc := by
  refine (run_inv (fun m : World F => Inv m.proc (valuesOf m) ∧ Follows w.proc m.proc) ?_
    ⟨h, .refl _⟩ hrun).2
  intro m op m' ⟨hinv, hfollows⟩ hs
  exact ⟨inv_step m op m' hinv hs, hfollows.trans (step_follows m op m' hinv hs)⟩

end Wamrx.Proofs
