import Wamrx.Proofs.LinkingRules
import Wamrx.Proofs.Worlds
import Wamrx.Support.Search

/-!
# `Wamrx.Proofs.Bindings`: what an import is bound to

An import is bound at load to the registered symbol that WAMR's rule takes. `Shows c n v` reads
the blocks of an entry, and `resolve_shows` says that a bound import points at the context of an
entry whose symbol the rule took.

`BindingInv` carries this over a run: linkers are numbered like their boxes, the registry has
the entries of each box in the reverse order of their definition, and an import points at an old
block. `shows_run` traces an entry back to the operation that defined it.
-/

set_option autoImplicit false

namespace Wamrx.Proofs

open Support Support.Lifetime

variable {F : Type} {link : Linking} {usizeBits : Nat} {w w' : World F} {c c' : Process F}
  {V : Multiset Owned}

/-! ### Reading an entry -/

/-- What the blocks of an entry say. -/
structure EntryView (F : Type) where
  module : Name
  name : Name
  ty : FuncType
  func : F

/-- The blocks of the entry say `v`. -/
structure Shows (c : Process F) (n : NativeEntry) (v : EntryView F) : Prop where
  moduleName : c.heap.get? n.moduleName = some (.cstring v.module)
  field : c.heap.get? n.field = some (.cstring v.name)
  signature : c.heap.get? n.signature = some (.cstring v.ty.signatureCString)
  context : c.heap.get? n.context = some (.context v.ty v.func)
  symbol : c.heap.get? n.symbol = some (.symbols ⟨n.field, n.signature, n.context⟩)

theorem EntryOk.shows {n : NativeEntry} (h : EntryOk c n) : ∃ v, Shows c n v := by
  obtain ⟨⟨module, hm⟩, ⟨name, hf⟩, ⟨ty, func, hc, hs⟩, hy⟩ := h
  exact ⟨⟨module, name, ty, func⟩, hm, hf, hs, hc, hy⟩

theorem Shows.ok {n : NativeEntry} {v : EntryView F} (h : Shows c n v) : EntryOk c n :=
  ⟨⟨_, h.moduleName⟩, ⟨_, h.field⟩, ⟨_, _, h.context, h.signature⟩, h.symbol⟩

theorem Shows.unique {n : NativeEntry} {v v' : EntryView F} (h : Shows c n v)
    (h' : Shows c n v') : v = v' := by
  obtain ⟨module, name, ty, func⟩ := v
  obtain ⟨module', name', ty', func'⟩ := v'
  have hm := h.moduleName.symm.trans h'.moduleName
  have hf := h.field.symm.trans h'.field
  have hc := h.context.symm.trans h'.context
  simp only [Option.some.injEq, Cell.cstring.injEq, Cell.context.injEq] at hm hf hc
  obtain ⟨rfl, rfl⟩ := hc
  -- The signature string follows from the type, so it need not be compared.
  rw [hm, hf]

/-- An old entry says what it said before. -/
theorem Shows.of_later {n : NativeEntry} {v : EntryView F} (hlater : c.heap.Later c'.heap)
    (hok : EntryOk c n) (h : Shows c' n v) : Shows c n v := by
  have hold : ∀ addr ∈ n.blocks, ∀ cell, c'.heap.get? addr = some cell →
      c.heap.get? addr = some cell := by
    intro addr haddr cell hcell
    obtain ⟨cell₀, hcell₀⟩ := hok.get?_block haddr
    exact hlater.get?_old addr cell (Arena.lt_next_of_get? hcell₀) hcell
  exact ⟨hold _ (by simp [NativeEntry.blocks]) _ h.moduleName,
    hold _ (by simp [NativeEntry.blocks]) _ h.field,
    hold _ (by simp [NativeEntry.blocks]) _ h.signature,
    hold _ (by simp [NativeEntry.blocks]) _ h.context,
    hold _ (by simp [NativeEntry.blocks]) _ h.symbol⟩

/-- An entry that is still there says what it said before. -/
theorem Shows.keep {n : NativeEntry} {v : EntryView F} (h : Shows c n v)
    (hlater : c.heap.Later c'.heap) (hok : EntryOk c' n) : Shows c' n v := by
  obtain ⟨v', h'⟩ := hok.shows
  rwa [h.unique (h'.of_later hlater h.ok)]

/-! ### Symbols -/

/-- What WAMR gets to see of the entry. -/
def EntryView.symbol (v : EntryView F) : SymbolView := ⟨v.module, v.name, v.ty.signatureCString⟩

/-- The symbol of a registered entry says what the entry says, and has its context. -/
theorem Shows.symbolAt {n : NativeEntry} {v : EntryView F} (h : Shows c n v) :
    c.symbolAt n.node = some (v.symbol, n.context) := by
  unfold Process.symbolAt
  simp only [NativeEntry.node, h.symbol, Process.cstr, h.moduleName, h.field, h.signature]
  rfl

/-- What the entries of the live boxes are, as a membership. -/
theorem Inv.entry_of_node (h : Inv c V) {node : NativesNode} (hnode : node ∈ c.registry) :
    ∃ ptr n v, n ∈ entriesOf c ptr ∧ n.node = node ∧ Shows c n v := by
  obtain ⟨ptr, s, hs, n, hn, hnode⟩ := h.mem_registry.mp hnode
  obtain ⟨v, hv⟩ := (h.entryOk hs hn).shows
  exact ⟨ptr, n, v, by rwa [entriesOf_eq hs], hnode, hv⟩

/-- Two entries of live boxes with the same context are the same. -/
theorem Inv.entry_unique (h : Inv c V) {ptr ptr' : Nat} {n n' : NativeEntry}
    (hn : n ∈ entriesOf c ptr) (hn' : n' ∈ entriesOf c ptr') (hctx : n.context = n'.context) :
    n = n' := by
  obtain ⟨s, hs, hn⟩ := live_of_mem_entriesOf hn
  obtain ⟨s', hs', hn'⟩ := live_of_mem_entriesOf hn'
  exact h.owns.entry_unique (mem_statesParts hs hn V) (mem_statesParts hs' hn' V) hctx

theorem Inv.entry_ok (h : Inv c V) {ptr : Nat} {n : NativeEntry} (hn : n ∈ entriesOf c ptr) :
    EntryOk c n := by
  obtain ⟨s, hs, hn⟩ := live_of_mem_entriesOf hn
  exact h.entryOk hs hn

/-- A bound import points at the context of an entry, and WAMR's rule took its symbol. -/
theorem Inv.resolve_shows (h : Inv c V) {imp : Import} {addr : Nat}
    (haddr : (c.resolve link imp).attachment = some addr) :
    ∃ ptr n v, n ∈ entriesOf c ptr ∧ n.context = addr ∧ Shows c n v ∧
      link.pick Prod.fst c.symbols imp = some (v.symbol, addr) := by
  obtain ⟨⟨symbol, _⟩, hpick, rfl⟩ := Option.map_eq_some_iff.mp haddr
  obtain ⟨node, hnode, hsym⟩ := List.mem_filterMap.mp (mem_of_pick hpick)
  obtain ⟨ptr, n, v, hn, rfl, hv⟩ := h.entry_of_node hnode
  cases hv.symbolAt.symm.trans hsym
  exact ⟨ptr, n, v, hn, rfl, hv, hpick⟩

/-! ### The modules of a run -/

/-- A live module or instance holds the module. -/
def Carried (w : World F) (mo : Module) : Prop :=
  (∃ m, w.modules.get? m = some mo) ∨ ∃ i ins, w.instances.get? i = some ins ∧ ins.module = mo

theorem Inv.carried_loaded (h : Inv w.proc (valuesOf w)) {mo : Module} (hmo : Carried w mo) :
    ∃ imports, w.proc.modules.get? mo.raw = some imports := by
  rcases hmo with ⟨m, hm⟩ | ⟨i, ins, hi, rfl⟩
  · exact h.module_loaded hm
  · exact h.instance_loaded hi

/-- The imports of a module that was just loaded are those that WAMR resolved. -/
theorem newModule_ok {bytes : List UInt8} {e : Engine} {loaded : LoadResult} {mo : Module}
    (h : (Module.new link usizeBits c e bytes loaded).2 = .ok mo) :
    ∃ imports : List Import, loaded = .ok imports ∧
      (Module.new link usizeBits c e bytes loaded).1.importsOf mo
        = imports.map ((c.alloc (.bytes bytes)).1.resolve link) ∧
      Quiet (c.alloc (.bytes bytes)).1 (Module.new link usizeBits c e bytes loaded).1 := by
  unfold Module.new at h ⊢
  cases loaded with
  | error errBuf => cases h
  | ok imports =>
    have hquiet := (Quiet.load link (c.alloc (.bytes bytes)).1 c.heap.next imports).trans
      (Quiet.cloneEngine _ e)
    have himports : ∀ ty, (((c.alloc (.bytes bytes)).1.load link c.heap.next imports).1.cloneEngine
        e).importsOf ⟨c.modules.next, c.heap.next, ty, e⟩
        = imports.map ((c.alloc (.bytes bytes)).1.resolve link) := by
      intro ty
      show ((c.modules.push _).get? c.modules.next).getD [] = _
      rw [Arena.get?_push_next, Option.getD_some]
    refine ⟨imports, rfl, ?_⟩
    simp only at h ⊢
    split at h
    · cases h
      exact ⟨himports _, hquiet⟩
    · cases h
      exact ⟨himports _, hquiet⟩
    · cases h

/-- A step makes a module by loading it, and an instance of a module that was there. -/
theorem step_carried (w : World F) (op : Op F) (w' : World F)
    (hs : w.step link usizeBits op = some w') {mo : Module} (hmo : Carried w' mo) :
    Carried w mo ∨ ∃ (bytes : List UInt8) (imports : List Import),
      w'.proc.importsOf mo = imports.map ((w.proc.alloc (.bytes bytes)).1.resolve link) ∧
        Quiet (w.proc.alloc (.bytes bytes)).1 w'.proc := by
  -- A drop makes no module.
  have herase : ∀ {i j : Nat} {a : Arena Module}, (a.erase i).get? j = some mo →
      a.get? j = some mo := fun {i j a} h => (Arena.later_erase a i).get?_old j mo
    (by simpa using Arena.lt_next_of_get? h) h
  cases step_iff.mp hs with
  | engineNew _ | engineClone _ _ _ | engineDrop _ _ _ | linkerNew _ _ _
  | defineFunc _ _ _ _ _ _ _ _ | linkerDrop _ _ _ | call _ _ _ => exact Or.inl hmo
  | moduleNew e bytes loaded en hsize he =>
    rcases hmo with ⟨m, hm⟩ | hmo
    · cases hnew : (Module.new link usizeBits w.proc en bytes loaded).2 with
      | error err =>
        simp only [hnew, addResult, Arena.get?_skip] at hm
        exact Or.inl (Or.inl ⟨m, hm⟩)
      | ok new =>
        simp only [hnew, addResult, Arena.get?_push] at hm
        split at hm
        · obtain rfl := Option.some.inj hm
          obtain ⟨imports, -, himports, hquiet⟩ := newModule_ok hnew
          exact Or.inr ⟨bytes, imports, himports, hquiet⟩
        · exact Or.inl (Or.inl ⟨m, hm⟩)
    · exact Or.inl (Or.inr hmo)
  | moduleDrop m mo' hm => exact Or.inl (hmo.imp_left (Exists.imp fun _ => herase))
  | instantiate l m result li mo' hl hm =>
    rcases hmo with ⟨k, hk⟩ | ⟨i, ins, hi, rfl⟩
    · exact Or.inl (Or.inl ⟨k, herase hk⟩)
    · cases result with
      | ok =>
        have hi : (w.instances.push ⟨_, _, mo', li.state⟩).get? i = some ins := hi
        rw [Arena.get?_push] at hi
        split at hi
        · obtain rfl := Option.some.inj hi
          exact Or.inl (Or.inl ⟨m, hm⟩)
        · exact Or.inl (Or.inr ⟨i, ins, hi, rfl⟩)
      | instantiateFailed errBuf =>
        exact Or.inl (Or.inr ⟨i, ins, (Arena.get?_skip _ _).symm.trans hi, rfl⟩)
      | execEnvFailed =>
        exact Or.inl (Or.inr ⟨i, ins, (Arena.get?_skip _ _).symm.trans hi, rfl⟩)
  | instanceDrop i ins hi =>
    rcases hmo with hmo | ⟨k, ins', hk, hmo⟩
    · exact Or.inl (Or.inl hmo)
    · have hk' : w.instances.get? k = some ins' := (Arena.later_erase w.instances i).get?_old k ins'
        (by simpa using Arena.lt_next_of_get? hk) hk
      exact Or.inl (Or.inr ⟨k, ins', hk', hmo⟩)

/-! ### The invariant -/

/-- The import points at an old block. -/
def BoundOk (c : Process F) (b : BoundImport) : Prop :=
  ∀ addr, b.attachment = some addr → addr < c.heap.next

/-- What a run keeps about names and orders. -/
structure BindingInv (w : World F) : Prop where
  /-- Linkers are numbered like their boxes. -/
  states_next : w.proc.states.next = w.linkers.next
  linker_state : ∀ l li, w.linkers.get? l = some li → li.state = l
  /-- The registry lists the entries of a box from the newest to the oldest. -/
  ordered : ∀ ptr, ((entriesOf w.proc ptr).map NativeEntry.node).reverse.Sublist w.proc.registry
  /-- The imports of the modules in hand point at old blocks. -/
  bound : ∀ mo, Carried w mo → ∀ b ∈ w.proc.importsOf mo, BoundOk w.proc b

theorem BoundOk.later {b : BoundImport} (hb : BoundOk c b) (hlater : c.heap.Later c'.heap) :
    BoundOk c' b := fun addr haddr => Nat.lt_of_lt_of_le (hb addr haddr) hlater.next_le

/-- An import that was just resolved. -/
theorem Inv.boundOk_resolve (h : Inv c V) (link : Linking) (imp : Import) :
    BoundOk c (c.resolve link imp) := by
  intro addr haddr
  obtain ⟨ptr, n, v, -, rfl, hv, -⟩ := h.resolve_shows haddr
  exact Arena.lt_next_of_get? hv.context

/-- A block in hand does not matter to the boxes. -/
theorem Inv.alloc (h : Inv c V) (cell : Cell F) :
    Inv (c.alloc cell).1 (.block c.heap.next ::ₘ V) := by
  refine h.of_states_eq rfl (by simp [Owned.stateRefs]) ?_ (by simpa using h.noEntry)
  rw [Multiset.cons_add]
  exact h.owns.alloc cell

/-- A block in hand is not in the registry. -/
theorem Inv.resolve_alloc (h : Inv c V) (cell : Cell F) (imp : Import) :
    (c.alloc cell).1.resolve link imp = c.resolve link imp := by
  have h' := h.alloc cell
  have hsame : ∀ node ∈ c.registry, (c.alloc cell).1.symbolAt node = c.symbolAt node := by
    intro node hnode
    obtain ⟨ptr, n, v, hn, rfl, hv⟩ := h.entry_of_node hnode
    have hv' : Shows (c.alloc cell).1 n v := hv.keep (Arena.later_push _ _) (h'.entry_ok hn)
    rw [hv.symbolAt, hv'.symbolAt]
  unfold Process.resolve Process.symbols
  rw [alloc_registry, List.filterMap_congr hsame]

/-- Nothing is registered twice. -/
theorem Inv.registry_nodup (h : Inv c V) : c.registry.Nodup := by
  -- Every node is a live resource, and no resource is live twice.
  have hle : ∀ (k : Nat) (T : Multiset Owned),
      (nodesOf T).map Resource.natives ≤ (itemsOf k T).map Item.res := by
    intro k T
    induction T using Multiset.induction_on with
    | empty => exact le_refl _
    | cons v T ih =>
      rw [nodesOf_cons, itemsOf_cons, Multiset.map_add, Multiset.map_add]
      refine add_le_add ?_ ih
      cases v with
      | entry n => simp [Owned.nodes, Owned.items]
      | _ => exact Multiset.zero_le _
  have hnd := h.owns.tracks.nodup
  rw [Multiset.map_add, Multiset.nodup_add] at hnd
  have hnodes := Multiset.nodup_of_le (hle _ _) hnd.2.1
  rw [← h.owns.registry] at hnodes
  exact Multiset.coe_nodup.mp hnodes.of_map

/-- The entries of a box stay ordered when nothing is registered. -/
theorem ordered_quiet (hquiet : Quiet c c') (h : Inv c V) {V' : Multiset Owned} (h' : Inv c' V')
    {ptr : Nat}
    (hord : ((entriesOf c ptr).map NativeEntry.node).reverse.Sublist c.registry) :
    ((entriesOf c' ptr).map NativeEntry.node).reverse.Sublist c'.registry := by
  cases hs' : Rc.deref? c'.states ptr with
  | none => simp [entriesOf, hs']
  | some s' =>
    rw [hquiet.entriesOf_eq hs']
    refine sublist_of_subset hord hquiet.registry h.registry_nodup ?_
    intro node hnode
    -- The entry is still there, and the registry is accounted for.
    obtain ⟨n, hn, rfl⟩ := List.mem_map.mp (List.mem_reverse.mp hnode)
    rw [← hquiet.entriesOf_eq hs', entriesOf_eq hs'] at hn
    exact h'.mem_registry.mpr ⟨ptr, s', hs', n, hn, rfl⟩

/-- The registry after a `define_func` that succeeds. -/
theorem defined_registry (c : Process F) (ptr : Nat) (s : LinkerState) (module name : Name)
    (ty : FuncType) (func : F) : (defined c ptr s module name ty func).registry
      = (entryAt c.heap.next).node :: c.registry := by
  have hpush : ∀ (d : Process F) (n : NativeEntry), (s.push d n).1.registry = d.registry := by
    intro d n
    unfold LinkerState.push
    split
    · simp only
      split <;> rfl
    · rfl
  simp only [defined, hpush]
  rfl

/-- Linkers are numbered like their boxes. -/
theorem numbers_step (w : World F) (op : Op F) (w' : World F) (h : Inv w.proc (valuesOf w))
    (hs : w.step link usizeBits op = some w') (hnext : w.proc.states.next = w.linkers.next)
    (hstate : ∀ l li, w.linkers.get? l = some li → li.state = l) :
    w'.proc.states.next = w'.linkers.next ∧
      ∀ l li, w'.linkers.get? l = some li → li.state = l := by
  cases step_iff.mp hs with
  | engineNew initOk => exact ⟨by simpa using hnext, hstate⟩
  | engineClone e en he => exact ⟨hnext, hstate⟩
  | engineDrop e en he => exact ⟨by simpa using hnext, hstate⟩
  | linkerNew e en he =>
    refine ⟨by simpa [Linker.new, Rc.new] using hnext, ?_⟩
    intro l li hl
    simp only [Arena.get?_push] at hl
    split at hl
    · rename_i heq
      obtain rfl := Option.some.inj hl
      rw [heq]
      exact hnext
    · exact hstate l li hl
  | defineFunc l module name ty func registerOk li hl =>
    have hptr := mem_stateRefsOf_valuesOf.mpr (Or.inl ⟨l, li, hl, rfl⟩)
    refine ⟨?_, hstate⟩
    rcases defineFunc_cases h hptr module name ty func registerOk with
      ⟨err, -, hdef, herr⟩ | ⟨b, -, -, -, hb, hdef⟩ <;> simp only [hdef]
    · rw [register_states_of_error herr, hnext]
    · rw [defined_states, Rc.next_update, hnext]
  | linkerDrop l li hl =>
    refine ⟨by simpa [Linker.drop] using hnext, ?_⟩
    intro k lk hk
    exact hstate k lk ((Arena.later_erase w.linkers l).get?_old k lk
      (by simpa using Arena.lt_next_of_get? hk) hk)
  | moduleNew e bytes loaded en hsize he => exact ⟨by simpa using hnext, hstate⟩
  | moduleDrop m mo hm => exact ⟨by simpa using hnext, hstate⟩
  | instantiate l m result li mo hl hm =>
    refine ⟨?_, hstate⟩
    cases result with
    | ok => exact (Rc.next_clone _ _).trans hnext
    | instantiateFailed errBuf => simpa [Linker.instantiate, Instance.new] using hnext
    | execEnvFailed =>
      simpa [Linker.instantiate, Instance.new, Process.instantiate, Process.deinstantiate,
        Process.acquire, Process.release] using hnext
  | call i ins hi => exact ⟨hnext, hstate⟩
  | instanceDrop i ins hi => exact ⟨by simpa using hnext, hstate⟩

theorem bindingInv_step (w : World F) (op : Op F) (w' : World F) (h : Inv w.proc (valuesOf w))
    (hb : BindingInv w) (hs : w.step link usizeBits op = some w') : BindingInv w' := by
  have h' := inv_step w op w' h hs
  have hfollows := step_follows w op w' h hs
  have hnumbers := numbers_step w op w' h hs hb.states_next hb.linker_state
  refine ⟨hnumbers.1, hnumbers.2, ?_, ?_⟩
  · intro ptr
    rcases step_effect w op w' h hs with
      hquiet | ⟨l, li, box, module, name, ty, func, -, -, hbox, -, -, rfl⟩
    · exact ordered_quiet hquiet h h' (hb.ordered ptr)
    -- The new entry is the last of its box and the first of the registry.
    · rw [entriesOf_defined w.proc hbox, defined_registry, List.map_append, List.reverse_append]
      split
      · exact (hb.ordered ptr).cons_cons _
      · exact (hb.ordered ptr).cons _
  · intro mo hmo b hmem
    rcases step_carried w op w' hs hmo with hold | ⟨bytes, imports, himports, hquiet⟩
    · rw [importsOf_eq hfollows (h.carried_loaded hold) (h'.carried_loaded hmo)] at hmem
      exact (hb.bound mo hold b hmem).later hfollows.heap
    · rw [himports] at hmem
      obtain ⟨imp, -, rfl⟩ := List.mem_map.mp hmem
      -- A module that was just loaded: its imports were resolved after the copy was made.
      exact ((h.alloc _).boundOk_resolve link imp).later hquiet.heap

theorem bindingInv_init : BindingInv (World.init : World F) := by
  refine ⟨rfl, fun l li hl => by simp [World.init] at hl, ?_, ?_⟩
  · intro ptr
    simp [entriesOf, Rc.deref?, World.init, Process.init]
  · rintro mo (⟨m, hm⟩ | ⟨i, ins, hi, -⟩)
    · simp [World.init] at hm
    · simp [World.init] at hi

/-- The names and orders are kept in every state that a run reaches. -/
theorem bindingInv_run {ops : List (Op F)}
    (h : run (World.step link usizeBits) World.init ops = some w) : BindingInv w := by
  refine (run_inv (fun w : World F => Inv w.proc (valuesOf w) ∧ BindingInv w) ?_
    ⟨inv_init, bindingInv_init⟩ h).2
  intro w op w' ⟨hinv, hbind⟩ hs
  exact ⟨inv_step w op w' hinv hs, bindingInv_step w op w' hinv hbind hs⟩

/-! ### Where an entry comes from -/

/-- The entry that a `define_func` added says what was defined. -/
theorem shows_defined (c : Process F) {ptr : Nat} {s : LinkerState} {module name : Name}
    {ty : FuncType} {func : F}
    (hok : EntryOk (defined c ptr s module name ty func) (entryAt c.heap.next)) :
    Shows (defined c ptr s module name ty func) (entryAt c.heap.next) ⟨module, name, ty, func⟩ := by
  obtain ⟨hmod, hname, hsig, hctx, hsym⟩ := registered_heap c module name ty func
  have hnew : Shows (registered c module name ty func) (entryAt c.heap.next)
      ⟨module, name, ty, func⟩ := ⟨hmod, hname, hsig, hctx, hsym⟩
  exact hnew.keep (Quiet.push _ _ _).heap hok

/-- Every entry of a live box was defined by an operation of the run on its linker. -/
theorem shows_run (ops : List (Op F)) {w : World F}
    (h : run (World.step link usizeBits) World.init ops = some w) {l : Nat} {n : NativeEntry}
    (hn : n ∈ entriesOf w.proc l) :
    ∃ v : EntryView F, Shows w.proc n v ∧
      .defineFunc l v.module v.name v.ty v.func true ∈ ops := by
  induction ops using List.reverseRecOn generalizing w with
  | nil =>
    cases h
    simp [entriesOf, Rc.deref?, World.init, Process.init] at hn
  | append_singleton ops op ih =>
    obtain ⟨m, hm, hstep⟩ := run_append_eq_some.mp h
    obtain ⟨m', hstep, hnil⟩ := run_cons_eq_some.mp hstep
    cases hnil
    have hinv := inv_run hm
    have hok := (inv_run h).entry_ok hn
    have hbind := bindingInv_run hm
    -- An old entry says what it said when it was defined.
    have hold : n ∈ entriesOf m.proc l → ∃ v : EntryView F, Shows w.proc n v ∧
        .defineFunc l v.module v.name v.ty v.func true ∈ ops ++ [op] := by
      intro hn
      obtain ⟨v, hv, hmem⟩ := ih hm hn
      exact ⟨v, hv.keep (step_follows m op w hinv hstep).heap hok, List.mem_append_left _ hmem⟩
    rcases step_effect m op w hinv hstep with
      hquiet | ⟨l', li, box, module, name, ty, func, rfl, hl, hbox, -, -, rfl⟩
    · obtain ⟨s, hs, -⟩ := live_of_mem_entriesOf hn
      rw [hquiet.entriesOf_eq hs] at hn
      exact hold hn
    · simp only [entriesOf_defined m.proc hbox] at hn
      rcases List.mem_append.mp hn with hn | hn
      · exact hold hn
      split at hn
      · rename_i heq
        -- The last operation defined it, on the linker with the number of the box.
        rw [hbind.linker_state l' li hl] at heq
        subst heq
        obtain rfl := List.mem_singleton.mp hn
        exact ⟨⟨module, name, ty, func⟩, shows_defined m.proc hok, by simp⟩
      · simp at hn

end Wamrx.Proofs
