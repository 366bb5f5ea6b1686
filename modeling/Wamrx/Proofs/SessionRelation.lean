import Wamrx.Session
import Wamrx.Proofs.DanglingHostFunctions
import Wamrx.Proofs.LinkerIsolation

/-!
# `Wamrx.Proofs.SessionRelation`: the pointers of the API and the definitions of a session

`Refines w s` relates a `World` to a `Session`. WAMR's registry lists the definitions that count,
in their order (`Registered`). The attachment pointer of an import leads to its definition as long
as that counts, and to freed memory afterwards (`Designates`).

`Refines.next` is the step of the relation: imports keep their targets, because a context is freed
exactly in the step after which its definition stops to count (`step_gone`). `Refines.quiet` is the
step that defines nothing, `registry_quiet` its part about the registry.
-/

set_option autoImplicit false

namespace Wamrx.Proofs

open Support

variable {F : Type} {link : Linking} {usizeBits : Nat} {w w' : World F} {s s' : Session F}
  {c : Process F}

/-! ### Contexts that are freed -/

/-- What was freed reads nothing in later states. -/
theorem get?_none_of_later {a b : Arena (Cell F)} (h : a.Later b) {addr : Nat}
    (hlt : addr < a.next) (hnone : a.get? addr = none) : b.get? addr = none := by
  cases hb : b.get? addr with
  | none => rfl
  | some cell =>
    have := h.get?_old addr cell hlt hb
    rw [hnone] at this
    cases this

/-- The drop of an entry frees its context. -/
theorem dropEntry_gone (c : Process F) (n : NativeEntry) (hlt : n.context < c.heap.next) :
    (n.drop c).heap.get? n.context = none := by
  let c₁ := (((c.free n.moduleName).free n.field).free n.signature).free n.context
  have hfreed : c₁.heap.get? n.context = none := Arena.get?_erase_self _ _
  exact get?_none_of_later (Quiet.free c₁ n.symbol).heap (by simpa [c₁, Process.free,
    Process.release] using hlt) hfreed

/-- The drop of entries frees the context of each of them. -/
theorem dropEntries_gone (ns : List NativeEntry) (c : Process F) {n : NativeEntry} (hn : n ∈ ns)
    (hlt : n.context < c.heap.next) :
    (ns.foldl NativeEntry.drop c).heap.get? n.context = none := by
  induction ns generalizing c with
  | nil => cases hn
  | cons m ns ih =>
    have hm := Quiet.dropEntry c m
    have hle := Nat.lt_of_lt_of_le hlt hm.heap.next_le
    rcases List.mem_cons.mp hn with rfl | hn
    · exact get?_none_of_later (Quiet.foldl Quiet.dropEntry ns _).heap hle (dropEntry_gone c n hlt)
    · exact ih _ hn hle

/-- The drop of a `LinkerState` frees the contexts of its entries. -/
theorem dropState_gone (c : Process F) (st : LinkerState) {n : NativeEntry} (hn : n ∈ st.entries)
    (hlt : n.context < c.heap.next) : (st.drop c).heap.get? n.context = none := by
  have hbefore := (Quiet.foldl (fun c n => Quiet.unregisterNatives c n.moduleName n.symbol)
    st.entries c).trans (Quiet.dropEngine _ st.engine)
  have hgone := dropEntries_gone st.entries _ hn (Nat.lt_of_lt_of_le hlt hbefore.heap.next_le)
  unfold LinkerState.drop
  cases st.buf with
  | none => exact hgone
  | some buf =>
    refine get?_none_of_later (Quiet.free _ buf).heap ?_ hgone
    exact Nat.lt_of_lt_of_le hlt
      (hbefore.trans (Quiet.foldl Quiet.dropEntry st.entries _)).heap.next_le

/-- A drop that takes a box away frees the contexts of its entries. -/
theorem dropRc_gone (c : Process F) (ptr : Nat) {p : Nat} {n : NativeEntry}
    (hn : n ∈ entriesOf c p) (hlt : n.context < c.heap.next)
    (hgone : ¬ Live (LinkerState.dropRc c ptr) p) :
    (LinkerState.dropRc c ptr).heap.get? n.context = none := by
  obtain ⟨st, hst, hn⟩ := live_of_mem_entriesOf hn
  have hnone : Rc.deref? (Rc.drop c.states ptr).1 p = none := by
    cases hd : Rc.deref? (Rc.drop c.states ptr).1 p with
    | none => rfl
    | some st' => exact absurd ⟨st', by rw [dropRc_states, hd]⟩ hgone
  obtain ⟨-, hlast⟩ := Rc.drop_gone hst hnone
  unfold LinkerState.dropRc
  simp only [hlast]
  exact dropState_gone _ st hn hlt

/-- A step that takes a `LinkerState` away frees the contexts of its entries. -/
theorem step_gone (w : World F) (op : Op F) (w' : World F) (h : Inv w.proc (valuesOf w))
    (hs : w.step link usizeBits op = some w') {ptr : Nat} {n : NativeEntry}
    (hn : n ∈ entriesOf w.proc ptr) (hgone : ¬ Live w'.proc ptr) :
    w'.proc.heap.get? n.context = none := by
  have h' := inv_step w op w' h hs
  have hlt : n.context < w.proc.heap.next := by
    obtain ⟨ty, func, hcell, -⟩ := (h.entry_ok hn).context
    exact Arena.lt_next_of_get? hcell
  -- Most operations keep the linkers and the instances, and with them every box.
  have hkeep : (∀ l li, w.linkers.get? l = some li → w'.linkers.get? l = some li) →
      (∀ i ins, w.instances.get? i = some ins → w'.instances.get? i = some ins) →
      w'.proc.heap.get? n.context = none := by
    intro hl hi
    obtain ⟨st, hst, -⟩ := live_of_mem_entriesOf hn
    obtain ⟨k, hk⟩ := Rc.deref?_eq_some.mp hst
    exact absurd (h'.states.deref?_of_mem (stateRefs_mono hl hi ptr
      ((h.states.live_iff ptr).mp ⟨_, hk⟩))) hgone
  cases step_iff.mp hs with
  | engineNew _ | engineClone _ _ _ | engineDrop _ _ _ | defineFunc _ _ _ _ _ _ _ _
  | moduleNew _ _ _ _ _ _ | moduleDrop _ _ _ | call _ _ _ =>
    exact hkeep (fun _ _ hl => hl) fun _ _ hi => hi
  | linkerNew e en he => exact hkeep (fun _ _ hl => Arena.get?_push_of_some _ hl) fun _ _ hi => hi
  | linkerDrop l li hl => exact dropRc_gone _ _ hn hlt hgone
  | instantiate l m result li mo hl hm =>
    refine hkeep (fun _ _ hl => hl) fun i ins hi => ?_
    cases result with
    | ok => exact Arena.get?_push_of_some _ hi
    | instantiateFailed errBuf => exact (Arena.get?_skip _ _).trans hi
    | execEnvFailed => exact (Arena.get?_skip _ _).trans hi
  | instanceDrop i ins hi =>
    -- The box goes after the module.
    let c₁ := ins.module.drop ((w.proc.destroyExecEnv ins.execEnv).deinstantiate ins.moduleInst)
    have hq : Quiet w.proc c₁ :=
      (Quiet.destroyExecEnv _ _).trans ((Quiet.deinstantiate _ _).trans (Quiet.dropModule _ _))
    have hn₁ : n ∈ entriesOf c₁ ptr := by
      have hstates : c₁.states = w.proc.states := dropModule_states _ _
      rwa [entriesOf, hstates]
    exact dropRc_gone c₁ _ hn₁ (Nat.lt_of_lt_of_le hlt hq.heap.next_le) hgone

/-! ### The relation -/

/-- What the blocks of the definition's entry say. -/
def viewOf (d : Definition F) : EntryView F := ⟨d.module, d.name, d.ty, d.func⟩

/-- The node belongs to an entry of the definition's linker, and the entry says what was defined. -/
def Registered (c : Process F) (node : NativesNode) (d : Definition F) : Prop :=
  ∃ n ∈ entriesOf c d.linker, n.node = node ∧ Shows c n (viewOf d)

/-- The pointer leads to the context of the definition, as long as that counts. -/
structure Designates (c : Process F) (s : Session F) (addr : Nat) (d : Definition F) : Prop where
  old : addr < c.heap.next
  linker_old : d.linker < s.linkers.next
  counts : s.holds d.linker = true →
    ∃ n ∈ entriesOf c d.linker, n.context = addr ∧ Shows c n (viewOf d)
  gone : s.holds d.linker = false → c.heap.get? addr = none

/-- An import on both sides: unlinked, or linked to the same definition. -/
inductive SameTarget (c : Process F) (s : Session F) : BoundImport → Binding F → Prop
  | unlinked (imp : Import) : SameTarget c s ⟨imp, none⟩ ⟨imp, none⟩
  | linked (imp : Import) (addr : Nat) (d : Definition F) (h : Designates c s addr d) :
      SameTarget c s ⟨imp, some addr⟩ ⟨imp, some d⟩

/-- The imports of a module on both sides. -/
def SameTargets (c : Process F) (s : Session F) (m : Module) (bs : List (Binding F)) : Prop :=
  List.Forall₂ (SameTarget c s) (c.importsOf m) bs

/-- A state of the API and a session. -/
structure Refines (w : World F) (s : Session F) : Prop where
  inv : Inv w.proc (valuesOf w)
  bind : BindingInv w
  engines : Arena.Rel (fun _ _ => True) w.engines s.engines
  linkers : Arena.Rel (fun _ _ => True) w.linkers s.linkers
  modules : Arena.Rel (SameTargets w.proc s) w.modules s.modules
  instances : Arena.Rel (fun ins i => i.linker = ins.linkerState ∧
    SameTargets w.proc s ins.module i.bindings) w.instances s.instances
  defs_old : ∀ d ∈ s.defs, d.linker < s.linkers.next
  /-- The registry lists the definitions that count, newest first. -/
  registry : List.Forall₂ (Registered w.proc) w.proc.registry s.counting

theorem refines_init : Refines (World.init : World F) Session.init :=
  ⟨inv_init, bindingInv_init, Arena.rel_empty _, Arena.rel_empty _, Arena.rel_empty _,
    Arena.rel_empty _, by simp [Session.init], .nil⟩

/-- The user holds a linker, or an instance that it made, exactly when its box is live. -/
theorem holds_iff_live (h : Inv w.proc (valuesOf w))
    (hstate : ∀ l li, w.linkers.get? l = some li → li.state = l)
    (hl : Arena.Rel (fun _ _ => True) w.linkers s.linkers)
    (hi : Arena.Rel (fun (ins : Instance) (i : SessionInstance F) => i.linker = ins.linkerState)
      w.instances s.instances) (l : Nat) : s.holds l = true ↔ Live w.proc l := by
  have hlive : Live w.proc l ↔ l ∈ stateRefsOf (valuesOf w) := by
    constructor
    · rintro ⟨st, hst⟩
      obtain ⟨k, hk⟩ := Rc.deref?_eq_some.mp hst
      exact (h.states.live_iff l).mp ⟨_, hk⟩
    · exact fun hmem => h.states.deref?_of_mem hmem
  rw [hlive, mem_stateRefsOf_valuesOf, Session.holds, Bool.or_eq_true, Option.isSome_iff_exists,
    Arena.any_iff]
  constructor
  · rintro (⟨_, hk⟩ | ⟨k, i, hk, heq⟩)
    · obtain ⟨li, hli, -⟩ := hl.of_right hk
      exact Or.inl ⟨l, li, hli, hstate l li hli⟩
    · obtain ⟨ins, hins, hlinker⟩ := hi.of_right hk
      exact Or.inr ⟨k, ins, hins, by rw [← hlinker]; exact beq_iff_eq.mp heq⟩
  · rintro (⟨k, li, hk, rfl⟩ | ⟨k, ins, hk, rfl⟩)
    · rw [hstate k li hk]
      obtain ⟨_, hk', -⟩ := hl.of_left hk
      exact Or.inl ⟨(), hk'⟩
    · obtain ⟨i, hi', hlinker⟩ := hi.of_left hk
      exact Or.inr ⟨k, i, hi', beq_iff_eq.mpr hlinker⟩

theorem Refines.holds_iff (h : Refines w s) (l : Nat) : s.holds l = true ↔ Live w.proc l :=
  holds_iff_live h.inv h.bind.linker_state h.linkers
    (h.instances.mono fun _ _ _ _ _ hP => hP.1) l

/-- Linkers and boxes are numbered alike on both sides. -/
theorem Refines.states_next (h : Refines w s) : w.proc.states.next = s.linkers.next := by
  rw [h.bind.states_next, h.linkers.next_eq]

/-! ### One step of the relation -/

/-- A pointer keeps its definition, until the step that takes the definition's linker away. -/
theorem Designates.step (h : Refines w s) {op : Op F} (hs : w.step link usizeBits op = some w')
    (hholds : ∀ l, s'.holds l = true ↔ Live w'.proc l) (hnext : s.linkers.next ≤ s'.linkers.next)
    {addr : Nat} {d : Definition F} (hd : Designates w.proc s addr d) :
    Designates w'.proc s' addr d := by
  have hinv' := inv_step w op w' h.inv hs
  have hf := step_follows w op w' h.inv hs
  have hlt : d.linker < w.proc.states.next := by
    rw [h.states_next]
    exact hd.linker_old
  refine ⟨Nat.lt_of_lt_of_le hd.old hf.heap.next_le, Nat.lt_of_lt_of_le hd.linker_old hnext,
    fun hcounts => ?_, fun hgone => ?_⟩
  · obtain ⟨st', hst'⟩ := (hholds d.linker).mp hcounts
    obtain ⟨n, hn, hctx, hshows⟩ := hd.counts ((h.holds_iff _).mpr (hf.live _ st' hlt hst'))
    obtain ⟨new, heq, -⟩ := hf.entries _ st' hst'
    have hn' : n ∈ entriesOf w'.proc d.linker := by
      rw [entriesOf_eq hst', heq]
      exact List.mem_append_left _ hn
    exact ⟨n, hn', hctx, hshows.keep hf.heap (hinv'.entry_ok hn')⟩
  · cases hbefore : s.holds d.linker with
    | false => exact get?_none_of_later hf.heap hd.old (hd.gone hbefore)
    | true =>
      obtain ⟨n, hn, rfl, -⟩ := hd.counts hbefore
      refine step_gone w op w' h.inv hs hn fun hlive => ?_
      rw [(hholds _).mpr hlive] at hgone
      cases hgone

/-- The imports of the module, as they are on the left side after the step, have the targets that
they had before it. -/
def KeptTargets (w : World F) (s : Session F) (w' : World F) (m : Module)
    (bs : List (Binding F)) : Prop :=
  (Carried w m ∧ SameTargets w.proc s m bs) ∨
    List.Forall₂ (SameTarget w.proc s) (w'.proc.importsOf m) bs

/-- Imports keep their targets. -/
theorem KeptTargets.step (h : Refines w s) {op : Op F} (hs : w.step link usizeBits op = some w')
    (hholds : ∀ l, s'.holds l = true ↔ Live w'.proc l) (hnext : s.linkers.next ≤ s'.linkers.next)
    {m : Module} (hm : Carried w' m) {bs : List (Binding F)} (hbs : KeptTargets w s w' m bs) :
    SameTargets w'.proc s' m bs := by
  have hinv' := inv_step w op w' h.inv hs
  have himports : List.Forall₂ (SameTarget w.proc s) (w'.proc.importsOf m) bs := by
    rcases hbs with ⟨hold, hbs⟩ | hnew
    · rwa [importsOf_eq (step_follows w op w' h.inv hs) (h.inv.carried_loaded hold)
        (hinv'.carried_loaded hm)]
    · exact hnew
  refine himports.imp ?_
  rintro _ _ (imp | ⟨imp, addr, d, hd⟩)
  · exact .unlinked imp
  · exact .linked imp addr d (hd.step h hs hholds hnext)

theorem Refines.kept_modules (h : Refines w s) (w' : World F) :
    Arena.Rel (KeptTargets w s w') w.modules s.modules :=
  h.modules.mono fun m _ _ hx _ hP => Or.inl ⟨Or.inl ⟨m, hx⟩, hP⟩

theorem Refines.kept_instances (h : Refines w s) (w' : World F) :
    Arena.Rel (fun ins i => i.linker = ins.linkerState ∧
      KeptTargets w s w' ins.module i.bindings) w.instances s.instances :=
  h.instances.mono fun k x _ hx _ hP => ⟨hP.1, Or.inl ⟨Or.inr ⟨k, x, hx, rfl⟩, hP.2⟩⟩

/-- The relation after a step, when the registry still lists the definitions that count. -/
theorem Refines.next (h : Refines w s) {op : Op F} (hs : w.step link usizeBits op = some w')
    (he : Arena.Rel (fun _ _ => True) w'.engines s'.engines)
    (hl : Arena.Rel (fun _ _ => True) w'.linkers s'.linkers)
    (hm : Arena.Rel (KeptTargets w s w') w'.modules s'.modules)
    (hi : Arena.Rel (fun ins i => i.linker = ins.linkerState ∧
      KeptTargets w s w' ins.module i.bindings) w'.instances s'.instances)
    (hnext : s.linkers.next ≤ s'.linkers.next) (hold : ∀ d ∈ s'.defs, d.linker < s'.linkers.next)
    (hreg : (∀ l, s'.holds l = true ↔ Live w'.proc l) →
      List.Forall₂ (Registered w'.proc) w'.proc.registry s'.counting) : Refines w' s' := by
  have hinv' := inv_step w op w' h.inv hs
  have hbind' := bindingInv_step w op w' h.inv h.bind hs
  have hholds := holds_iff_live hinv' hbind'.linker_state hl (hi.mono fun _ _ _ _ _ hP => hP.1)
  refine ⟨hinv', hbind', he, hl, ?_, ?_, hold, hreg hholds⟩
  · exact hm.mono fun k m _ hk _ hbs => hbs.step h hs hholds hnext (Or.inl ⟨k, hk⟩)
  · exact hi.mono fun k ins _ hk _ hP =>
      ⟨hP.1, hP.2.step h hs hholds hnext (Or.inr ⟨k, ins, hk, rfl⟩)⟩

/-- Two entries of live boxes with the same node are the same. -/
theorem Inv.entry_of_node_eq {V : Multiset Owned} (h : Inv c V) {p p' : Nat} {n n' : NativeEntry}
    (hn : n ∈ entriesOf c p) (hn' : n' ∈ entriesOf c p') (hnode : n.node = n'.node) :
    n = n' ∧ p = p' := by
  have hctx : n.context = n'.context := by
    have hsym := (h.entry_ok hn).symbol
    have hsym' := (h.entry_ok hn').symbol
    have heq : n.symbol = n'.symbol := congrArg NativesNode.nativeSymbols hnode
    rw [heq, hsym'] at hsym
    simp only [Option.some.injEq, Cell.symbols.injEq, NativeSymbol.mk.injEq] at hsym
    exact hsym.2.2.symm
  obtain ⟨st, hst, hmem⟩ := live_of_mem_entriesOf hn
  obtain ⟨st', hst', hmem'⟩ := live_of_mem_entriesOf hn'
  exact ⟨h.entry_unique hn hn' hctx, h.context_unique hst hmem hst' hmem' hctx⟩

/-- A quiet step takes the same definitions out of the registry that stop to count. -/
theorem registry_quiet (h : Refines w s) (hinv' : Inv w'.proc (valuesOf w'))
    (hq : Quiet w.proc w'.proc) (hholds : ∀ l, s'.holds l = true ↔ Live w'.proc l)
    (hdefs : s'.defs = s.defs) :
    List.Forall₂ (Registered w'.proc) w'.proc.registry s'.counting := by
  have hbefore : ∀ d ∈ s.defs, s'.holds d.linker = true → s.holds d.linker = true := by
    intro d hd hcounts
    obtain ⟨st', hst'⟩ := (hholds _).mp hcounts
    refine (h.holds_iff _).mpr (hq.follows.live _ st' ?_ hst')
    rw [h.states_next]
    exact h.defs_old d hd
  -- A registration stays exactly when its definition still counts.
  have hstays : ∀ node d, Registered w.proc node d →
      (node ∈ w'.proc.registry ↔ s'.holds d.linker = true) := by
    rintro node d ⟨n, hn, rfl, hshows⟩
    rw [hholds]
    constructor
    · intro hmem
      obtain ⟨p, n', v, hn', hnode, -⟩ := hinv'.entry_of_node hmem
      obtain ⟨st', hst', -⟩ := live_of_mem_entriesOf hn'
      rw [hq.entriesOf_eq hst'] at hn'
      obtain ⟨-, rfl⟩ := h.inv.entry_of_node_eq hn hn' hnode.symm
      exact ⟨st', hst'⟩
    · rintro ⟨st', hst'⟩
      rw [← hq.entriesOf_eq hst', entriesOf_eq hst'] at hn
      exact hinv'.mem_registry.mpr ⟨_, st', hst', n, hn, rfl⟩
  have hcounting : s'.counting = s.counting.filter fun d => s'.holds d.linker := by
    rw [Session.counting, Session.counting, List.filter_filter, hdefs]
    refine List.filter_congr fun d hd => ?_
    cases hd' : s'.holds d.linker with
    | false => rfl
    | true => rw [hbefore d hd hd']; rfl
  rw [eq_filter_of_sublist hq.registry h.inv.registry_nodup, hcounting]
  have hfiltered := List.rel_filter (R := Registered w.proc)
    (p := fun node => decide (node ∈ w'.proc.registry)) (q := fun d => s'.holds d.linker)
    (fun node d hR => decide_eq_true_iff.trans (hstays node d hR)) h.registry
  refine ((List.forall₂_and_left (p := (· ∈ w'.proc.registry)) _ _).mpr
    ⟨fun node hnode => of_decide_eq_true (List.mem_filter.mp hnode).2, hfiltered⟩).imp ?_
  rintro node d ⟨hnode, n, hn, rfl, hshows⟩
  obtain ⟨st', hst'⟩ := (hholds _).mp ((hstays _ d ⟨n, hn, rfl, hshows⟩).mp hnode)
  rw [← hq.entriesOf_eq hst'] at hn
  exact ⟨n, hn, rfl, hshows.keep hq.heap (hinv'.entry_ok hn)⟩

/-- The relation after a step that defines nothing. -/
theorem Refines.quiet (h : Refines w s) {op : Op F} (hs : w.step link usizeBits op = some w')
    (hq : Quiet w.proc w'.proc) (he : Arena.Rel (fun _ _ => True) w'.engines s'.engines)
    (hl : Arena.Rel (fun _ _ => True) w'.linkers s'.linkers)
    (hm : Arena.Rel (KeptTargets w s w') w'.modules s'.modules)
    (hi : Arena.Rel (fun ins i => i.linker = ins.linkerState ∧
      KeptTargets w s w' ins.module i.bindings) w'.instances s'.instances)
    (hdefs : s'.defs = s.defs) : Refines w' s' := by
  have hnext : s.linkers.next ≤ s'.linkers.next := by
    have hnext' := (bindingInv_step w op w' h.inv h.bind hs).states_next
    rw [← h.states_next, hl.next_eq, ← hnext']
    exact hq.states_next
  refine h.next hs he hl hm hi hnext ?_ fun hholds =>
    registry_quiet h (inv_step w op w' h.inv hs) hq hholds hdefs
  intro d hd
  rw [hdefs] at hd
  exact Nat.lt_of_lt_of_le (h.defs_old d hd) hnext

end Wamrx.Proofs
