import Wamrx.Proofs.Worlds

/-!
# `Wamrx.Proofs.HandleLifecycle`: the life of a WAMR handle

`Held w r` says that a live value owns the resource, and `Lifecycle w` what the trace of the run
says about every handle: it is released at most once, exactly when its owner is gone, before
everything it relies on, and in the incarnation of the runtime it was acquired in.

`handle_lifecycle` is about every run, with every pattern of failures of WAMR.
-/

set_option autoImplicit false

namespace Wamrx.Proofs

open Support Support.Lifetime

variable {F : Type} {link : Linking} {usizeBits : Nat} {w : World F}

/-- A live value owns the resource: the engines together own the runtime, a module owns its
handle and bytes, an instance its handles and its module, and a `LinkerState` that is referenced
owns its entries and their buffer. -/
def Held (w : World F) (r : Resource) : Prop :=
  (w.proc.eng.initialized = true ∧ r = w.proc.runtime) ∨
  (∃ m mo, w.modules.get? m = some mo ∧ r ∈ (Owned.module mo).resources) ∨
  (∃ i ins, w.instances.get? i = some ins ∧ r ∈ (Owned.inst ins).resources) ∨
  ∃ ptr s, Rc.deref? w.proc.states ptr = some s ∧
    ((∃ n ∈ s.entries, r ∈ (Owned.entry n).resources) ∨ ∃ buf ∈ s.buf, r = .block buf)

/-- What the trace says about the handles. -/
structure Lifecycle (w : World F) : Prop where
  /-- Nothing is released twice. -/
  once : ∀ r, w.proc.trace.count (.release r) ≤ 1
  /-- What was acquired has been released exactly when its owner is gone. -/
  released_iff : ∀ r deps, .acquire r deps ∈ w.proc.trace →
    (.release r ∈ w.proc.trace ↔ ¬ Held w r)
  /-- An execution environment relies on its module instance, a module instance on its module,
  a module on its bytes, a registration on the storage of its entry, and all of them on the
  runtime. -/
  reliesOn : ∀ r deps, .acquire r deps ∈ w.proc.trace → ReliesOn r deps
  /-- A resource is released before anything it relies on. -/
  order : ∀ r deps d pre post, .acquire r deps ∈ w.proc.trace → d ∈ deps →
    w.proc.trace = pre ++ .release d :: post → .release r ∈ pre
  /-- A handle is acquired and released while its incarnation of the runtime is alive. -/
  incarnation : ∀ r deps k pre post, .acquire r deps ∈ w.proc.trace → .runtime k ∈ deps →
    (w.proc.trace = pre ++ .acquire r deps :: post ∨ w.proc.trace = pre ++ .release r :: post) →
    .acquire (.runtime k) [] ∈ pre ∧ .release (.runtime k) ∉ pre

/-! ### What the values own -/

/-- The resources of the parts of a `LinkerState`. -/
theorem resources_parts {s : LinkerState} {r : Resource} :
    (∃ v ∈ parts s, r ∈ v.resources) ↔
      (∃ n ∈ s.entries, r ∈ (Owned.entry n).resources) ∨ ∃ buf ∈ s.buf, r = .block buf := by
  constructor
  · rintro ⟨v, hv, hr⟩
    rw [parts, Multiset.mem_cons, Multiset.mem_add, mem_entries, mem_blocks] at hv
    rcases hv with rfl | ⟨n, hn, rfl⟩ | ⟨buf, hbuf, rfl⟩
    · simp [Owned.resources] at hr
    · exact Or.inl ⟨n, hn, hr⟩
    · exact Or.inr ⟨buf, by simpa using hbuf, by simpa [Owned.resources] using hr⟩
  · rintro (⟨n, hn, hr⟩ | ⟨buf, hbuf, rfl⟩)
    · exact ⟨.entry n, by simp [parts, mem_entries, hn], hr⟩
    · have hbuf : s.buf = some buf := hbuf
      exact ⟨.block buf, by simp [parts, hbuf], by simp [Owned.resources]⟩

/-- The owners of a resource among the values and the boxes. -/
theorem owner_iff {r : Resource} : (∃ v ∈ valuesOf w + statesParts w.proc, r ∈ v.resources) ↔
    (∃ m mo, w.modules.get? m = some mo ∧ r ∈ (Owned.module mo).resources) ∨
    (∃ i ins, w.instances.get? i = some ins ∧ r ∈ (Owned.inst ins).resources) ∨
    ∃ ptr s, Rc.deref? w.proc.states ptr = some s ∧ ∃ v ∈ parts s, r ∈ v.resources := by
  constructor
  · rintro ⟨v, hv, hr⟩
    rcases Multiset.mem_add.mp hv with hv | hv
    · rcases mem_valuesOf.mp hv with ⟨e, en, -, rfl⟩ | ⟨l, li, -, rfl⟩ | ⟨m, mo, hm, rfl⟩ |
        ⟨i, ins, hi, rfl⟩
      · simp [Owned.resources] at hr
      · simp [Owned.resources] at hr
      · exact Or.inl ⟨m, mo, hm, hr⟩
      · exact Or.inr (Or.inl ⟨i, ins, hi, hr⟩)
    · obtain ⟨s, hs, hv⟩ := Multiset.mem_bind.mp hv
      obtain ⟨ptr, hptr⟩ := Rc.mem_contents.mp hs
      exact Or.inr (Or.inr ⟨ptr, s, hptr, v, hv, hr⟩)
  · rintro (⟨m, mo, hm, hr⟩ | ⟨i, ins, hi, hr⟩ | ⟨ptr, s, hs, v, hv, hr⟩)
    · have hv := mem_valuesOf.mpr (Or.inr (Or.inr (Or.inl ⟨m, mo, hm, rfl⟩)))
      exact ⟨_, Multiset.mem_add.mpr (Or.inl hv), hr⟩
    · have hv := mem_valuesOf.mpr (Or.inr (Or.inr (Or.inr ⟨i, ins, hi, rfl⟩)))
      exact ⟨_, Multiset.mem_add.mpr (Or.inl hv), hr⟩
    · have hv := Multiset.mem_bind.mpr ⟨s, Rc.mem_contents.mpr ⟨ptr, hs⟩, hv⟩
      exact ⟨v, Multiset.mem_add.mpr (Or.inr hv), hr⟩

/-- A resource is live exactly when a live value owns it. -/
theorem held_iff {r : Resource} : Held w r ↔ r ∈ (runtimeItems w.proc +
    itemsOf w.proc.eng.incarnation (valuesOf w + statesParts w.proc)).map Item.res := by
  -- The runtime has no single owner: it is held while it is initialised.
  have hrun : r ∈ (runtimeItems w.proc).map Item.res ↔
      w.proc.eng.initialized = true ∧ r = w.proc.runtime := by
    unfold runtimeItems
    split <;> simp [*]
  rw [Multiset.map_add, Multiset.mem_add, hrun, mem_res_itemsOf, owner_iff, Held]
  simp only [resources_parts]

/-! ### The theorem -/

/-- The trace of every reachable state follows the protocol. -/
theorem lifecycle_run {ops : List (Op F)}
    (h : run (World.step link usizeBits) World.init ops = some w) : Lifecycle w := by
  have hrelies := fun {r deps} => @reliesOn_run F link usizeBits w ops h r deps
  have htr := (inv_run h).owns.tracks
  obtain ⟨s, hs, -, -⟩ := htr.replays
  refine ⟨count_release_le_one hs, ?_, fun r deps => hrelies, ?_, ?_⟩
  · intro r deps ha
    rw [held_iff]
    exact htr.release_mem_iff ha
  · intro r deps d pre post ha hd hsplit
    rw [hsplit] at hs ha
    exact release_precedes hs ha hd
  · intro r deps k pre post ha hk hsplit
    -- At both events the protocol asks for a live runtime.
    have hlive : (∃ ddeps, Act.acquire (.runtime k) ddeps ∈ pre) ∧
        Act.release (.runtime k) ∉ pre := by
      rcases hsplit with hsplit | hsplit
      · rw [hsplit] at hs
        exact live_at_acquire hs hk
      · rw [hsplit] at hs ha
        exact live_at_release hs ha hk
    obtain ⟨⟨ddeps, hacq⟩, hnot⟩ := hlive
    have hmem : Act.acquire (.runtime k) ddeps ∈ w.proc.trace := by
      rcases hsplit with hsplit | hsplit <;> rw [hsplit] <;> exact List.mem_append_left _ hacq
    have hnil : ddeps = [] := hrelies hmem
    exact ⟨hnil ▸ hacq, hnot⟩

/-- The drop of an instance releases its execution environment, its module instance and its
module before anything else. -/
theorem dropInstance_trace (c : Process F) (i : Instance) :
    ∃ rest, (i.drop c).trace = c.trace ++ .release (.execEnv i.execEnv) ::
      .release (.moduleInst i.moduleInst) :: .release (.module i.module.raw) :: rest := by
  let c₁ := ((c.destroyExecEnv i.execEnv).deinstantiate i.moduleInst).unload i.module.raw
  have hquiet : Quiet c₁ (i.drop c) :=
    (Quiet.free c₁ _).trans ((Quiet.dropEngine _ _).trans (Quiet.dropRc _ _))
  obtain ⟨rest, heq, -⟩ := hquiet.trace
  exact ⟨rest, heq.trans (by simp [c₁, Process.unload, Process.deinstantiate,
    Process.destroyExecEnv, Process.release])⟩

/-- Every handle that a run acquires is released at most once, exactly when its owner is gone,
before everything it relies on, and in its own incarnation of the runtime. An instance's module
is unloaded before the drop of the instance unregisters anything. -/
theorem handle_lifecycle (link : Linking) (usizeBits : Nat) (ops : List (Op F)) (w : World F)
    (h : run (World.step link usizeBits) World.init ops = some w) :
    Lifecycle w ∧ ∀ i ins w', w.instances.get? i = some ins →
      w.step link usizeBits (.instanceDrop i) = some w' →
      ∃ rest, w'.proc.trace = w.proc.trace ++ .release (.execEnv ins.execEnv) ::
        .release (.moduleInst ins.moduleInst) :: .release (.module ins.module.raw) :: rest := by
  refine ⟨lifecycle_run h, ?_⟩
  intro i ins w' hi hs
  cases step_iff.mp hs with
  | instanceDrop _ ins' hi' =>
    obtain rfl := Option.some.inj (hi.symm.trans hi')
    exact dropInstance_trace w.proc ins

/-- A run with a failure of each kind. The instance outlives its linker, and its drop ends the
runtime. -/
def failuresRun : List (Op Unit) :=
  [.engineNew false, .engineNew true, .engineClone 1, .linkerNew 1,
    .defineFunc 0 [0x6d] [0x66] ⟨[], []⟩ () false, .defineFunc 0 [0x6d] [0x66] ⟨[], []⟩ () true,
    .moduleNew 1 [] (.error []), .moduleNew 2 [] (.ok [⟨[0x6d], [0x66], ⟨[], []⟩⟩]),
    .instantiate 0 1 .execEnvFailed, .moduleNew 2 [] (.ok []), .instantiate 0 2 .ok,
    .linkerDrop 0, .engineDrop 1, .engineDrop 2, .instanceDrop 1]

/-- What a trace acquires and releases, in order, without the blocks of the heap. -/
def acquired (trace : List (Act Resource)) : List Resource :=
  trace.filterMap fun
    | .acquire (.block _) _ | .release _ => none
    | .acquire r _ => some r
def released (trace : List (Act Resource)) : List Resource :=
  trace.filterMap fun
    | .release (.block _) | .acquire _ _ => none
    | .release r => some r

/-- Two instances are made, and one of them loses its execution environment. Everything is released,
the runtime at the end. -/
theorem handle_lifecycle_failuresRun :
    ∃ w, run (World.step wamrLink 64) World.init failuresRun = some w ∧ Lifecycle w ∧
      acquired w.proc.trace = [.runtime 1, .natives ⟨5, 9⟩, .module 0, .moduleInst 0, .module 1,
        .moduleInst 1, .execEnv 0] ∧
      released w.proc.trace = [.moduleInst 0, .module 0, .execEnv 0, .moduleInst 1, .module 1,
        .natives ⟨5, 9⟩, .runtime 1] := by
  have hlook : (run (World.step wamrLink 64) World.init failuresRun).map
      (fun w => (acquired w.proc.trace, released w.proc.trace))
        = some ([.runtime 1, .natives ⟨5, 9⟩, .module 0, .moduleInst 0, .module 1,
          .moduleInst 1, .execEnv 0], [.moduleInst 0, .module 0, .execEnv 0, .moduleInst 1,
          .module 1, .natives ⟨5, 9⟩, .runtime 1]) := by decide
  obtain ⟨w, hw, hlook⟩ := Option.map_eq_some_iff.mp hlook
  obtain ⟨hacquired, hreleased⟩ := Prod.mk.inj hlook
  exact ⟨w, hw, (handle_lifecycle wamrLink 64 failuresRun w hw).1, hacquired, hreleased⟩

end Wamrx.Proofs
