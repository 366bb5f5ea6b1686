import Wamrx.Proofs.RuntimeRefcount
import Wamrx.ThreadEnv

/-!
# `Wamrx.Proofs.ThreadEnvs`: when a thread's environment matches the runtime

`THREAD_ENV` is created once in the life of a thread, while the runtime may end and start again
any number of times. `ThreadSystemInv` says what the environments are at any moment: that of a
thread is initialised in the running runtime exactly when the thread is `Fresh`, which means
that its `THREAD_ENV` was created in this incarnation or that the thread started it.

* `threadSystemInv_step` keeps the invariant at each atomic step.
* `instantiate_matches_iff`, `call_matches_iff`, `exit_matches_iff` say when one step finds the
  right environment.
* `thread_env_matches`: every environment matches in every state of a run exactly when every
  step of the run meets `EnvCondition`.
* `thread_env_mismatch`: two short runs in which one does not.
-/

set_option autoImplicit false

namespace Wamrx.Proofs

open Support

/-! ### What one engine step does to the runtime -/

/-- The effect of an engine step on the runtime, by the calls it makes. -/
inductive RuntimeEffect (st st' : EngineState) : List RuntimeCall → Prop where
  | quiet : st'.incarnation = st.incarnation → st'.initialized = st.initialized →
      RuntimeEffect st st' []
  | failed : st'.incarnation = st.incarnation → st'.initialized = st.initialized →
      RuntimeEffect st st' [.fullInit false]
  | started : st.initialized = false → st'.incarnation = st.incarnation + 1 →
      st'.initialized = true → RuntimeEffect st st' [.fullInit true]
  | ended : st'.incarnation = st.incarnation → st'.initialized = false →
      RuntimeEffect st st' [.destroy]

/-- Every engine step has one of these effects. -/
theorem runtimeEffect_of_step {s s' : EngineSystem} {op : EngineOp} (h : EngineSystemInv s)
    (hs : s.step op = some s') :
    ∃ calls, s'.calls = s.calls ++ calls ∧ RuntimeEffect s.st s'.st calls := by
  cases engineStepped_of_step h hs with
  | newFailed t => exact ⟨_, rfl, .failed rfl rfl⟩
  | newFirst t st e hzero hcounts hinc =>
    -- The count was zero, so the runtime was not initialised.
    have hoff : s.st.initialized = false := by
      rw [← Bool.not_eq_true, h.counts.initialized_iff]
      omega
    exact ⟨_, rfl, .started hoff hinc (hcounts.initialized (Multiset.mem_cons_self _ _))⟩
  | newFurther t initOk st e hpos hcounts hinc =>
    have hon : st.initialized = true := hcounts.initialized (Multiset.mem_cons_self _ _)
    have hbefore : s.st.initialized = true := h.counts.initialized_iff.mpr hpos
    exact ⟨[], (List.append_nil _).symm, .quiet hinc (hon.trans hbefore.symm)⟩
  | clone t e en hget => exact ⟨[], (List.append_nil _).symm, .quiet rfl rfl⟩
  | drop t e en hget => exact ⟨[], (List.append_nil _).symm, .quiet rfl rfl⟩
  | dropInner t ht =>
    refine ⟨s.st.dropInner.2, rfl, ?_⟩
    show RuntimeEffect s.st s.st.dropInner.1 s.st.dropInner.2
    unfold EngineState.dropInner
    simp only
    split
    · exact .ended rfl rfl
    · exact .quiet rfl rfl

/-! ### The invariant -/

/-- The thread's `THREAD_ENV` was created in the current incarnation of the runtime, or the
thread is the one that started it. -/
def Fresh (s : ThreadSystem) (t : ThreadId) : Prop :=
  s.guards t = some s.sys.st.incarnation ∨ s.initThread = some t

/-- The invariant of the threads. Nothing is said about the environment of a thread that has
exited. -/
structure ThreadSystemInv (s : ThreadSystem) : Prop where
  engines : EngineSystemInv s.sys
  guards_le : ∀ t k, s.guards t = some k → k ≤ s.sys.st.incarnation
  env_fresh : ∀ t, t ∉ s.exited → Fresh s t → s.envs t = s.runtime
  env_stale : ∀ t, t ∉ s.exited → ¬ Fresh s t → s.envs t = none

theorem threadSystemInv_init : ThreadSystemInv ThreadSystem.init :=
  ⟨engineSystemInv_init, fun _ _ h => (nomatch h), fun _ _ _ => rfl,
    fun _ _ _ => rfl⟩

/-- Logging a call changes nothing else. -/
theorem ThreadSystemInv.wamrCall {s : ThreadSystem} (h : ThreadSystemInv s) (t : ThreadId)
    (use : EnvUse) : ThreadSystemInv (s.wamrCall t use) :=
  ⟨h.engines, h.guards_le, h.env_fresh, h.env_stale⟩

/-- While the runtime is down, no environment is initialised. -/
theorem ThreadSystemInv.env_none {s : ThreadSystem} (h : ThreadSystemInv s)
    (hoff : s.sys.st.initialized = false) {t : ThreadId} (ht : t ∉ s.exited) :
    s.envs t = none := by
  by_cases hf : Fresh s t
  · rw [h.env_fresh t ht hf, ThreadSystem.runtime, hoff]
    rfl
  · exact h.env_stale t ht hf

/-- After `ensure_thread_env` the guard exists, and the thread is fresh unless an old guard
kept it from initialising its environment again. -/
theorem fresh_ensureThreadEnv (s : ThreadSystem) (t : ThreadId) :
    Fresh (s.ensureThreadEnv t) t ↔ s.guards t = none ∨ Fresh s t := by
  unfold ThreadSystem.ensureThreadEnv
  cases hg : s.guards t with
  | some k => simp
  | none => simp [Fresh, ThreadSystem.initThreadEnv]

theorem ThreadSystemInv.ensureThreadEnv {s : ThreadSystem} (h : ThreadSystemInv s)
    (t : ThreadId) : ThreadSystemInv (s.ensureThreadEnv t) := by
  unfold ThreadSystem.ensureThreadEnv
  cases hg : s.guards t with
  | some k => exact h
  | none =>
    -- Only the environment and the guard of `t` change, and both are of this incarnation.
    have henv : ∀ u, u ≠ t → (s.initThreadEnv t).envs u = s.envs u :=
      fun u hut => Function.update_of_ne hut _ _
    have hguard : ∀ u, u ≠ t →
        Function.update s.guards t (some s.sys.st.incarnation) u = s.guards u :=
      fun u hut => Function.update_of_ne hut _ _
    refine ⟨h.engines, ?_, ?_, ?_⟩
    · intro u k hk
      by_cases hut : u = t
      · subst hut
        simp only [Function.update_self, Option.some.injEq] at hk
        exact Nat.le_of_eq hk.symm
      · exact h.guards_le u k ((hguard u hut).symm.trans hk)
    · intro u hu hf
      by_cases hut : u = t
      · subst hut
        exact Function.update_self _ _ _
      · exact (henv u hut).trans (h.env_fresh u hu (hf.imp_left (hguard u hut).symm.trans))
    · intro u hu hf
      by_cases hut : u = t
      · subst hut
        exact absurd (Or.inl (Function.update_self _ _ _)) hf
      · exact (henv u hut).trans
          (h.env_stale u hu fun hf' => hf (hf'.imp_left (hguard u hut).trans))

/-- The exit of a thread keeps the environments of all others. -/
theorem ThreadSystemInv.exitThread {s : ThreadSystem} (h : ThreadSystemInv s) (t : ThreadId) :
    ThreadSystemInv (s.exitThread t) := by
  unfold ThreadSystem.exitThread
  have hex : ∀ {u}, u ∉ t :: s.exited → u ≠ t ∧ u ∉ s.exited :=
    fun hu => not_or.mp (mt List.mem_cons.mpr hu)
  cases hg : s.guards t with
  | none =>
    exact ⟨h.engines, h.guards_le, fun u hu => h.env_fresh u (hex hu).2,
      fun u hu => h.env_stale u (hex hu).2⟩
  | some k =>
    have henv : ∀ u, u ≠ t → (s.destroyThreadEnv t).envs u = s.envs u :=
      fun u hut => Function.update_of_ne hut _ _
    refine ⟨h.engines, h.guards_le, ?_, ?_⟩
    · intro u hu hf
      -- Nothing is claimed about `t` any more, it has exited.
      exact (henv u (hex hu).1).trans (h.env_fresh u (hex hu).2 hf)
    · intro u hu hf
      exact (henv u (hex hu).1).trans (h.env_stale u (hex hu).2 hf)

/-- A step that leaves the runtime as it is leaves the environments right. -/
private theorem ThreadSystemInv.of_same_runtime {s : ThreadSystem} {sys : EngineSystem}
    (h : ThreadSystemInv s) (hsys : EngineSystemInv sys)
    (hinc : sys.st.incarnation = s.sys.st.incarnation)
    (hinit : sys.st.initialized = s.sys.st.initialized) :
    ThreadSystemInv { s with sys := sys } := by
  have hrun : ThreadSystem.runtime { s with sys := sys } = s.runtime := by
    simp only [ThreadSystem.runtime, hinc, hinit]
  have hfresh : ∀ u, Fresh { s with sys := sys } u ↔ Fresh s u := by
    simp only [Fresh, hinc, implies_true]
  refine ⟨hsys, ?_, ?_, ?_⟩
  · intro u k hk
    show k ≤ sys.st.incarnation
    rw [hinc]
    exact h.guards_le u k hk
  · intro u hu hf
    rw [hrun]
    exact h.env_fresh u hu ((hfresh u).mp hf)
  · intro u hu hf
    exact h.env_stale u hu fun hf' => hf ((hfresh u).mpr hf')

/-- The calls of an engine step bring the environments up to date. -/
theorem ThreadSystemInv.engine {s : ThreadSystem} {sys : EngineSystem} {calls : List RuntimeCall}
    (h : ThreadSystemInv s) (hsys : EngineSystemInv sys) (t : ThreadId)
    (heff : RuntimeEffect s.sys.st sys.st calls) :
    ThreadSystemInv (calls.foldl (ThreadSystem.runtimeCall t) { s with sys := sys }) := by
  cases heff with
  | quiet hinc hinit => exact h.of_same_runtime hsys hinc hinit
  | failed hinc hinit => exact h.of_same_runtime hsys hinc hinit
  | started hoff hinc hon =>
    -- Every guard is older than the new incarnation.
    have hold : ∀ u, s.guards u ≠ some sys.st.incarnation := by
      intro u hk
      have := h.guards_le u _ hk
      omega
    refine ⟨hsys, ?_, ?_, ?_⟩
    · intro u k hk
      have := h.guards_le u k hk
      show k ≤ sys.st.incarnation
      omega
    · intro u hu hf
      rcases hf with hguard | hthread
      · exact absurd hguard (hold u)
      · cases hthread
        show Function.update s.envs t (some sys.st.incarnation) t = _
        rw [Function.update_self]
        show _ = if sys.st.initialized = true then some sys.st.incarnation else none
        rw [if_pos hon]
    · intro u hu hf
      -- A thread that did not start the runtime had no environment while it was down.
      have hut : u ≠ t := fun heq => hf (Or.inr (congrArg some heq.symm))
      show Function.update s.envs t (some sys.st.incarnation) u = none
      rw [Function.update_of_ne hut]
      exact h.env_none hoff hu
  | ended hinc hoff =>
    refine ⟨hsys, ?_, ?_, fun u hu hf => rfl⟩
    · intro u k hk
      show k ≤ sys.st.incarnation
      rw [hinc]
      exact h.guards_le u k hk
    · intro u hu hf
      -- The end of the runtime takes all environments away.
      show none = if sys.st.initialized = true then some sys.st.incarnation else none
      rw [hoff]
      rfl

/-- The effects of the atomic steps. -/
inductive ThreadStepped (s : ThreadSystem) : ThreadOp → ThreadSystem → Prop where
  | engine (op : EngineOp) (sys : EngineSystem) (hsys : s.sys.step op = some sys) :
      ThreadStepped s (.engine op) ((sys.calls.drop s.sys.calls.length).foldl
        (ThreadSystem.runtimeCall op.thread) { s with sys := sys })
  | instantiate (t : ThreadId) (e : Nat) (howns : s.owns t e = true) :
      ThreadStepped s (.instantiate t e) (s.instantiate t)
  | call (t : ThreadId) (e : Nat) (resultsFit : Bool) (howns : s.owns t e = true) :
      ThreadStepped s (.call t e resultsFit) (s.call t resultsFit)
  | exit (t : ThreadId) (ht : t ∉ s.exited) : ThreadStepped s (.exit t) (s.exitThread t)

/-- A step has one of these effects. -/
theorem threadStepped_of_step {s s' : ThreadSystem} {op : ThreadOp} (hs : s.step op = some s') :
    ThreadStepped s op s' := by
  cases op with
  | engine op =>
    simp only [ThreadSystem.step] at hs
    split at hs
    · cases hs
    cases hsys : s.sys.step op with
    | none =>
      rw [hsys] at hs
      cases hs
    | some sys =>
      rw [hsys] at hs
      cases hs
      exact .engine op sys hsys
  | instantiate t e =>
    simp only [ThreadSystem.step] at hs
    split at hs
    · cases hs
      exact .instantiate t e ‹_›
    · cases hs
  | call t e resultsFit =>
    simp only [ThreadSystem.step] at hs
    split at hs
    · cases hs
      exact .call t e resultsFit ‹_›
    · cases hs
  | exit t =>
    simp only [ThreadSystem.step] at hs
    split at hs
    · cases hs
    · rename_i hex
      cases hs
      exact .exit t fun hmem => hex (Or.inl hmem)

/-- Every atomic step keeps the invariant. -/
theorem threadSystemInv_step (s : ThreadSystem) (op : ThreadOp) (s' : ThreadSystem)
    (h : ThreadSystemInv s) (hs : s.step op = some s') : ThreadSystemInv s' := by
  cases threadStepped_of_step hs with
  | engine op sys hsys =>
    obtain ⟨calls, hcalls, heff⟩ := runtimeEffect_of_step h.engines hsys
    rw [hcalls, List.drop_left]
    exact h.engine (engineSystemInv_step _ _ _ h.engines hsys) _ heff
  | instantiate t e howns => exact (h.ensureThreadEnv t).wamrCall t _
  | call t e resultsFit howns =>
    cases resultsFit with
    | true => exact (h.ensureThreadEnv t).wamrCall t _
    | false => exact h.ensureThreadEnv t
  | exit t ht => exact h.exitThread t

/-! ### When a step finds the right environment -/

/-- The condition on a step, read in the state before it. A use of Wasm must not meet a
`THREAD_ENV` left over from an earlier incarnation, unless the thread started the current one
itself. An exit with a `THREAD_ENV` must come before the end of that incarnation, too. -/
def EnvCondition (s : ThreadSystem) : ThreadOp → Prop
  | .engine _ => True
  | .instantiate t _ => s.guards t = none ∨ Fresh s t
  | .call t _ resultsFit => resultsFit = true → s.guards t = none ∨ Fresh s t
  | .exit t => s.guards t ≠ none → s.sys.st.initialized = true ∧ Fresh s t

/-- Every environment looked at so far matched the runtime. -/
def EnvsMatch (s : ThreadSystem) : Prop := ∀ c ∈ s.log, c.Matches

theorem runtime_ne_none {s : ThreadSystem} :
    s.runtime ≠ none ↔ s.sys.st.initialized = true := by
  unfold ThreadSystem.runtime
  split <;> simp_all

/-- A call matches exactly when the runtime is running and the thread is fresh. -/
theorem wamrCall_matches_iff {s : ThreadSystem} (h : ThreadSystemInv s) {t : ThreadId}
    (ht : t ∉ s.exited) (use : EnvUse) :
    EnvsMatch (s.wamrCall t use) ↔
      EnvsMatch s ∧ s.sys.st.initialized = true ∧ Fresh s t := by
  have hnew : (EnvCall.mk t use (s.envs t) s.runtime).Matches ↔
      s.sys.st.initialized = true ∧ Fresh s t := by
    show s.runtime ≠ none ∧ s.envs t = s.runtime ↔ _
    rw [runtime_ne_none]
    -- While the runtime is up, only a fresh thread has an environment.
    refine and_congr_right fun hon => ⟨fun heq => ?_, h.env_fresh t ht⟩
    by_contra hf
    exact runtime_ne_none.mpr hon (heq.symm.trans (h.env_stale t ht hf))
  unfold EnvsMatch ThreadSystem.wamrCall
  simp only [List.forall_mem_append, List.forall_mem_singleton, hnew]

/-- A thread that owns an engine has not exited, and the runtime is running. -/
theorem initialized_of_owns {s : ThreadSystem} (h : ThreadSystemInv s) {t : ThreadId} {e : Nat}
    (ho : s.owns t e = true) : t ∉ s.exited ∧ s.sys.st.initialized = true := by
  simp only [ThreadSystem.owns, decide_eq_true_eq, Option.map_eq_some_iff] at ho
  obtain ⟨hex, -, v, hget, -⟩ := ho
  exact ⟨hex, h.engines.initialized_of_engine hget⟩

@[simp] theorem log_ensureThreadEnv (s : ThreadSystem) (t : ThreadId) :
    (s.ensureThreadEnv t).log = s.log := by
  unfold ThreadSystem.ensureThreadEnv
  split <;> rfl

@[simp] theorem sys_ensureThreadEnv (s : ThreadSystem) (t : ThreadId) :
    (s.ensureThreadEnv t).sys = s.sys := by
  unfold ThreadSystem.ensureThreadEnv
  split <;> rfl

@[simp] theorem exited_ensureThreadEnv (s : ThreadSystem) (t : ThreadId) :
    (s.ensureThreadEnv t).exited = s.exited := by
  unfold ThreadSystem.ensureThreadEnv
  split <;> rfl

/-- A use of Wasm after `ensure_thread_env`. -/
theorem use_matches_iff {s : ThreadSystem} (h : ThreadSystemInv s) {t : ThreadId} {e : Nat}
    (ho : s.owns t e = true) (use : EnvUse) :
    EnvsMatch ((s.ensureThreadEnv t).wamrCall t use) ↔
      EnvsMatch s ∧ (s.guards t = none ∨ Fresh s t) := by
  obtain ⟨hex, hon⟩ := initialized_of_owns h ho
  rw [wamrCall_matches_iff (h.ensureThreadEnv t) (by simpa using hex), fresh_ensureThreadEnv]
  simp [EnvsMatch, hon]

theorem instantiate_matches_iff {s : ThreadSystem} (h : ThreadSystemInv s) {t : ThreadId}
    {e : Nat} (ho : s.owns t e = true) :
    EnvsMatch (s.instantiate t) ↔ EnvsMatch s ∧ EnvCondition s (.instantiate t e) :=
  use_matches_iff h ho .instantiate

theorem call_matches_iff {s : ThreadSystem} (h : ThreadSystemInv s) {t : ThreadId} {e : Nat}
    (ho : s.owns t e = true) (resultsFit : Bool) :
    EnvsMatch (s.call t resultsFit) ↔ EnvsMatch s ∧ EnvCondition s (.call t e resultsFit) := by
  cases resultsFit with
  | true => simpa [ThreadSystem.call, EnvCondition] using use_matches_iff h ho .callWasmA
  | false => simp [ThreadSystem.call, EnvCondition, EnvsMatch]

theorem exit_matches_iff {s : ThreadSystem} (h : ThreadSystemInv s) {t : ThreadId}
    (ht : t ∉ s.exited) :
    EnvsMatch (s.exitThread t) ↔ EnvsMatch s ∧ EnvCondition s (.exit t) := by
  cases hg : s.guards t with
  | none => simp [ThreadSystem.exitThread, EnvCondition, EnvsMatch, hg]
  | some k =>
    have hcall := wamrCall_matches_iff h ht .destroyThreadEnv
    simpa [ThreadSystem.exitThread, ThreadSystem.destroyThreadEnv, EnvCondition, EnvsMatch, hg]
      using hcall

/-- An engine step logs nothing. -/
theorem log_runtimeCalls (t : ThreadId) (calls : List RuntimeCall) (s : ThreadSystem) :
    (calls.foldl (ThreadSystem.runtimeCall t) s).log = s.log := by
  induction calls generalizing s with
  | nil => rfl
  | cons c calls ih =>
    rw [List.foldl_cons, ih]
    cases c with
    | fullInit ok => cases ok <;> rfl
    | destroy => rfl

/-- One step finds the right environment exactly when it meets the condition. -/
theorem step_matches_iff (s : ThreadSystem) (op : ThreadOp) (s' : ThreadSystem)
    (h : ThreadSystemInv s) (hm : EnvsMatch s) (hs : s.step op = some s') :
    EnvsMatch s' ↔ EnvCondition s op := by
  cases threadStepped_of_step hs with
  | engine op sys hsys => simpa [EnvsMatch, EnvCondition, log_runtimeCalls] using hm
  | instantiate t e howns =>
    rw [instantiate_matches_iff h howns]
    exact and_iff_right hm
  | call t e resultsFit howns =>
    rw [call_matches_iff h howns]
    exact and_iff_right hm
  | exit t ht =>
    rw [exit_matches_iff h ht]
    exact and_iff_right hm

/-- For every number of threads and every interleaving of their steps: in every state of the
run, all calls that depend on a thread's environment have found it initialised in the running
runtime, exactly when every step of the run meets `EnvCondition`. -/
theorem thread_env_matches (ops : List ThreadOp) (s : ThreadSystem)
    (h : run ThreadSystem.step ThreadSystem.init ops = some s) :
    AllStates ThreadSystem.step EnvsMatch ThreadSystem.init ops ↔
      AllSteps ThreadSystem.step EnvCondition ThreadSystem.init ops :=
  allStates_iff_allSteps threadSystemInv_step step_matches_iff threadSystemInv_init
    (by simp [EnvsMatch, ThreadSystem.init]) h

/-- A worker thread that uses the runtime while another thread keeps it alive. -/
def workerRun : List ThreadOp :=
  [.engine (.new 0 true), .engine (.new 1 false), .instantiate 1 1, .call 1 1 true,
    .engine (.drop 1 1), .engine (.dropInner 1), .exit 1]

/-- The worker has no `THREAD_ENV` when it comes first, and it leaves while the runtime is up. -/
theorem envCondition_workerRun :
    AllSteps ThreadSystem.step EnvCondition ThreadSystem.init workerRun := by
  refine (allSteps_cons rfl).mpr ⟨trivial, ?_⟩
  refine (allSteps_cons rfl).mpr ⟨trivial, ?_⟩
  refine (allSteps_cons rfl).mpr ⟨Or.inl rfl, ?_⟩
  refine (allSteps_cons rfl).mpr ⟨fun _ => Or.inr (Or.inl rfl), ?_⟩
  refine (allSteps_cons rfl).mpr ⟨trivial, ?_⟩
  refine (allSteps_cons rfl).mpr ⟨trivial, ?_⟩
  exact (allSteps_cons rfl).mpr ⟨fun _ => ⟨rfl, Or.inl rfl⟩, allSteps_nil⟩

/-- The run meets the condition, and its three calls find the environment of the worker. -/
theorem thread_env_matches_worker :
    ∃ s, run ThreadSystem.step ThreadSystem.init workerRun = some s ∧
      s.log.map EnvCall.use = [.instantiate, .callWasmA, .destroyThreadEnv] ∧
      AllSteps ThreadSystem.step EnvCondition ThreadSystem.init workerRun ∧
      AllStates ThreadSystem.step EnvsMatch ThreadSystem.init workerRun := by
  have hlog : (run ThreadSystem.step ThreadSystem.init workerRun).map (·.log.map EnvCall.use)
      = some [.instantiate, .callWasmA, .destroyThreadEnv] := rfl
  obtain ⟨s, hs, hlog⟩ := Option.map_eq_some_iff.mp hlog
  exact ⟨s, hs, hlog, envCondition_workerRun,
    (thread_env_matches workerRun s hs).mpr envCondition_workerRun⟩

/-- A thread that outlives the runtime it used: its `THREAD_ENV` is dropped when no runtime is
running. -/
def lateExitRun : List ThreadOp :=
  [.engine (.new 0 true), .instantiate 0 0, .engine (.drop 0 0), .engine (.dropInner 0), .exit 0]

/-- A thread that comes back after the runtime was restarted by another thread: its old
`THREAD_ENV` keeps it from initialising its environment again. -/
def restartRun : List ThreadOp :=
  [.engine (.new 0 true), .engine (.new 1 true), .instantiate 1 1, .engine (.drop 1 1),
    .engine (.dropInner 1), .engine (.drop 0 0), .engine (.dropInner 0), .engine (.new 0 true),
    .engine (.new 1 true), .call 1 3 true]

/-- Neither run keeps the environments matched. The call on the restarted runtime finds no
environment, and the exit finds no runtime. -/
theorem thread_env_mismatch :
    (∃ s c, run ThreadSystem.step ThreadSystem.init restartRun = some s ∧ c ∈ s.log ∧
      c.use = .callWasmA ∧ ¬ c.Matches) ∧
    (∃ s c, run ThreadSystem.step ThreadSystem.init lateExitRun = some s ∧ c ∈ s.log ∧
      c.use = .destroyThreadEnv ∧ ¬ c.Matches) := by
  constructor
  · obtain ⟨s, hs, hlog⟩ := Option.map_eq_some_iff.mp
      (show (run ThreadSystem.step ThreadSystem.init restartRun).map ThreadSystem.log
        = some [⟨1, .instantiate, some 1, some 1⟩, ⟨1, .callWasmA, none, some 2⟩] by decide)
    exact ⟨s, ⟨1, .callWasmA, none, some 2⟩, hs, by simp [hlog], rfl, by decide⟩
  · obtain ⟨s, hs, hlog⟩ := Option.map_eq_some_iff.mp
      (show (run ThreadSystem.step ThreadSystem.init lateExitRun).map ThreadSystem.log
        = some [⟨0, .instantiate, some 1, some 1⟩, ⟨0, .destroyThreadEnv, none, none⟩] by decide)
    exact ⟨s, ⟨0, .destroyThreadEnv, none, none⟩, hs, by simp [hlog], rfl, by decide⟩

end Wamrx.Proofs
