import Wamrx.Proofs.ThreadEnvs

/-!
# `Wamrx.Proofs.ThreadExits`: what threads leave behind

`THREAD_ENV` is dropped when its thread exits, and with it goes the environment that WAMR keeps for
the thread. One environment has no `THREAD_ENV`: the one that `wasm_runtime_full_init` makes for
the thread that runs it. `exited_envs` says that this is the only one that can stay behind.
-/

set_option autoImplicit false

namespace Wamrx.Proofs

open Support

variable {s s' : ThreadSystem}

/-- Where an exited thread still has an environment: it is the running runtime's, and the thread
had started that one and had no `THREAD_ENV`. -/
structure LeftBehind (s : ThreadSystem) (t : ThreadId) : Prop where
  up : s.sys.st.initialized = true
  env : s.envs t = some s.sys.st.incarnation
  starter : s.initThread = some t
  unguarded : s.guards t = none

/-- Every exited thread has no environment, or it is left behind in this way. -/
def ExitedEnvs (s : ThreadSystem) : Prop := ∀ t ∈ s.exited, s.envs t = none ∨ LeftBehind s t

/-- Logging a call changes nothing else. -/
theorem ExitedEnvs.wamrCall (h : ExitedEnvs s) (u : ThreadId) (use : EnvUse) :
    ExitedEnvs (s.wamrCall u use) := fun t ht =>
  (h t ht).imp id fun hleft => ⟨hleft.up, hleft.env, hleft.starter, hleft.unguarded⟩

/-- A live thread changes nothing of the exited ones with `ensure_thread_env`. -/
theorem ExitedEnvs.ensureThreadEnv (h : ExitedEnvs s) {u : ThreadId} (hu : u ∉ s.exited) :
    ExitedEnvs (s.ensureThreadEnv u) := by
  unfold ThreadSystem.ensureThreadEnv
  cases s.guards u with
  | some k => exact h
  | none =>
    intro t ht
    have hne : t ≠ u := fun heq => hu (heq ▸ ht)
    have henv : Function.update s.envs u s.runtime t = s.envs t := Function.update_of_ne hne _ _
    have hguard : Function.update s.guards u (some s.sys.st.incarnation) t = s.guards t :=
      Function.update_of_ne hne _ _
    refine (h t ht).imp henv.trans fun hleft => ?_
    exact ⟨hleft.up, henv.trans hleft.env, hleft.starter, hguard.trans hleft.unguarded⟩

/-- The exit of a thread: its guard destroys the environment, and without a guard there is one only
on the thread that started the runtime. -/
theorem ExitedEnvs.exitThread (hinv : ThreadSystemInv s) (h : ExitedEnvs s) {u : ThreadId}
    (hu : u ∉ s.exited) : ExitedEnvs (s.exitThread u) := by
  unfold ThreadSystem.exitThread
  cases hg : s.guards u with
  | some k =>
    intro t ht
    rcases List.mem_cons.mp ht with rfl | ht
    · exact Or.inl (Function.update_self _ _ _)
    · have hne : t ≠ u := fun heq => hu (heq ▸ ht)
      have henv : Function.update s.envs u none t = s.envs t := Function.update_of_ne hne _ _
      exact (h t ht).imp henv.trans fun hleft =>
        ⟨hleft.up, henv.trans hleft.env, hleft.starter, hleft.unguarded⟩
  | none =>
    intro t ht
    rcases List.mem_cons.mp ht with rfl | ht
    · by_cases hstart : s.initThread = some t
      · have henv := hinv.env_fresh t hu (Or.inr hstart)
        cases hup : s.sys.st.initialized with
        | false => exact Or.inl (hinv.env_none hup hu)
        | true =>
          rw [ThreadSystem.runtime, if_pos hup] at henv
          exact Or.inr ⟨hup, henv, hstart, hg⟩
      · refine Or.inl (hinv.env_stale t hu fun hfresh => ?_)
        rcases hfresh with hguard | hstart'
        · rw [hg] at hguard
          cases hguard
        · exact hstart hstart'
    · exact (h t ht).imp id fun hleft => ⟨hleft.up, hleft.env, hleft.starter, hleft.unguarded⟩

/-- Nothing of a runtime that is down stays behind, and no exited thread starts the next one. -/
theorem ExitedEnvs.engine (h : ExitedEnvs s) {sys : EngineSystem} {calls : List RuntimeCall}
    {u : ThreadId} (hu : u ∉ s.exited) (heff : RuntimeEffect s.sys.st sys.st calls) :
    ExitedEnvs (calls.foldl (ThreadSystem.runtimeCall u) { s with sys := sys }) := by
  cases heff with
  | quiet hinc hinit | failed hinc hinit =>
    intro t ht
    refine (h t ht).imp id fun hleft => ⟨hinit.trans hleft.up, ?_, hleft.starter, hleft.unguarded⟩
    exact hleft.env.trans (congrArg some hinc.symm)
  | started hoff hinc hon =>
    intro t ht
    have hne : t ≠ u := fun heq => hu (heq ▸ ht)
    have henv : Function.update s.envs u (some sys.st.incarnation) t = s.envs t :=
      Function.update_of_ne hne _ _
    rcases h t ht with hnone | hleft
    · exact Or.inl (henv.trans hnone)
    · exact absurd hleft.up (by rw [hoff]; exact Bool.false_ne_true)
  | ended hinc hoff => exact fun t ht => Or.inl rfl

theorem exitedEnvs_step (hinv : ThreadSystemInv s) (h : ExitedEnvs s) {op : ThreadOp}
    (hs : s.step op = some s') : ExitedEnvs s' := by
  have howner : ∀ {t : ThreadId} {e : Nat}, s.owns t e = true → t ∉ s.exited := fun howns =>
    (of_decide_eq_true howns).1
  cases threadStepped_of_step hs with
  | engine op sys hsys =>
    obtain ⟨calls, hcalls, heff⟩ := runtimeEffect_of_step hinv.engines hsys
    rw [hcalls, List.drop_left]
    refine h.engine (fun hmem => ?_) heff
    rw [ThreadSystem.step, if_pos hmem] at hs
    cases hs
  | instantiate t e howns => exact (h.ensureThreadEnv (howner howns)).wamrCall t _
  | call t e resultsFit howns =>
    cases resultsFit with
    | true => exact (h.ensureThreadEnv (howner howns)).wamrCall t _
    | false => exact h.ensureThreadEnv (howner howns)
  | exit t ht => exact ExitedEnvs.exitThread hinv h ht

/-- Exited threads leave one environment behind at most. It belongs to the thread that ran
`wasm_runtime_full_init`, which exited without having instantiated or called anything, and it goes
with the runtime. -/
theorem exited_envs (ops : List ThreadOp) (s : ThreadSystem)
    (h : run ThreadSystem.step ThreadSystem.init ops = some s) :
    (∀ t ∈ s.exited, s.envs t ≠ none → LeftBehind s t) ∧
      (∀ t ∈ s.exited, ∀ t' ∈ s.exited, s.envs t ≠ none → s.envs t' ≠ none → t = t') ∧
      (s.sys.st.initialized = false → ∀ t, s.envs t = none) := by
  have hboth : ThreadSystemInv s ∧ ExitedEnvs s :=
    run_inv (fun s : ThreadSystem => ThreadSystemInv s ∧ ExitedEnvs s)
      (fun s op s' hinv hs => ⟨threadSystemInv_step s op s' hinv.1 hs,
        exitedEnvs_step hinv.1 hinv.2 hs⟩)
      ⟨threadSystemInv_init, fun t ht => absurd ht List.not_mem_nil⟩ h
  have hleft : ∀ t ∈ s.exited, s.envs t ≠ none → LeftBehind s t := fun t ht henv =>
    (hboth.2 t ht).resolve_left henv
  refine ⟨hleft, fun t ht t' ht' henv henv' => ?_, fun hoff t => ?_⟩
  · exact Option.some.inj ((hleft t ht henv).starter.symm.trans (hleft t' ht' henv').starter)
  · by_cases ht : t ∈ s.exited
    · exact (hboth.2 t ht).resolve_right fun hleft =>
        Bool.false_ne_true (hoff.symm.trans hleft.up)
    · exact hboth.1.env_none hoff ht

/-- One thread starts the runtime and exits, another one uses it and exits. -/
def starterExits : List ThreadOp :=
  [.engine (.new 0 true), .engine (.new 1 true), .exit 0, .instantiate 1 1, .exit 1]

theorem exited_envs_starterExits :
    ∃ s, run ThreadSystem.step ThreadSystem.init starterExits = some s ∧
      s.envs 0 = some 1 ∧ LeftBehind s 0 ∧ s.envs 1 = none := by
  obtain ⟨s, hs⟩ := Option.isSome_iff_exists.mp
    (show (run ThreadSystem.step ThreadSystem.init starterExits).isSome by decide)
  obtain ⟨_, hs', hseen⟩ := Option.map_eq_some_iff.mp
    (show (run ThreadSystem.step ThreadSystem.init starterExits).map
      (fun s => (s.exited, s.envs 0, s.envs 1)) = some ([1, 0], some 1, none) by decide)
  obtain rfl := Option.some.inj (hs.symm.trans hs')
  simp only [Prod.mk.injEq] at hseen
  obtain ⟨hexited, hzero, hone⟩ := hseen
  refine ⟨s, hs, hzero, ?_, hone⟩
  exact (exited_envs starterExits s hs).1 0 (by simp [hexited]) (by simp [hzero])

end Wamrx.Proofs
