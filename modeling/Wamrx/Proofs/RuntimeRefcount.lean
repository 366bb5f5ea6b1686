import Mathlib.Data.List.Chain
import Wamrx.Proofs.EngineCounts

/-!
# `Wamrx.Proofs.RuntimeRefcount`: the runtime lives exactly while engines do

`EngineSystemInv` is the invariant of the engines on all threads: `EngineCounts` for the
engines that exist, and `Alternates` for the calls made into WAMR so far. Each atomic step keeps
it (`engineSystemInv_step`), and `runtime_refcount` reads the result off it for every
interleaving.
-/

set_option autoImplicit false

namespace Wamrx.Proofs

open Support

/-- The calls without the failed initialisations. -/
def successes (calls : List RuntimeCall) : List RuntimeCall :=
  calls.filter (· ≠ .fullInit false)

/-- Successful `wasm_runtime_full_init` and `wasm_runtime_destroy` calls strictly alternate,
starting with `wasm_runtime_full_init`. -/
structure Alternates (calls : List RuntimeCall) : Prop where
  starts : ∀ c, (successes calls).head? = some c → c = .fullInit true
  alternates : (successes calls).IsChain (· ≠ ·)

/-- A call after which the calls still alternate: it differs from the last one, and it is an
initialisation if there was none. -/
private theorem Alternates.snoc {calls : List RuntimeCall} (h : Alternates calls)
    {c : RuntimeCall} (hc : c ≠ .fullInit false)
    (hlast : (successes calls).getLast? ≠ some c)
    (hfirst : successes calls = [] → c = .fullInit true) : Alternates (calls ++ [c]) := by
  have hs : successes (calls ++ [c]) = successes calls ++ [c] := by
    simp [successes, hc]
  constructor
  · intro d hd
    rw [hs, List.head?_append] at hd
    cases hcalls : successes calls with
    | nil => rw [hcalls] at hd; cases hd; exact hfirst hcalls
    | cons x xs => exact h.starts d (by simpa [hcalls] using hd)
  · rw [hs, List.isChain_append]
    refine ⟨h.alternates, List.isChain_singleton c, ?_⟩
    intro x hx y hy
    cases hy
    rintro rfl
    exact hlast hx

/-- The invariant of the engines on all threads. -/
structure EngineSystemInv (s : EngineSystem) : Prop where
  counts : EngineCounts s.st (s.engines.values.map fun v => v.2.inner) s.dropping.length
  alternates : Alternates s.calls
  running : s.st.initialized = true ↔ (successes s.calls).getLast? = some (.fullInit true)

theorem engineSystemInv_init : EngineSystemInv EngineSystem.init :=
  ⟨EngineCounts.init, ⟨by simp [EngineSystem.init, successes], List.isChain_nil⟩,
    by simp [EngineSystem.init, EngineState.init, successes]⟩

section

variable {s s' : EngineSystem}

/-! ### What one step can do -/

/-- The effects of the atomic steps. -/
inductive EngineStepped (s : EngineSystem) : EngineOp → EngineSystem → Prop where
  | newFailed (t : ThreadId) :
      EngineStepped s (.new t false) { s with calls := s.calls ++ [.fullInit false] }
  | newFirst (t : ThreadId) (st : EngineState) (e : Engine) (hzero : s.st.refcount = 0)
      (hcounts : EngineCounts st (e.inner ::ₘ s.engines.values.map fun v => v.2.inner)
        s.dropping.length)
      (hinc : st.incarnation = s.st.incarnation + 1) :
      EngineStepped s (.new t true) { s with
        st := st, engines := s.engines.push (t, e), calls := s.calls ++ [.fullInit true] }
  | newFurther (t : ThreadId) (initOk : Bool) (st : EngineState) (e : Engine)
      (hpos : 0 < s.st.refcount)
      (hcounts : EngineCounts st (e.inner ::ₘ s.engines.values.map fun v => v.2.inner)
        s.dropping.length)
      (hinc : st.incarnation = s.st.incarnation) :
      EngineStepped s (.new t initOk) { s with st := st, engines := s.engines.push (t, e) }
  | clone (t : ThreadId) (e : Nat) (en : Engine) (hget : s.engines.get? e = some (t, en)) :
      EngineStepped s (.clone t e) { s with
        st := s.st.clone en, engines := s.engines.push (t, en) }
  | drop (t : ThreadId) (e : Nat) (en : Engine) (hget : s.engines.get? e = some (t, en)) :
      EngineStepped s (.drop t e) { s with
        st := (s.st.drop en).1
        engines := s.engines.erase e
        dropping := if (s.st.drop en).2 then t :: s.dropping else s.dropping }
  | dropInner (t : ThreadId) (ht : t ∈ s.dropping) :
      EngineStepped s (.dropInner t) { s with
        st := s.st.dropInner.1
        dropping := s.dropping.erase t
        calls := s.calls ++ s.st.dropInner.2 }

/-- A step has one of these effects. -/
theorem engineStepped_of_step {op : EngineOp} (h : EngineSystemInv s)
    (hs : s.step op = some s') : EngineStepped s op s' := by
  cases op with
  | new t initOk =>
    simp only [EngineSystem.step] at hs
    split at hs
    · cases hs
    rcases h.counts.new initOk with ⟨-, rfl, hnew⟩ | ⟨st, e, hnew, hcounts⟩
    · rw [hnew] at hs
      cases hs
      exact .newFailed t
    · rcases hnew with ⟨hzero, rfl, hnew, hinc⟩ | ⟨hpos, hnew, hinc⟩ <;> rw [hnew] at hs <;>
        cases hs
      · exact .newFirst t st e hzero hcounts hinc
      · rw [List.append_nil]
        exact .newFurther t initOk st e hpos hcounts hinc
  | clone t e =>
    simp only [EngineSystem.step] at hs
    split at hs
    · rename_i t' en hget
      split at hs
      · rename_i hown
        obtain ⟨rfl, -⟩ := hown
        cases hs
        exact .clone t' e en hget
      · cases hs
    · cases hs
  | drop t e =>
    simp only [EngineSystem.step] at hs
    split at hs
    · rename_i t' en hget
      split at hs
      · rename_i hown
        obtain ⟨rfl, -⟩ := hown
        cases hs
        exact .drop t' e en hget
      · cases hs
    · cases hs
  | dropInner t =>
    simp only [EngineSystem.step] at hs
    split at hs
    · rename_i ht
      cases hs
      exact .dropInner t ht
    · cases hs

/-! ### The invariant -/

/-- The first engine starts the runtime: it was down before. -/
theorem EngineSystemInv.started (h : EngineSystemInv s) (hzero : s.st.refcount = 0) :
    Alternates (s.calls ++ [.fullInit true]) := by
  refine h.alternates.snoc (by simp) ?_ fun _ => rfl
  intro hlast
  have := h.counts.initialized_iff.mp (h.running.mpr hlast)
  omega

/-- The drop of the inner value: the last one destroys the runtime. -/
theorem EngineSystemInv.dropInner (h : EngineSystemInv s) {t : ThreadId} (ht : t ∈ s.dropping) :
    EngineSystemInv { s with
      st := s.st.dropInner.1
      dropping := s.dropping.erase t
      calls := s.calls ++ s.st.dropInner.2 } := by
  obtain ⟨hcounts, halt, hrun⟩ := h
  -- The thread's own drop is one of those that are counted.
  have hlen : s.dropping.length = (s.dropping.erase t).length + 1 := by
    have := List.length_erase_of_mem ht
    have := List.length_pos_of_mem ht
    omega
  rw [hlen] at hcounts
  obtain ⟨hpos, hc, hcalls⟩ := hcounts.dropInner
  have hlast := hrun.mp (hcounts.initialized_iff.mpr hpos)
  refine ⟨hc, ?_, ?_⟩
  · rw [hcalls]
    split
    · refine halt.snoc (by simp) (by simp [hlast]) ?_
      intro hnil
      simp [hnil] at hlast
    · simpa using halt
  · rw [hc.initialized_iff, EngineCounts.refcount_dropInner, hcalls]
    -- The last event is a destruction exactly when the count reaches zero.
    by_cases hone : s.st.refcount = 1
    · simp [hone, successes]
    · simp only [hone, if_false, List.append_nil, hlast]
      exact ⟨fun _ => trivial, fun _ => by omega⟩

end

/-- Every atomic step keeps the invariant. -/
theorem engineSystemInv_step (s : EngineSystem) (op : EngineOp) (s' : EngineSystem)
    (h : EngineSystemInv s) (hs : s.step op = some s') : EngineSystemInv s' := by
  cases engineStepped_of_step h hs with
  | newFailed t =>
    have hsucc : successes (s.calls ++ [.fullInit false]) = successes s.calls := by
      simp [successes]
    refine ⟨h.counts, ⟨?_, ?_⟩, ?_⟩
    · rw [hsucc]
      exact h.alternates.starts
    · rw [hsucc]
      exact h.alternates.alternates
    · rw [hsucc]
      exact h.running
  | newFirst t st e hzero hcounts hinc =>
    have hon : st.initialized = true := hcounts.initialized (Multiset.mem_cons_self _ _)
    refine ⟨by simpa using hcounts, h.started hzero, ?_⟩
    simp [hon, successes]
  | newFurther t initOk st e hpos hcounts hinc =>
    -- The runtime is up already, and no call is made.
    have hon : st.initialized = true := hcounts.initialized (Multiset.mem_cons_self _ _)
    have hlast := h.running.mp (h.counts.initialized_iff.mpr hpos)
    exact ⟨by simpa using hcounts, h.alternates, iff_of_true hon hlast⟩
  | clone t e en hget =>
    have hmem : en.inner ∈ s.engines.values.map fun v => v.2.inner :=
      Multiset.mem_map.mpr ⟨(t, en), Arena.mem_values.mpr ⟨e, hget⟩, rfl⟩
    exact ⟨by simpa using h.counts.clone hmem, h.alternates, h.running⟩
  | drop t e en hget =>
    -- The dropped clone is one of those that are counted.
    have hcounts := h.counts
    rw [Arena.values_erase hget, Multiset.map_cons] at hcounts
    have hdrop := hcounts.drop (e := en)
    refine ⟨?_, h.alternates, h.running⟩
    simp only
    cases hlast : (s.st.drop en).2 <;> simpa [hlast] using hdrop
  | dropInner t ht => exact h.dropInner ht

/-- Every state that the threads reach satisfies the invariant. -/
theorem engineSystemInv_run {ops : List EngineOp} {s : EngineSystem}
    (h : run EngineSystem.step EngineSystem.init ops = some s) : EngineSystemInv s :=
  run_inv EngineSystemInv engineSystemInv_step engineSystemInv_init h

/-- The `EngineInner` values that are alive: those behind a clone, and those whose `Drop` has
not run yet. -/
def innersAlive (s : EngineSystem) : Nat :=
  Multiset.card s.st.inners.values + s.dropping.length

/-- While any thread has an `Engine` value, the runtime is initialised. -/
theorem EngineSystemInv.initialized_of_engine {s : EngineSystem} (h : EngineSystemInv s)
    {e : Nat} {v : ThreadId × Engine} (hget : s.engines.get? e = some v) :
    s.st.initialized = true := by
  have hmem : v ∈ s.engines.values := Arena.mem_values.mpr ⟨e, hget⟩
  exact h.counts.initialized (Multiset.mem_map_of_mem (fun v => v.2.inner) hmem)

/-- `*count -= 1` never subtracts from zero. -/
theorem refcount_pos_of_dropping {s : EngineSystem} (h : EngineSystemInv s) {t : ThreadId}
    (ht : t ∈ s.dropping) : 0 < s.st.refcount := by
  have := h.counts.refcount_eq
  have := List.length_pos_of_mem ht
  omega

/-- A failed `Engine::new` changes nothing, and the next one tries the initialisation again. -/
theorem new_error_retries (st : EngineState) {st' : EngineState} {calls : List RuntimeCall}
    {initOk : Bool} {err : Error} (h : st.new initOk = (st', calls, .error err)) :
    st' = st ∧ ∀ initOk', (st'.new initOk').2.1 = [.fullInit initOk'] := by
  unfold EngineState.new at h
  split at h
  · rename_i hzero
    cases initOk with
    | true => simp at h
    | false =>
      simp only [Bool.false_eq_true, if_false, Prod.mk.injEq] at h
      refine ⟨h.1.symm, ?_⟩
      intro initOk'
      rw [← h.1, EngineState.new, if_pos hzero]
      cases initOk' <;> rfl
  · simp at h

/-- The reference count of the runtime, over every interleaving of `Engine::new`, clones and
drops on any number of threads. In every state:

1. `RUNTIME_REFCOUNT` is the number of `EngineInner` values that are alive;
2. the runtime is initialised exactly while the count is positive;
3. it is initialised while any `Engine` value exists;
4. successful initialisations and destructions alternate, starting with an initialisation;
5. a thread about to decrement the count finds it positive;
6. an `Engine::new` that fails changes nothing, and the next one tries again. -/
theorem runtime_refcount (ops : List EngineOp) (s : EngineSystem)
    (h : run EngineSystem.step EngineSystem.init ops = some s) :
    s.st.refcount = innersAlive s ∧
    (s.st.initialized = true ↔ 0 < s.st.refcount) ∧
    (∀ e v, s.engines.get? e = some v → s.st.initialized = true) ∧
    Alternates s.calls ∧
    (∀ t ∈ s.dropping, 0 < s.st.refcount) ∧
    (∀ initOk st' calls err, s.st.new initOk = (st', calls, .error err) →
      st' = s.st ∧ ∀ initOk', (st'.new initOk').2.1 = [.fullInit initOk']) := by
  have hinv := engineSystemInv_run h
  exact ⟨hinv.counts.refcount_eq, hinv.counts.initialized_iff,
    fun _ _ hget => hinv.initialized_of_engine hget, hinv.alternates,
    fun t ht => refcount_pos_of_dropping hinv ht,
    fun _ _ _ _ hnew => new_error_retries s.st hnew⟩

/-- Two threads: a failed start, a start, a clone, and a second engine on another thread. Then the
drops up to the end of the runtime, with the critical sections interleaved. -/
def startsRun : List EngineOp := [.new 0 false, .new 0 true, .clone 0 0, .new 1 false]
def dropsRun : List EngineOp := [.drop 0 0, .drop 0 1, .drop 1 2, .dropInner 1, .dropInner 0]

/-- The count is two for three engines, and zero at the end. The runtime was started once, at the
second try, and destroyed once. -/
theorem runtime_refcount_two_threads :
    ∃ s s', run EngineSystem.step EngineSystem.init startsRun = some s ∧
      run EngineSystem.step EngineSystem.init (startsRun ++ dropsRun) = some s' ∧
      s.st.refcount = innersAlive s ∧ s.st.refcount = 2 ∧
      s.calls = [.fullInit false, .fullInit true] ∧
      s'.st.refcount = innersAlive s' ∧ s'.st.refcount = 0 ∧ Alternates s'.calls ∧
      s'.calls = [.fullInit false, .fullInit true, .destroy] := by
  have hstarts : (run EngineSystem.step EngineSystem.init startsRun).map
      (fun s => (s.st.refcount, s.calls)) = some (2, [.fullInit false, .fullInit true]) := by decide
  have hall : (run EngineSystem.step EngineSystem.init (startsRun ++ dropsRun)).map
      (fun s => (s.st.refcount, s.calls))
        = some (0, [.fullInit false, .fullInit true, .destroy]) := by decide
  obtain ⟨s, hs, hlook⟩ := Option.map_eq_some_iff.mp hstarts
  obtain ⟨s', hs', hlook'⟩ := Option.map_eq_some_iff.mp hall
  obtain ⟨hcount, hcalls⟩ := Prod.mk.inj hlook
  obtain ⟨hcount', hcalls'⟩ := Prod.mk.inj hlook'
  have hend := runtime_refcount _ s' hs'
  exact ⟨s, s', hs, hs', (runtime_refcount _ s hs).1, hcount, hcalls, hend.1, hcount',
    hend.2.2.2.1, hcalls'⟩

end Wamrx.Proofs
