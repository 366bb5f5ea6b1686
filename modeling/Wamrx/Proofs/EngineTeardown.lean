import Wamrx.Proofs.RuntimeRefcount

/-!
# `Wamrx.Proofs.EngineTeardown`: how the threads get rid of the runtime

`work` counts what is left to do: the drops of the `Engine` values and the critical sections of
`Drop for EngineInner`. Each step of a teardown takes one off (`teardown_step`), and while there is
work left, some thread has a step to take (`thread_of_work`). A critical section is one step here:
who waits for the lock of `RUNTIME_REFCOUNT` is not modelled.

`teardown` puts it together: in every order and on every number of threads, a teardown ends, and
then the runtime was destroyed exactly once.
-/

set_option autoImplicit false

namespace Wamrx.Proofs

open Support

variable {s s' : EngineSystem}

/-- A step of a teardown: a drop, or the critical section behind the drop of a last clone. -/
def tearsDown : EngineOp → Bool
  | .drop _ _ | .dropInner _ => true
  | .new _ _ | .clone _ _ => false

/-- The drops and the critical sections that are left. -/
def work (s : EngineSystem) : Nat := Multiset.card s.engines.values + s.st.refcount

/-- The call that ends the runtime, if it ended between the two states. -/
def destroyed (s s' : EngineSystem) : List RuntimeCall :=
  if s.st.initialized && !s'.st.initialized then [.destroy] else []

theorem destroyed_of_eq (h : s'.st.initialized = s.st.initialized) : destroyed s s' = [] := by
  rw [destroyed, h]
  cases s.st.initialized <;> rfl

/-- A step of a teardown takes one off the work. It ends the runtime at most, and says so. -/
theorem teardown_step {op : EngineOp} (h : EngineSystemInv s) (hop : tearsDown op = true)
    (hs : s.step op = some s') :
    work s' + 1 = work s ∧ s'.calls = s.calls ++ destroyed s s' ∧
      (s'.st.initialized = true → s.st.initialized = true) := by
  have h' := engineSystemInv_step s op s' h hs
  cases engineStepped_of_step h hs with
  | newFailed _ | newFirst _ _ _ _ _ _ | newFurther _ _ _ _ _ _ _ | clone _ _ _ _ => cases hop
  | drop t e en hget =>
    -- The drop of a clone changes neither the count nor the runtime.
    have hcount : (s.st.drop en).1.refcount = s.st.refcount := rfl
    have hup : (s.st.drop en).1.initialized = s.st.initialized := rfl
    refine ⟨?_, ?_, fun h => hup ▸ h⟩
    · simp only [work, hcount, Arena.values_erase hget, Multiset.card_cons]
      omega
    · simp only [destroyed, hup]
      cases s.st.initialized <;> simp
  | dropInner t ht =>
    have hpos := refcount_pos_of_dropping h ht
    have hup := h.counts.initialized_iff.mpr hpos
    have hlen : s.dropping.length = (s.dropping.erase t).length + 1 := by
      have := List.length_erase_of_mem ht
      have := List.length_pos_of_mem ht
      omega
    obtain ⟨-, -, hcalls⟩ := EngineCounts.dropInner (hlen ▸ h.counts)
    have hup' := h'.counts.initialized_iff
    simp only [EngineCounts.refcount_dropInner] at hup'
    refine ⟨?_, ?_, fun _ => hup⟩
    · simp only [work, EngineCounts.refcount_dropInner]
      omega
    · -- The count reaches zero exactly when it was one.
      simp only [destroyed, hup, hcalls, Bool.true_and]
      by_cases hone : s.st.refcount = 1
      · have hdown : s.st.dropInner.1.initialized = false := by
          rw [Bool.eq_false_iff, ne_eq, hup']
          omega
        rw [if_pos hone, hdown]
        rfl
      · have hstays : s.st.dropInner.1.initialized = true := hup'.mpr (by omega)
        rw [if_neg hone, hstays]
        rfl

/-- The calls of a whole teardown. -/
theorem teardown_calls {ops : List EngineOp} (h : EngineSystemInv s)
    (hops : ∀ op ∈ ops, tearsDown op = true) (hrun : run EngineSystem.step s ops = some s') :
    s'.calls = s.calls ++ destroyed s s' ∧
      (s'.st.initialized = true → s.st.initialized = true) := by
  induction ops generalizing s with
  | nil =>
    cases hrun
    exact ⟨by rw [destroyed_of_eq rfl, List.append_nil], id⟩
  | cons op ops ih =>
    obtain ⟨m, hm, hrun⟩ := run_cons_eq_some.mp hrun
    obtain ⟨hop, hops⟩ := List.forall_mem_cons.mp hops
    obtain ⟨-, hcalls, hup⟩ := teardown_step h hop hm
    obtain ⟨hcalls', hup'⟩ := ih (engineSystemInv_step s op m h hm) hops hrun
    refine ⟨?_, fun hs' => hup (hup' hs')⟩
    -- The runtime does not come back, so it ends in one of the two parts.
    rw [hcalls', hcalls, List.append_assoc, List.append_right_inj]
    unfold destroyed
    cases hs : s.st.initialized <;> cases hmi : m.st.initialized <;>
      cases hs' : s'.st.initialized <;> simp_all

/-- A thread that has an engine, or that is in the middle of a drop, has a step to take. -/
theorem exists_step_of_thread {t : ThreadId}
    (ht : t ∈ s.dropping ∨ ∃ e en, s.engines.get? e = some (t, en)) :
    ∃ op, tearsDown op = true ∧ (s.step op).isSome = true := by
  by_cases hdrop : t ∈ s.dropping
  · exact ⟨.dropInner t, rfl, by simp [EngineSystem.step, hdrop]⟩
  · obtain ⟨e, en, hget⟩ := ht.resolve_left hdrop
    exact ⟨.drop t e, rfl, by simp [EngineSystem.step, hget, hdrop]⟩

/-- While there is work left, some thread has something left to do. -/
theorem thread_of_work (h : EngineSystemInv s) (hwork : work s ≠ 0) :
    ∃ t, t ∈ s.dropping ∨ ∃ e en, s.engines.get? e = some (t, en) := by
  by_contra hnone
  push Not at hnone
  have hdropping : s.dropping = [] := by
    refine List.eq_nil_iff_forall_not_mem.mpr fun t ht => (hnone t).1 ht
  have hengines : s.engines.values = 0 := by
    refine Multiset.eq_zero_of_forall_notMem fun v hv => ?_
    obtain ⟨e, he⟩ := Arena.mem_values.mp hv
    exact (hnone v.1).2 e v.2 he
  -- Without an engine, there is no box behind one.
  have hinners : s.st.inners.values = 0 := by
    refine Multiset.eq_zero_of_forall_notMem fun b hb => ?_
    obtain ⟨i, hi⟩ := Arena.mem_values.mp hb
    have hmem := (h.counts.counted.live_iff i).mp ⟨b, hi⟩
    rw [hengines] at hmem
    simp at hmem
  have hcount := h.counts.refcount_eq
  rw [hinners, hdropping] at hcount
  exact hwork (by rw [work, hengines, hcount]; rfl)

/-- From every state that the threads reach, and for every order in which they drop what they
have:

1. the teardown takes one step for each `Engine` value and one for each `EngineInner`, so it ends;
2. as long as the teardown has not taken all its steps, it can go on;
3. then there is no engine and no pending drop, the count is zero, the runtime is down, and it was
   destroyed exactly once, if it was up. -/
theorem teardown (pre ops : List EngineOp) (s s' : EngineSystem)
    (hpre : run EngineSystem.step EngineSystem.init pre = some s)
    (hops : ∀ op ∈ ops, tearsDown op = true) (hrun : run EngineSystem.step s ops = some s') :
    ops.length + work s' = Multiset.card s.engines.values + innersAlive s ∧
    (work s' ≠ 0 → ∃ op, tearsDown op = true ∧ (s'.step op).isSome = true) ∧
    (work s' = 0 → s'.engines.values = 0 ∧ s'.dropping = [] ∧ s'.st.refcount = 0 ∧
      s'.st.initialized = false ∧
      s'.calls = s.calls ++ if s.st.initialized then [.destroy] else []) := by
  have h := engineSystemInv_run hpre
  have h' := run_inv EngineSystemInv engineSystemInv_step h hrun
  refine ⟨?_, fun hwork => ?_, fun hdone => ?_⟩
  · have hsteps := run_measure (P := fun op => tearsDown op = true) work engineSystemInv_step
      (fun m op m' hm hop hs => (teardown_step hm hop hs).1) h hops hrun
    rw [hsteps, work, h.counts.refcount_eq, innersAlive]
  · obtain ⟨t, ht⟩ := thread_of_work h' hwork
    exact exists_step_of_thread ht
  · have hzero : Multiset.card s'.engines.values = 0 ∧ s'.st.refcount = 0 := by
      unfold work at hdone
      omega
    have hcount := h'.counts.refcount_eq
    have hdropping : s'.dropping = [] := List.eq_nil_of_length_eq_zero (by omega)
    have hdown : s'.st.initialized = false := by
      rw [Bool.eq_false_iff, ne_eq, h'.counts.initialized_iff, hzero.2]
      exact Nat.lt_irrefl 0
    refine ⟨Multiset.card_eq_zero.mp hzero.1, hdropping, hzero.2, hdown, ?_⟩
    rw [(teardown_calls h hops hrun).1, destroyed, hdown]
    simp

/-- Two threads, two engines and a clone. Both critical sections come at the end. -/
theorem teardown_two_threads :
    ∃ s s', run EngineSystem.step EngineSystem.init
        [.new 0 true, .clone 0 0, .new 1 true] = some s ∧
      run EngineSystem.step s
        [.drop 0 0, .drop 1 2, .drop 0 1, .dropInner 0, .dropInner 1] = some s' ∧
      s'.st.initialized = false ∧ s'.calls = s.calls ++ [.destroy] := by
  obtain ⟨s, hs⟩ := Option.isSome_iff_exists.mp (show (run EngineSystem.step EngineSystem.init
    [.new 0 true, .clone 0 0, .new 1 true]).isSome by decide)
  obtain ⟨s', hs'⟩ := Option.isSome_iff_exists.mp (show (run EngineSystem.step s
    [.drop 0 0, .drop 1 2, .drop 0 1, .dropInner 0, .dropInner 1]).isSome by
      cases hs
      decide)
  obtain ⟨hsteps, -, hend⟩ := teardown [.new 0 true, .clone 0 0, .new 1 true]
    [.drop 0 0, .drop 1 2, .drop 0 1, .dropInner 0, .dropInner 1] s s' hs (by decide) hs'
  have hwork : work s' = 0 := by
    cases hs
    exact Nat.add_left_cancel hsteps
  obtain ⟨-, -, -, hdown, hcalls⟩ := hend hwork
  refine ⟨s, s', hs, hs', hdown, ?_⟩
  cases hs
  exact hcalls

end Wamrx.Proofs
