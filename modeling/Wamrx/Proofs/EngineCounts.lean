import Wamrx.Engine

/-!
# `Wamrx.Proofs.EngineCounts`: the two counters agree

`EngineCounts st refs dropping` is the invariant of the engine counters. `refs` is the
multiset of the `Engine` values that exist anywhere, by the pointer they hold, and `dropping`
is the number of `EngineInner` values whose last clone is gone and whose `Drop` has not run.
Then each `Rc` counts its clones, `RUNTIME_REFCOUNT` counts the `EngineInner` values that are
alive or on their way out, and the runtime is initialised exactly while that count is positive.

Each operation has one rule. The rules say nothing about who holds the engines, so the thread
system of `Proofs/RuntimeRefcount.lean` and the API of `Proofs/Ownership.lean` use the same ones.
-/

set_option autoImplicit false

namespace Wamrx.Proofs

open Support

/-- The counters are right for the existing `Engine` values. -/
structure EngineCounts (st : EngineState) (refs : Multiset Nat) (dropping : Nat) : Prop where
  counted : Rc.Counted st.inners refs
  refcount_eq : st.refcount = Multiset.card st.inners.values + dropping
  initialized_iff : st.initialized = true ↔ 0 < st.refcount

namespace EngineCounts

variable {st : EngineState} {refs : Multiset Nat} {dropping : Nat}

theorem init : EngineCounts EngineState.init 0 0 :=
  ⟨Rc.counted_empty, rfl, by simp [EngineState.init]⟩

/-- While an `Engine` value exists, the count is positive. -/
theorem refcount_pos (h : EngineCounts st refs dropping) {i : Nat} (hi : i ∈ refs) :
    0 < st.refcount := by
  obtain ⟨b, hb⟩ := (h.counted.live_iff i).mpr hi
  have hcard : 0 < Multiset.card st.inners.values :=
    Multiset.card_pos_iff_exists_mem.mpr ⟨b, Arena.mem_values.mpr ⟨i, hb⟩⟩
  have := h.refcount_eq
  omega

/-- While an `Engine` value exists, the runtime is initialised. -/
theorem initialized (h : EngineCounts st refs dropping) {i : Nat} (hi : i ∈ refs) :
    st.initialized = true :=
  h.initialized_iff.mpr (h.refcount_pos hi)

/-- Counting a new `EngineInner`, on an initialised runtime. -/
private theorem count (h : Rc.Counted st.inners refs)
    (hcount : st.refcount = Multiset.card st.inners.values + dropping)
    (hinit : st.initialized = true) :
    EngineCounts st.count.1 (st.count.2.inner ::ₘ refs) dropping := by
  refine ⟨Rc.counted_new h (), ?_, ?_⟩
  · show st.refcount + 1 = Multiset.card (Rc.new st.inners ()).values + dropping
    rw [Rc.new, Arena.values_push, Multiset.card_cons, hcount]
    omega
  · exact ⟨fun _ => Nat.succ_pos _, fun _ => hinit⟩

/-- `Engine::new`. It fails exactly when it has to start the runtime and cannot, and then it
changes nothing. Otherwise it returns one more engine. It calls WAMR exactly when the count is
zero. -/
theorem new (h : EngineCounts st refs dropping) (initOk : Bool) :
    (st.refcount = 0 ∧ initOk = false ∧
        st.new initOk = (st, [.fullInit false], .error .runtimeInit)) ∨
      (∃ st' e, (st.refcount = 0 ∧ initOk = true ∧
            st.new initOk = (st', [.fullInit true], .ok e) ∧
            st'.incarnation = st.incarnation + 1 ∨
          0 < st.refcount ∧ st.new initOk = (st', [], .ok e) ∧
            st'.incarnation = st.incarnation) ∧
        EngineCounts st' (e.inner ::ₘ refs) dropping) := by
  by_cases hzero : st.refcount = 0
  · cases initOk with
    | false => exact Or.inl ⟨hzero, rfl, by rw [EngineState.new, if_pos hzero]; rfl⟩
    | true =>
      -- The counters are those of before, only the runtime is new.
      let started := { st with initialized := true, incarnation := st.incarnation + 1 }
      refine Or.inr ⟨started.count.1, started.count.2, Or.inl ⟨hzero, rfl, ?_, rfl⟩, ?_⟩
      · rw [EngineState.new, if_pos hzero]
        rfl
      · exact @count started _ _ h.counted h.refcount_eq rfl
  · have hpos : 0 < st.refcount := by omega
    refine Or.inr ⟨st.count.1, st.count.2, Or.inr ⟨hpos, ?_, rfl⟩, ?_⟩
    · rw [EngineState.new, if_neg hzero]
    · exact count h.counted h.refcount_eq (h.initialized_iff.mpr hpos)

/-- `Engine::clone` adds one engine. -/
theorem clone (h : EngineCounts st refs dropping) {e : Engine} (he : e.inner ∈ refs) :
    EngineCounts (st.clone e) (e.inner ::ₘ refs) dropping := by
  refine ⟨Rc.counted_clone h.counted he, ?_, h.initialized_iff⟩
  have hcard : Multiset.card (Rc.clone st.inners e.inner).values
      = Multiset.card st.inners.values := by
    have := congrArg Multiset.card (Rc.contents_clone st.inners e.inner)
    simpa [Rc.contents] using this
  show st.refcount = _
  rw [h.refcount_eq, ← hcard]
  rfl

/-- The drop of an `Engine` value. The drop of the last clone leaves its `EngineInner` on the
way out. -/
theorem drop {e : Engine} (h : EngineCounts st (e.inner ::ₘ refs) dropping) :
    EngineCounts (st.drop e).1 refs (if (st.drop e).2 then dropping + 1 else dropping) := by
  obtain ⟨b, hb, hcases⟩ := Rc.drop_cases h.counted
  -- The box is one of those that are counted.
  have hcard := congrArg Multiset.card (Arena.values_erase hb)
  rw [Multiset.card_cons] at hcard
  have hcount := h.refcount_eq
  unfold EngineState.drop
  rcases hcases with ⟨-, hd, hc⟩ | ⟨-, hd, hc⟩ <;> rw [hd] at hc ⊢
  · refine ⟨hc, ?_, h.initialized_iff⟩
    simp only [Option.isSome_none, Bool.false_eq_true, if_false, Arena.values_set hb,
      Multiset.card_cons]
    omega
  · refine ⟨hc, ?_, h.initialized_iff⟩
    simp only [Option.isSome_some, if_true]
    omega

@[simp] theorem refcount_dropInner : st.dropInner.1.refcount = st.refcount - 1 := by
  unfold EngineState.dropInner
  simp only
  split <;> rfl

/-- The critical section of `Drop for EngineInner` never subtracts from zero. It ends the
runtime exactly when the count reaches zero. -/
theorem dropInner (h : EngineCounts st refs (dropping + 1)) :
    0 < st.refcount ∧ EngineCounts st.dropInner.1 refs dropping ∧
      st.dropInner.2 = (if st.refcount = 1 then [.destroy] else []) := by
  have hcount := h.refcount_eq
  refine ⟨by omega, ?_⟩
  unfold EngineState.dropInner
  by_cases hone : st.refcount = 1
  -- The decrement reaches zero from one, and the count is positive here.
  · have hz : st.refcount - 1 = 0 := by omega
    rw [if_pos hz, if_pos hone]
    exact ⟨⟨h.counted, by simp only; omega, by simp [hz]⟩, rfl⟩
  · have hz : ¬ st.refcount - 1 = 0 := by omega
    have hinit := h.initialized_iff.mpr (by omega)
    rw [if_neg hz, if_neg hone]
    exact ⟨⟨h.counted, by simp only; omega, fun _ => by simp only; omega, fun _ => hinit⟩, rfl⟩

end EngineCounts

end Wamrx.Proofs
