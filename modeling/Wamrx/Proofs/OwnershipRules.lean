import Mathlib.Tactic.Abel
import Wamrx.Proofs.Ownership

/-!
# `Wamrx.Proofs.OwnershipRules`: one rule for each primitive operation

Each rule says what an operation of `Process` does to the multiset of owned values: an
allocation adds a block, loading turns a block into a module, unregistering turns an entry into
its blocks. The rules for WAMR's handles come with the step of the trace that they add.

`Owns.newEngine` and `Owns.dropEngine` may start and end the runtime. They ask that, without an
engine, there is no native entry (`Idle`), so that nothing relies on the runtime then.
-/

set_option autoImplicit false

namespace Wamrx.Proofs

open Support Support.Lifetime

variable {F : Type} {c c' : Process F} {T : Multiset Owned}

/-! ### The heap -/

/-- The frontiers only move up. -/
theorem below_mono (hk : c.eng.incarnation ≤ c'.eng.incarnation)
    (hheap : c.heap.next ≤ c'.heap.next) (hmod : c.modules.next ≤ c'.modules.next)
    (hinst : c.moduleInsts.next ≤ c'.moduleInsts.next)
    (henv : c.execEnvs.next ≤ c'.execEnvs.next) : ∀ r, below c r → below c' r := by
  intro r hr
  cases r with
  | runtime k => exact Nat.le_trans hr hk
  | block addr => exact Nat.lt_of_lt_of_le hr hheap
  | natives node => exact Nat.lt_of_lt_of_le (show node.nativeSymbols < _ from hr) hheap
  | module handle => exact Nat.lt_of_lt_of_le hr hmod
  | moduleInst handle => exact Nat.lt_of_lt_of_le hr hinst
  | execEnv handle => exact Nat.lt_of_lt_of_le hr henv

/-- Releasing the first resource of a value: the rest of its resources stays. -/
theorem Owns.tracks_release {v : Owned} (h : Owns c (v ::ₘ T)) (r : Resource)
    (deps : List Resource) (group : Multiset (Item Resource))
    (hitems : v.items c.eng.incarnation = {⟨r, deps⟩} + group) (hroot : ¬ IsRuntime r)
    (hself : r ∉ deps) (hgroup : ∀ i ∈ group, r ∉ i.deps) :
    Tracks (c.trace ++ [.release r])
      (runtimeItems c + (group + itemsOf c.eng.incarnation T)) (below c) := by
  have htr := h.tracks
  -- The group of the resource first, then everything that is local without it.
  have hsum : runtimeItems c + itemsOf c.eng.incarnation (v ::ₘ T)
      = {⟨r, deps⟩} + (group + (runtimeItems c + itemsOf c.eng.incarnation T)) := by
    rw [itemsOf_cons, hitems]
    abel
  rw [hsum] at htr
  have := tracks_release_local group htr (local_live c _ T) hroot hself hgroup
  rwa [show group + (runtimeItems c + itemsOf c.eng.incarnation T)
    = runtimeItems c + (group + itemsOf c.eng.incarnation T) by abel] at this

/-- What is below the frontiers is not touched by an allocation. -/
theorem sameAt_alloc (cell : Cell F) {r : Resource} (hr : below c r) :
    SameAt c (c.alloc cell).1 r := by
  cases r with
  | block addr =>
    show (c.heap.push cell).get? addr = c.heap.get? addr
    rw [Arena.get?_push, if_neg (Nat.ne_of_lt hr)]
  | _ => trivial

/-- The invariant after an operation that leaves the engine counters alone. -/
theorem Owns.of_eng_eq {T' : Multiset Owned} (h : Owns c T) (heng : c'.eng = c.eng)
    (hrefs : engineRefsOf T' = engineRefsOf T)
    (htracks : Tracks c'.trace (runtimeItems c + itemsOf c.eng.incarnation T') (below c'))
    (hregistry : (c'.registry : Multiset NativesNode) = nodesOf T')
    (hvalid : ∀ v ∈ T', v.Valid c') : Owns c' T' := by
  refine ⟨?_, ?_, hregistry, hvalid⟩
  · rw [heng, hrefs]
    exact h.engines
  · rw [runtimeItems, Process.runtime, heng]
    exact htracks

/-- Acquiring a resource beyond the frontiers. -/
theorem Owns.tracks_acquire (h : Owns c T) {r : Resource} {deps : List Resource}
    (hfresh : ¬ below c r)
    (hdeps : ∀ d ∈ deps,
      d ∈ (runtimeItems c + itemsOf c.eng.incarnation T).map Item.res)
    (hle : ∀ x, below c x → below c' x) (hr : below c' r) :
    Tracks (c.trace ++ [.acquire r deps])
      (runtimeItems c + ({⟨r, deps⟩} + itemsOf c.eng.incarnation T)) (below c') := by
  have htr := Lifetime.tracks_acquire h.tracks hfresh hdeps hle hr
  rw [← Multiset.singleton_add] at htr
  rwa [add_left_comm]

/-- An allocation adds a block. -/
theorem Owns.alloc (h : Owns c T) (cell : Cell F) :
    Owns (c.alloc cell).1 (.block c.heap.next ::ₘ T) := by
  refine h.of_eng_eq rfl ?_ ?_ ?_ ?_
  · simp [Owned.engineRefs]
  · have hle : ∀ x, below c x → below (c.alloc cell).1 x :=
      below_mono (Nat.le_refl _) (by simp [Process.alloc, Process.acquire]) (Nat.le_refl _)
        (Nat.le_refl _) (Nat.le_refl _)
    rw [itemsOf_cons]
    exact h.tracks_acquire (Nat.lt_irrefl c.heap.next) (by simp) hle
      (by simp [below, Process.alloc, Process.acquire])
  · show (c.registry : Multiset NativesNode) = _
    simpa [Owned.nodes] using h.registry
  · intro v hv
    rcases Multiset.mem_cons.mp hv with rfl | hv
    · exact ⟨cell, Arena.get?_push_next _ _⟩
    · exact h.valid_of_same (fun _ hr => sameAt_alloc cell hr) v hv

/-- A free touches nothing but the block. -/
theorem sameAt_free {addr : Nat} {r : Resource} (hr : r ≠ .block addr) :
    SameAt c (c.free addr) r := by
  cases r with
  | block b => exact Arena.get?_erase_of_ne fun heq => hr (congrArg _ heq)
  | _ => trivial

/-- A free takes the block away. -/
theorem Owns.free {addr : Nat} (h : Owns c (.block addr ::ₘ T)) : Owns (c.free addr) T := by
  refine h.of_eng_eq rfl ?_ ?_ ?_ ?_
  · simp [Owned.engineRefs]
  · have htr := h.tracks_release (.block addr) [] 0 rfl id (by simp) (by simp)
    rw [zero_add] at htr
    exact htr.mono (below_mono (Nat.le_refl _) (by simp [Process.free, Process.release])
      (Nat.le_refl _) (Nat.le_refl _) (Nat.le_refl _))
  · show (c.registry : Multiset NativesNode) = _
    simpa [Owned.nodes] using h.registry
  · refine h.valid_of_same_except fun r hr => sameAt_free ?_
    rintro rfl
    simp [Owned.resources] at hr

/-! ### Engines -/

/-- Without an engine, there is no native entry. -/
def Idle (T : Multiset Owned) : Prop := engineRefsOf T = 0 → ∀ n, .entry n ∉ T

/-- Without an engine, all that is owned is blocks. -/
theorem Idle.items_eq {T : Multiset Owned} (h : Idle T) (hrefs : engineRefsOf T = 0) {v : Owned}
    (hv : v ∈ T) : (∃ ptr, v = .state ptr) ∨ ∃ addr, v = .block addr := by
  -- Every other kind of value has an engine in it.
  have hnone : v.engineRefs = 0 := by
    refine Multiset.eq_zero_of_forall_notMem ?_
    intro i hi
    have := mem_engineRefsOf.mpr ⟨v, hv, hi⟩
    simp [hrefs] at this
  cases v with
  | engine e => simp [Owned.engineRefs] at hnone
  | state ptr => exact Or.inl ⟨ptr, rfl⟩
  | module m => simp [Owned.engineRefs] at hnone
  | inst i => simp [Owned.engineRefs] at hnone
  | entry n => exact absurd hv (h hrefs n)
  | block addr => exact Or.inr ⟨addr, rfl⟩

/-- Then the incarnation does not matter. -/
theorem Idle.itemsOf_eq (h : Idle T) (hrefs : engineRefsOf T = 0) (k k' : Nat) :
    itemsOf k T = itemsOf k' T := by
  refine Multiset.bind_congr ?_
  intro v hv
  rcases h.items_eq hrefs hv with ⟨ptr, rfl⟩ | ⟨addr, rfl⟩ <;> rfl

/-- And nothing relies on the runtime. -/
theorem Idle.not_dep (h : Idle T) (hrefs : engineRefsOf T = 0) (k : Nat) (r : Resource) :
    ∀ i ∈ itemsOf k T, r ∉ i.deps := by
  intro i hi
  obtain ⟨v, hv, hi⟩ := mem_itemsOf.mp hi
  rcases h.items_eq hrefs hv with ⟨ptr, rfl⟩ | ⟨addr, rfl⟩
  · simp [Owned.items] at hi
  · rw [Multiset.mem_singleton.mp hi]
    simp [blockItem]

/-- And nothing is registered. -/
theorem Idle.nodesOf_eq (h : Idle T) (hrefs : engineRefsOf T = 0) : nodesOf T = 0 := by
  refine Multiset.eq_zero_of_forall_notMem ?_
  intro x hx
  obtain ⟨v, hv, hx⟩ := Multiset.mem_bind.mp hx
  rcases h.items_eq hrefs hv with ⟨ptr, rfl⟩ | ⟨addr, rfl⟩ <;> simp [Owned.nodes] at hx

/-- A count of zero means that there is no engine. -/
theorem Owns.engineRefs_eq_zero (h : Owns c T) (hzero : c.eng.refcount = 0) :
    engineRefsOf T = 0 := by
  refine Multiset.eq_zero_of_forall_notMem ?_
  intro i hi
  have := h.engines.refcount_pos hi
  omega

/-- While there is an engine, the runtime is a live resource. -/
theorem Owns.runtimeItems_eq (h : Owns c T) {i : Nat} (hi : i ∈ engineRefsOf T) :
    runtimeItems c = {⟨c.runtime, []⟩} := if_pos (h.engines.initialized hi)

/-- While there is an engine, a resource may rely on the runtime. -/
theorem Owns.runtime_mem (h : Owns c T) {i : Nat} (hi : i ∈ engineRefsOf T) :
    c.runtime ∈ (runtimeItems c + itemsOf c.eng.incarnation T).map Item.res := by
  rw [h.runtimeItems_eq hi]
  simp

/-- `Engine::clone` adds an engine. -/
theorem Owns.cloneEngine (h : Owns c T) {e : Engine} (he : e.inner ∈ engineRefsOf T) :
    Owns (c.cloneEngine e) (.engine e ::ₘ T) := by
  refine ⟨?_, ?_, ?_, ?_⟩
  · rw [engineRefsOf_cons, Owned.engineRefs, Multiset.singleton_add]
    exact h.engines.clone he
  · rw [itemsOf_cons, Owned.items, zero_add]
    exact h.tracks
  · rw [nodesOf_cons, Owned.nodes, zero_add]
    exact h.registry
  · intro v hv
    rcases Multiset.mem_cons.mp hv with rfl | hv
    · trivial
    · exact valid_frame (h.valid v hv) fun r _ => by cases r <;> trivial

/-- The ledger when the runtime starts: a new incarnation, and nobody relies on the old one. -/
theorem Owns.tracks_started (h : Owns c T) (hidle : Idle T) {st : EngineState}
    (hzero : c.eng.refcount = 0) (hinc : st.incarnation = c.eng.incarnation + 1) :
    Tracks (c.trace ++ [.acquire (.runtime st.incarnation) []])
      ({⟨.runtime st.incarnation, []⟩} + itemsOf st.incarnation T)
      (below { c with eng := st }) := by
  have hoff : c.eng.initialized = false := by
    rw [← Bool.not_eq_true, h.engines.initialized_iff]
    omega
  have htr := h.tracks
  rw [runtimeItems, hoff, hidle.itemsOf_eq (h.engineRefs_eq_zero hzero) _ st.incarnation] at htr
  have hfresh : ¬ below c (.runtime st.incarnation) := by
    show ¬ st.incarnation ≤ c.eng.incarnation
    omega
  have hle : ∀ x, below c x → below { c with eng := st } x :=
    below_mono (by show c.eng.incarnation ≤ st.incarnation; omega) (Nat.le_refl _)
      (Nat.le_refl _) (Nat.le_refl _) (Nat.le_refl _)
  have hacquire := Lifetime.tracks_acquire htr hfresh
    (show ∀ d ∈ ([] : List Resource), d ∈ _ from by simp) hle
    (show st.incarnation ≤ st.incarnation from Nat.le_refl _)
  simpa using hacquire

/-- Other counts, under which the runtime stays alive. -/
theorem owns_kept {st : EngineState} (hcounts : EngineCounts st (engineRefsOf T) 0)
    (hpos : 0 < st.refcount) (hon : c.eng.initialized = true)
    (hinc : st.incarnation = c.eng.incarnation)
    (htr : Tracks c.trace (runtimeItems c + itemsOf c.eng.incarnation T) (below c))
    (hreg : (c.registry : Multiset NativesNode) = nodesOf T)
    (hvalid : ∀ v ∈ T, v.Valid c) : Owns { c with eng := st } T := by
  have hstay : st.initialized = true := hcounts.initialized_iff.mpr hpos
  refine ⟨hcounts, ?_, hreg,
    fun v hv => valid_frame (hvalid v hv) fun r _ => by cases r <;> trivial⟩
  simp only [runtimeItems, Process.runtime, hon, if_true] at htr
  simp only [runtimeItems, Process.runtime, hstay, if_true, hinc]
  exact htr.mono (below_mono (Nat.le_of_eq hinc.symm) (Nat.le_refl _) (Nat.le_refl _)
    (Nat.le_refl _) (Nat.le_refl _))

/-- `Engine::new` adds an engine, or fails and changes nothing. -/
theorem Owns.newEngine (h : Owns c T) (hidle : Idle T) (initOk : Bool) :
    (∃ e, (c.newEngine initOk).2 = .ok e ∧ Owns (c.newEngine initOk).1 (.engine e ::ₘ T)) ∨
      (∃ err, (c.newEngine initOk).2 = .error err ∧ (c.newEngine initOk).1 = c) := by
  unfold Process.newEngine
  rcases h.engines.new initOk with ⟨-, -, hnew⟩ | ⟨st, e, hnew, hcounts⟩
  · exact Or.inr ⟨_, by rw [hnew], by rw [hnew]; rfl⟩
  refine Or.inl ⟨e, ?_⟩
  have hon : st.initialized = true := hcounts.initialized (Multiset.mem_cons_self _ _)
  have hpos : 0 < st.refcount := hcounts.refcount_pos (Multiset.mem_cons_self _ _)
  have hcounts : EngineCounts st (engineRefsOf (.engine e ::ₘ T)) 0 := by
    simpa [Owned.engineRefs] using hcounts
  have hreg : (c.registry : Multiset NativesNode) = nodesOf (.engine e ::ₘ T) := by
    rw [nodesOf_cons, Owned.nodes, zero_add]
    exact h.registry
  have hvalid : ∀ v ∈ (.engine e ::ₘ T : Multiset Owned), v.Valid c := by
    intro v hv
    rcases Multiset.mem_cons.mp hv with rfl | hv
    · trivial
    · exact h.valid v hv
  rcases hnew with ⟨hzero, -, hnew, hinc⟩ | ⟨hone, hnew, hinc⟩
  · -- The first engine: a new incarnation, and nobody relies on the old one.
    rw [hnew]
    refine ⟨rfl, hcounts, ?_, hreg, fun v hv => valid_frame (hvalid v hv) ?_⟩
    · have htr := h.tracks_started hidle hzero hinc
      simp only [List.foldl_cons, List.foldl_nil, runtimeItems, Process.runtimeCall,
        Process.acquire, Process.runtime, hon, if_true, itemsOf_cons, Owned.items, zero_add]
      exact htr
    · intro r _
      cases r <;> trivial
  · -- Another engine: the runtime stays, and no event is added.
    rw [hnew]
    have htr : Tracks c.trace (runtimeItems c + itemsOf c.eng.incarnation (.engine e ::ₘ T))
        (below c) := by
      rw [itemsOf_cons, Owned.items, zero_add]
      exact h.tracks
    exact ⟨rfl, owns_kept hcounts hpos (h.engines.initialized_iff.mpr hone) hinc htr hreg hvalid⟩

/-- The critical section of `Drop for EngineInner` keeps the number of the incarnation. -/
theorem dropInner_incarnation (st : EngineState) :
    st.dropInner.1.incarnation = st.incarnation := by
  unfold EngineState.dropInner
  simp only
  split <;> rfl

/-- The ledger when the runtime ends: without an engine, all that is left is blocks. -/
theorem tracks_ended {st : EngineState} (hidle : Idle T) (hrefs : engineRefsOf T = 0)
    (hon : c.eng.initialized = true) (hinc : st.incarnation = c.eng.incarnation)
    (htr : Tracks c.trace (runtimeItems c + itemsOf c.eng.incarnation T) (below c)) :
    Tracks (c.trace ++ [.release (.runtime st.incarnation)]) (itemsOf st.incarnation T)
      (below { c with eng := st }) := by
  rw [runtimeItems, hon, if_pos rfl, Multiset.singleton_add] at htr
  have hend := Lifetime.tracks_release htr (by simp) (hidle.not_dep hrefs _ _)
  rw [hidle.itemsOf_eq hrefs _ c.eng.incarnation, hinc]
  exact hend.mono (below_mono (Nat.le_of_eq hinc.symm) (Nat.le_refl _) (Nat.le_refl _)
    (Nat.le_refl _) (Nat.le_refl _))

/-- The end of the runtime, when the count has reached zero: there is no engine left, and nothing
relies on it any more. -/
theorem owns_ended {st : EngineState} (hidle : Idle T)
    (hcounts : EngineCounts st (engineRefsOf T) 0) (hzero : st.refcount = 0)
    (hon : c.eng.initialized = true) (hinc : st.incarnation = c.eng.incarnation)
    (htr : Tracks c.trace (runtimeItems c + itemsOf c.eng.incarnation T) (below c))
    (hvalid : ∀ v ∈ T, v.Valid c) : Owns (Process.runtimeCall { c with eng := st } .destroy) T := by
  have hrefs : engineRefsOf T = 0 := by
    refine Multiset.eq_zero_of_forall_notMem ?_
    intro i hi
    have := hcounts.refcount_pos hi
    omega
  have hoff : st.initialized = false := by
    rw [← Bool.not_eq_true, hcounts.initialized_iff]
    omega
  refine ⟨hcounts, ?_, ?_, ?_⟩
  · have hnone : ∀ c' : Process F, c'.eng = st → runtimeItems c' = 0 := fun c' h' => by
      rw [runtimeItems, h', hoff]
      rfl
    have hended := tracks_ended hidle hrefs hon hinc htr
    rw [hnone _ rfl, zero_add]
    exact hended
  · show (([] : List NativesNode) : Multiset NativesNode) = _
    rw [hidle.nodesOf_eq hrefs]
    rfl
  · exact fun v hv => valid_frame (hvalid v hv) fun r _ => by cases r <;> trivial

/-- The drop of an engine takes it away. When it was the last one, the runtime ends. -/
theorem Owns.dropEngine {e : Engine} (h : Owns c (.engine e ::ₘ T)) (hidle : Idle T) :
    Owns (c.dropEngine e) T := by
  have hcounts := h.engines
  rw [engineRefsOf_cons, Owned.engineRefs, Multiset.singleton_add] at hcounts
  have hon : c.eng.initialized = true := hcounts.initialized (Multiset.mem_cons_self _ _)
  have htr := h.tracks
  rw [itemsOf_cons, Owned.items, zero_add] at htr
  have hreg := h.registry
  rw [nodesOf_cons, Owned.nodes, zero_add] at hreg
  have hvalid : ∀ v ∈ T, v.Valid c := fun v hv => h.valid v (Multiset.mem_cons_of_mem hv)
  have hdrop := hcounts.drop
  unfold Process.dropEngine
  simp only
  cases hlast : (c.eng.drop e).2 with
  | false =>
    rw [hlast] at hdrop
    -- Another clone shares the `EngineInner`.
    refine ⟨hdrop, htr, hreg, fun v hv => valid_frame (hvalid v hv) ?_⟩
    intro r _
    cases r <;> trivial
  | true =>
    rw [hlast] at hdrop
    -- The `EngineInner` is dropped at once: between two calls there is none on the way out.
    obtain ⟨hpos, hinner, hcalls⟩ := hdrop.dropInner
    have hinc : (c.eng.drop e).1.dropInner.1.incarnation = c.eng.incarnation :=
      dropInner_incarnation _
    have hcount : (c.eng.drop e).1.dropInner.1.refcount = (c.eng.drop e).1.refcount - 1 :=
      EngineCounts.refcount_dropInner
    rw [if_pos rfl, hcalls]
    by_cases hone : (c.eng.drop e).1.refcount = 1
    · rw [if_pos hone]
      exact owns_ended hidle hinner (by omega) hon hinc htr hvalid
    · rw [if_neg hone]
      exact owns_kept hinner (by omega) hon hinc htr hreg hvalid

/-! ### Modules -/

/-- Loading turns the copy of the bytes, with an engine, into a module. -/
theorem Owns.load {link : Linking} {addr : Nat} {bs : List UInt8} {e : Engine}
    (h : Owns c (.engine e ::ₘ .block addr ::ₘ T)) (hcell : c.heap.get? addr = some (.bytes bs))
    (imports : List Import) (ty : Option MemoryType) :
    Owns (c.load link addr imports).1 (.module ⟨c.modules.next, addr, ty, e⟩ ::ₘ T) := by
  have hrt := h.runtime_mem (i := e.inner) (by simp [Owned.engineRefs])
  refine h.of_eng_eq rfl ?_ ?_ ?_ ?_
  · simp [Owned.engineRefs]
  -- The bytes are owned, and the engine keeps the runtime alive.
  · have hdeps : ∀ d ∈ [Resource.block addr, c.runtime], d ∈ (runtimeItems c +
        itemsOf c.eng.incarnation (.engine e ::ₘ .block addr ::ₘ T)).map Item.res := by
      simp only [List.forall_mem_cons]
      exact ⟨by simp [Owned.items, blockItem], hrt, by simp⟩
    have hle : ∀ x, below c x → below (c.load link addr imports).1 x :=
      below_mono (Nat.le_refl _) (Nat.le_refl _) (by simp [Process.load, Process.acquire])
        (Nat.le_refl _) (Nat.le_refl _)
    have htr := h.tracks_acquire (r := .module c.modules.next) (Nat.lt_irrefl _) hdeps hle
      (by simp [below, Process.load, Process.acquire])
    simp only [itemsOf_cons, Owned.items, Owned.moduleItems, zero_add, add_assoc] at htr ⊢
    exact htr
  · show (c.registry : Multiset NativesNode) = _
    simpa [Owned.nodes] using h.registry
  · intro v hv
    have hsame : ∀ r, below c r → SameAt c (c.load link addr imports).1 r := by
      intro r hr
      cases r with
      | module handle =>
        show (c.modules.push _).get? handle = c.modules.get? handle
        rw [Arena.get?_push, if_neg (Nat.ne_of_lt hr)]
      | _ => trivial
    rcases Multiset.mem_cons.mp hv with rfl | hv
    · exact ⟨⟨_, Arena.get?_push_next _ _⟩, bs, hcell⟩
    · exact h.valid_of_same hsame v (by simp [hv])

/-- Unloading leaves the bytes and the engine. -/
theorem Owns.unload {m : Module} (h : Owns c (.module m ::ₘ T)) :
    Owns (c.unload m.raw) (.engine m.engine ::ₘ .block m.bytes ::ₘ T) := by
  have hvalid := h.valid _ (Multiset.mem_cons_self _ _)
  refine h.of_eng_eq rfl ?_ ?_ ?_ ?_
  · simp [Owned.engineRefs]
  · have htr := h.tracks_release (.module m.raw) [.block m.bytes, .runtime c.eng.incarnation]
      {blockItem m.bytes} rfl id (by simp) (by simp [blockItem])
    rw [itemsOf_cons, itemsOf_cons, Owned.items, Owned.items, zero_add]
    exact htr.mono (below_mono (Nat.le_refl _) (Nat.le_refl _)
      (by simp [Process.unload, Process.release]) (Nat.le_refl _) (Nat.le_refl _))
  · show (c.registry : Multiset NativesNode) = _
    simpa [Owned.nodes] using h.registry
  · have hsame : ∀ r, r ≠ .module m.raw → SameAt c (c.unload m.raw) r := by
      intro r hr
      cases r with
      | module handle => exact Arena.get?_erase_of_ne fun heq => hr (congrArg _ heq)
      | _ => trivial
    intro v hv
    rcases Multiset.mem_cons.mp hv with rfl | hv
    · trivial
    rcases Multiset.mem_cons.mp hv with rfl | hv
    · obtain ⟨-, bs, hbs⟩ := hvalid
      exact ⟨.bytes bs, hbs⟩
    · refine h.valid_of_same_except (fun r hr => hsame r ?_) v hv
      rintro rfl
      simp [Owned.resources] at hr

/-! ### Instances -/

/-- WAMR's instantiation of a module that is there: nothing that exists is touched. -/
theorem sameAt_instantiate (module : Nat) {r : Resource} (hr : below c r) :
    SameAt c (c.instantiate module).1 r := by
  cases r with
  | moduleInst handle =>
    show (c.moduleInsts.push module).get? handle = c.moduleInsts.get? handle
    rw [Arena.get?_push, if_neg (Nat.ne_of_lt hr)]
  | _ => trivial

theorem below_instantiate (module : Nat) (r : Resource) (hr : below c r) :
    below (c.instantiate module).1 r :=
  @below_mono F c (c.instantiate module).1 (Nat.le_refl _) (Nat.le_refl _) (Nat.le_refl _)
    (by simp [Process.instantiate, Process.acquire]) (Nat.le_refl _) r hr

/-- The trace of an instantiation. -/
theorem Owns.tracks_instantiate {m : Module} (h : Owns c (.module m ::ₘ T)) :
    Tracks (c.instantiate m.raw).1.trace
      (runtimeItems c + ({⟨.moduleInst c.moduleInsts.next, [.module m.raw, c.runtime]⟩} +
        itemsOf c.eng.incarnation (.module m ::ₘ T))) (below (c.instantiate m.raw).1) := by
  have hrt := h.runtime_mem (i := m.engine.inner) (by simp [Owned.engineRefs])
  refine h.tracks_acquire (Nat.lt_irrefl c.moduleInsts.next) ?_ (below_instantiate m.raw)
    (by simp [below, Process.instantiate, Process.acquire])
  simp only [List.forall_mem_cons]
  exact ⟨by simp [Owned.items, Owned.moduleItems], hrt, by simp⟩

/-- Instantiating and making an execution environment turns a module into an instance. -/
theorem Owns.instantiate {m : Module} (h : Owns c (.module m ::ₘ T)) (ptr : Nat) :
    Owns ((c.instantiate m.raw).1.createExecEnv c.moduleInsts.next).1
      (.inst ⟨c.moduleInsts.next, c.execEnvs.next, m, ptr⟩ ::ₘ T) := by
  let c₁ := (c.instantiate m.raw).1
  -- Two acquisitions: the second relies on what the first one made.
  have hrt := h.runtime_mem (i := m.engine.inner) (by simp [Owned.engineRefs])
  refine h.of_eng_eq rfl ?_ ?_ ?_ ?_
  · simp [Owned.engineRefs]
  · have hdeps : ∀ d ∈ [Resource.moduleInst c.moduleInsts.next, c.runtime], d ∈ (runtimeItems c +
        ({⟨.moduleInst c.moduleInsts.next, [.module m.raw, c.runtime]⟩} +
          itemsOf c.eng.incarnation (.module m ::ₘ T))).map Item.res := by
      rw [add_left_comm, Multiset.map_add]
      simp only [List.forall_mem_cons]
      exact ⟨by simp, Multiset.mem_add.mpr (Or.inr hrt), by simp⟩
    have hle : ∀ x, below c₁ x → below (c₁.createExecEnv c.moduleInsts.next).1 x :=
      below_mono (Nat.le_refl _) (Nat.le_refl _) (Nat.le_refl _) (Nat.le_refl _)
        (by simp [Process.createExecEnv, Process.acquire])
    have htr := Lifetime.tracks_acquire h.tracks_instantiate
      (show ¬ below c₁ (.execEnv c.execEnvs.next) from Nat.lt_irrefl _) hdeps hle
      (by simp [below, Process.createExecEnv, Process.acquire, c₁, Process.instantiate])
    rw [← Multiset.singleton_add, add_left_comm] at htr
    simp only [itemsOf_cons, Owned.items, add_assoc] at htr ⊢
    exact htr
  · show (c.registry : Multiset NativesNode) = _
    simpa [Owned.nodes] using h.registry
  · have hsame : ∀ r, below c r → SameAt c (c₁.createExecEnv c.moduleInsts.next).1 r := by
      intro r hr
      cases r with
      | moduleInst handle => exact sameAt_instantiate m.raw hr
      | execEnv handle =>
        show (c.execEnvs.push _).get? handle = c.execEnvs.get? handle
        rw [Arena.get?_push, if_neg (Nat.ne_of_lt hr)]
      | _ => trivial
    intro v hv
    rcases Multiset.mem_cons.mp hv with rfl | hv
    · have hmod := h.valid _ (Multiset.mem_cons_self _ _)
      exact ⟨Arena.get?_push_next _ _, Arena.get?_push_next _ _, hmod⟩
    · exact h.valid_of_same hsame v (Multiset.mem_cons_of_mem hv)

/-- An instantiation that is taken back leaves everything as it was. -/
theorem Owns.instantiate_deinstantiate {m : Module} (h : Owns c (.module m ::ₘ T)) :
    Owns ((c.instantiate m.raw).1.deinstantiate c.moduleInsts.next) (.module m ::ₘ T) := by
  refine h.of_eng_eq rfl rfl ?_ h.registry ?_
  · have htr := h.tracks_instantiate
    rw [add_left_comm] at htr
    -- The new handle is a group of its own, and nothing was made from it.
    have hback := tracks_release_local 0 (by rwa [zero_add])
      (local_live c c.eng.incarnation (.module m ::ₘ T)) id (by simp [Process.runtime]) (by simp)
    rw [zero_add] at hback
    exact hback.mono (below_mono (Nat.le_refl _) (Nat.le_refl _) (Nat.le_refl _)
      (by simp [Process.deinstantiate, Process.release]) (Nat.le_refl _))
  · refine h.valid_of_same ?_
    intro r hr
    cases r with
    | moduleInst handle =>
      show ((c.moduleInsts.push m.raw).erase c.moduleInsts.next).get? handle
        = c.moduleInsts.get? handle
      have hne : handle ≠ c.moduleInsts.next := Nat.ne_of_lt hr
      rw [Arena.get?_erase_of_ne hne, Arena.get?_push, if_neg hne]
    | _ => trivial

/-- Tearing an instance down leaves its module. -/
theorem Owns.deinstantiate {i : Instance} (h : Owns c (.inst i ::ₘ T)) :
    Owns ((c.destroyExecEnv i.execEnv).deinstantiate i.moduleInst) (.module i.module ::ₘ T) := by
  have hvalid := h.valid _ (Multiset.mem_cons_self _ _)
  refine h.of_eng_eq rfl ?_ ?_ ?_ ?_
  · simp [Owned.engineRefs]
  · have htr := h.tracks_release (.execEnv i.execEnv)
      [.moduleInst i.moduleInst, .runtime c.eng.incarnation]
      ({⟨.moduleInst i.moduleInst, [.module i.module.raw, .runtime c.eng.incarnation]⟩} +
        Owned.moduleItems c.eng.incarnation i.module) rfl id (by simp)
      (by simp [Owned.moduleItems, blockItem])
    rw [add_assoc, add_left_comm] at htr
    -- The environment is gone, so nothing relies on the module instance.
    have htr := tracks_release_local (Owned.moduleItems c.eng.incarnation i.module)
      (by rwa [add_left_comm (Owned.moduleItems _ _)]) (local_live c c.eng.incarnation T) id
      (by simp) (by simp [Owned.moduleItems, blockItem])
    rw [add_left_comm] at htr
    rw [itemsOf_cons]
    exact htr.mono (below_mono (Nat.le_refl _) (Nat.le_refl _) (Nat.le_refl _)
      (by simp [Process.deinstantiate, Process.destroyExecEnv, Process.release])
      (by simp [Process.deinstantiate, Process.destroyExecEnv, Process.release]))
  · show (c.registry : Multiset NativesNode) = _
    simpa [Owned.nodes] using h.registry
  · have hsame : ∀ r, r ∉ [Resource.execEnv i.execEnv, .moduleInst i.moduleInst] →
        SameAt c ((c.destroyExecEnv i.execEnv).deinstantiate i.moduleInst) r := by
      intro r hr
      cases r with
      | moduleInst handle => exact Arena.get?_erase_of_ne fun heq => hr (by simp [heq])
      | execEnv handle => exact Arena.get?_erase_of_ne fun heq => hr (by simp [heq])
      | _ => trivial
    intro v hv
    rcases Multiset.mem_cons.mp hv with rfl | hv
    · exact ⟨hvalid.2.2.1, hvalid.2.2.2⟩
    · refine h.valid_of_same_except (fun r hr => hsame r fun hmem => hr ?_) v hv
      simp only [List.mem_cons, List.not_mem_nil, or_false] at hmem
      rcases hmem with rfl | rfl <;> simp [Owned.resources]

end Wamrx.Proofs
