import Wamrx.Proofs.Frames
import Wamrx.Proofs.ParserPanics

/-!
# `Wamrx.Proofs.ValueRules`: the constructors and the drops of the API

`Inv c V` is the invariant between two calls of the API: `V` are the values that the user
holds, and the live `LinkerState` boxes own the rest. Each constructor adds its value to `V` or
fails and adds nothing, and each drop takes its value away.

A constructor that fails leaves nothing behind because it ends in the same invariant as one
that was never called.
-/

set_option autoImplicit false

namespace Wamrx.Proofs

open Support Support.Lifetime

variable {F : Type} {c : Process F} {V : Multiset Owned}

/-! ### The invariant -/

/-- Everything that the live `LinkerState` boxes own. -/
def statesParts (c : Process F) : Multiset Owned := (Rc.contents c.states).bind parts

/-- The pointers to a `LinkerState` in the values. -/
def stateRefsOf (V : Multiset Owned) : Multiset Nat := V.bind Owned.stateRefs

@[simp] theorem stateRefsOf_cons (v : Owned) (V : Multiset Owned) :
    stateRefsOf (v ::ₘ V) = v.stateRefs + stateRefsOf V := Multiset.cons_bind _ _ _

/-- The invariant of the shared state, for the values `V` outside the `LinkerState` boxes. -/
structure Inv (c : Process F) (V : Multiset Owned) : Prop where
  /-- A box is live while a value points at it. -/
  states : Rc.Counted c.states (stateRefsOf V)
  /-- The values and the boxes own exactly what exists. -/
  owns : Owns c (V + statesParts c)
  /-- Entries are owned by the boxes. -/
  noEntry : ∀ n, .entry n ∉ V

theorem inv_init : Inv (Process.init : Process F) 0 :=
  ⟨Rc.counted_empty, owns_init, by simp⟩

/-- The values and the boxes do not own entries without an engine: each box has its own. -/
theorem idle_boxes (hV : ∀ n, .entry n ∉ V) (S : Multiset LinkerState) :
    Idle (V + S.bind parts) := by
  intro hrefs n hn
  rcases Multiset.mem_add.mp hn with hn | hn
  · exact hV n hn
  obtain ⟨s, hs, -⟩ := Multiset.mem_bind.mp hn
  -- The box that owns the entry owns an engine.
  have hmem : s.engine.inner ∈ engineRefsOf (V + S.bind parts) := by
    refine mem_engineRefsOf.mpr ⟨.engine s.engine, ?_, Multiset.mem_singleton_self _⟩
    exact Multiset.mem_add.mpr (Or.inr (Multiset.mem_bind.mpr ⟨s, hs, by simp [parts]⟩))
  simp [hrefs] at hmem

theorem Inv.idle (h : Inv c V) : Idle (V + statesParts c) := idle_boxes h.noEntry _

/-- What is owned does not depend on the counts of the boxes. -/
theorem Owns.setStates {T : Multiset Owned} (h : Owns c T) (t : Rc.Table LinkerState) :
    Owns { c with states := t } T :=
  ⟨h.engines, h.tracks, h.registry, fun v hv => valid_frame (h.valid v hv) fun r _ => by
    cases r <;> trivial⟩

/-- A pointer to a box owns nothing but the count. -/
theorem Owns.of_cons_state {ptr : Nat} {T : Multiset Owned} (h : Owns c (.state ptr ::ₘ T)) :
    Owns c T := by
  obtain ⟨hengines, htracks, hregistry, hvalid⟩ := h
  simp only [engineRefsOf_cons, itemsOf_cons, nodesOf_cons, Owned.engineRefs, Owned.items,
    Owned.nodes, zero_add] at hengines htracks hregistry
  exact ⟨hengines, htracks, hregistry, fun v hv => hvalid v (Multiset.mem_cons_of_mem hv)⟩

theorem Owns.cons_state {T : Multiset Owned} (h : Owns c T) (ptr : Nat) :
    Owns c (.state ptr ::ₘ T) := by
  obtain ⟨hengines, htracks, hregistry, hvalid⟩ := h
  refine ⟨?_, ?_, ?_, ?_⟩
  · simpa [Owned.engineRefs] using hengines
  · simpa [Owned.items] using htracks
  · simpa [Owned.nodes] using hregistry
  · intro v hv
    rcases Multiset.mem_cons.mp hv with rfl | hv
    · trivial
    · exact hvalid v hv

/-- The invariant after an operation that does not touch the boxes. -/
theorem Inv.of_states_eq {c' : Process F} {V' : Multiset Owned} (h : Inv c V)
    (hstates : c'.states = c.states) (hrefs : stateRefsOf V' = stateRefsOf V)
    (howns : Owns c' (V' + statesParts c)) (hentry : ∀ n, .entry n ∉ V') : Inv c' V' := by
  refine ⟨by rw [hstates, hrefs]; exact h.states, ?_, hentry⟩
  rw [statesParts, hstates]
  exact howns

theorem Inv.noEntry_of_cons {v : Owned} (h : Inv c (v ::ₘ V)) : ∀ n, .entry n ∉ V :=
  fun n hn => h.noEntry n (Multiset.mem_cons_of_mem hn)

/-- The engine of a value counts, wherever the value is. -/
theorem engine_mem {e : Engine} (he : .engine e ∈ V) (T : Multiset Owned) :
    e.inner ∈ engineRefsOf (V + T) :=
  mem_engineRefsOf.mpr ⟨_, Multiset.mem_add.mpr (Or.inl he), Multiset.mem_singleton_self _⟩

/-! ### Engines -/

/-- `Engine::new`. -/
theorem Inv.newEngine (h : Inv c V) (initOk : Bool) :
    (∃ e, (c.newEngine initOk).2 = .ok e ∧ Inv (c.newEngine initOk).1 (.engine e ::ₘ V)) ∨
      (∃ err, (c.newEngine initOk).2 = .error err ∧ (c.newEngine initOk).1 = c) := by
  rcases h.owns.newEngine h.idle initOk with ⟨e, hok, howns⟩ | herr
  · refine Or.inl ⟨e, hok, h.of_states_eq (by simp) (by simp [Owned.stateRefs]) ?_ ?_⟩
    · rwa [Multiset.cons_add]
    · simpa using h.noEntry
  · exact Or.inr herr

/-- `Engine::clone`. -/
theorem Inv.cloneEngine (h : Inv c V) {e : Engine} (he : .engine e ∈ V) :
    Inv (c.cloneEngine e) (.engine e ::ₘ V) := by
  refine h.of_states_eq (by simp) (by simp [Owned.stateRefs]) ?_ (by simpa using h.noEntry)
  rw [Multiset.cons_add]
  exact h.owns.cloneEngine (engine_mem he _)

/-- The drop of an `Engine`. -/
theorem Inv.dropEngine {e : Engine} (h : Inv c (.engine e ::ₘ V)) : Inv (c.dropEngine e) V := by
  refine h.of_states_eq (by simp) (by simp [Owned.stateRefs]) ?_ h.noEntry_of_cons
  have howns := h.owns
  rw [Multiset.cons_add] at howns
  exact howns.dropEngine (idle_boxes h.noEntry_of_cons _)

/-! ### Linkers -/

/-- `Linker::new`: a box with an engine and no entry. -/
theorem Inv.newLinker (h : Inv c V) {e : Engine} (he : .engine e ∈ V) :
    Inv (Linker.new c e).1 (.state c.states.next ::ₘ V) := by
  refine ⟨?_, ?_, by simpa using h.noEntry⟩
  · rw [stateRefsOf_cons, Owned.stateRefs, Multiset.singleton_add]
    exact Rc.counted_new h.states _
  · have hnew : statesParts (Linker.new c e).1 = .engine e ::ₘ statesParts c := by
      show (Rc.contents (Rc.new c.states _)).bind parts = _
      rw [Rc.contents_new, Multiset.cons_bind]
      rfl
    rw [hnew, Multiset.cons_add, Multiset.add_cons]
    exact ((h.owns.cloneEngine (engine_mem he _)).setStates _).cons_state _

/-- Taking the contents of a live box out of the shared state. -/
theorem statesParts_erase {ptr : Nat} {b : RcBox LinkerState} (hb : c.states.get? ptr = some b) :
    statesParts c = parts b.val + (Rc.contents (c.states.erase ptr)).bind parts := by
  rw [statesParts, Rc.contents_erase hb, Multiset.cons_bind]

/-- The drop of one pointer to a `LinkerState`. The last one takes the box away, with all that
it owns. -/
theorem Inv.dropRc {ptr : Nat} (h : Inv c (.state ptr ::ₘ V)) :
    Inv (LinkerState.dropRc c ptr) V := by
  have hcounted := h.states
  rw [stateRefsOf_cons, Owned.stateRefs, Multiset.singleton_add] at hcounted
  have howns : Owns c (V + statesParts c) := by
    have := h.owns
    rw [Multiset.cons_add] at this
    exact this.of_cons_state
  -- Only the count changes, or the parts of the box come out and are dropped.
  obtain ⟨b, hb, ⟨-, hdrop, hc⟩ | ⟨-, hdrop, hc⟩⟩ := Rc.drop_cases hcounted
  · unfold LinkerState.dropRc
    rw [hdrop] at hc ⊢
    refine ⟨hc, ?_, h.noEntry_of_cons⟩
    have hsame : statesParts { c with states := c.states.set ptr { b with strong := b.strong - 1 } }
        = statesParts c := congrArg (Multiset.bind · parts) (Rc.contents_set_strong hb _)
    rw [hsame]
    exact howns.setStates _
  · unfold LinkerState.dropRc
    rw [hdrop] at hc ⊢
    refine ⟨by simpa using hc, ?_, h.noEntry_of_cons⟩
    rw [statesParts_erase hb, add_left_comm] at howns
    rw [statesParts, dropState_states]
    exact (howns.setStates _).dropState (idle_boxes h.noEntry_of_cons _)

/-- The state after a `define_func` that succeeds on the box `ptr` with the contents `s`. -/
def defined (c : Process F) (ptr : Nat) (s : LinkerState) (module name : Name) (ty : FuncType)
    (func : F) : Process F :=
  let r := s.push (registered c module name ty func) (entryAt c.heap.next)
  { r.1 with states := Rc.update r.1.states ptr fun _ => r.2 }

@[simp] theorem registered_states (c : Process F) (module name : Name) (ty : FuncType) (func : F) :
    (registered c module name ty func).states = c.states := rfl

@[simp] theorem refused_states (c : Process F) (module name : Name) (ty : FuncType) (func : F) :
    (refused c module name ty func).states = c.states := by
  simp only [refused, free_states, alloc_states]

theorem refused_registry (c : Process F) (module name : Name) (ty : FuncType) (func : F) :
    (refused c module name ty func).registry = c.registry := by
  simp only [refused, free_registry, alloc_registry]

@[simp] theorem push_states (c : Process F) (s : LinkerState) (n : NativeEntry) :
    (s.push c n).1.states = c.states := by
  unfold LinkerState.push
  split
  · simp only
    split <;> rfl
  · rfl

@[simp] theorem push_entries (c : Process F) (s : LinkerState) (n : NativeEntry) :
    (s.push c n).2.entries = s.entries ++ [n] := by
  unfold LinkerState.push
  split <;> rfl

theorem defined_states (c : Process F) (ptr : Nat) (s : LinkerState) (module name : Name)
    (ty : FuncType) (func : F) :
    (defined c ptr s module name ty func).states = Rc.update c.states ptr fun _ =>
      (s.push (registered c module name ty func) (entryAt c.heap.next)).2 := by
  simp only [defined, push_states, registered_states]

/-- The outcomes of `Linker::define_func`: the error of the registration, or a new entry in the
box of the linker. -/
theorem defineFunc_cases (h : Inv c V) {l : Linker} (hl : l.state ∈ stateRefsOf V)
    (module name : Name) (ty : FuncType) (func : F) (registerOk : Bool) :
    (∃ err, (0 ∈ module ∨ 0 ∈ name ∨ registerOk = false) ∧
      l.defineFunc c module name ty func registerOk
        = ((NativeEntry.register c module name ty func registerOk).1, .error err) ∧
      (NativeEntry.register c module name ty func registerOk).2 = .error err) ∨
    (∃ b, 0 ∉ module ∧ 0 ∉ name ∧ registerOk = true ∧ c.states.get? l.state = some b ∧
      l.defineFunc c module name ty func registerOk
        = (defined c l.state b.val module name ty func, .ok ())) := by
  obtain ⟨b, hb⟩ := (h.states.live_iff l.state).mpr hl
  unfold Linker.defineFunc
  rcases register_cases c module name ty func registerOk with
    ⟨hm, hr⟩ | ⟨-, hn, hr⟩ | ⟨-, -, hno, hr⟩ | ⟨hm, hn, hok, hr⟩
  · exact Or.inl ⟨_, Or.inl hm, by rw [hr], by rw [hr]⟩
  · exact Or.inl ⟨_, Or.inr (Or.inl hn), by rw [hr], by rw [hr]⟩
  · exact Or.inl ⟨_, Or.inr (Or.inr hno), by rw [hr], by rw [hr]⟩
  · refine Or.inr ⟨b, hm, hn, hok, hb, ?_⟩
    have hderef : Rc.deref? (registered c module name ty func).states l.state = some b.val := by
      simp [registered, Rc.deref?, hb]
    rw [hr]
    simp only [hderef]
    rfl

/-- A registration that fails does not touch the boxes. -/
theorem register_states_of_error {module name : Name} {ty : FuncType} {func : F}
    {registerOk : Bool} {err : Error}
    (herr : (NativeEntry.register c module name ty func registerOk).2 = .error err) :
    (NativeEntry.register c module name ty func registerOk).1.states = c.states := by
  rcases register_cases c module name ty func registerOk with
    ⟨-, hr⟩ | ⟨-, -, hr⟩ | ⟨-, -, -, hr⟩ | ⟨-, -, -, hr⟩ <;> rw [hr] at herr ⊢
  · rfl
  · exact refused_states _ _ _ _ _
  · cases herr

/-- A registration that fails leaves nothing behind. -/
theorem Inv.register_error {module name : Name} {ty : FuncType} {func : F} {registerOk : Bool}
    {err : Error} (h : Inv c V)
    (herr : (NativeEntry.register c module name ty func registerOk).2 = .error err) :
    Inv (NativeEntry.register c module name ty func registerOk).1 V := by
  rcases register_cases c module name ty func registerOk with
    ⟨-, hr⟩ | ⟨-, -, hr⟩ | ⟨-, -, -, hr⟩ | ⟨-, -, -, hr⟩ <;> rw [hr] at herr ⊢
  · exact h
  · exact h.of_states_eq rfl rfl (h.owns.alloc _).free h.noEntry
  · exact h.of_states_eq (refused_states _ _ _ _ _) rfl (h.owns.refused module name ty func)
      h.noEntry
  · cases herr

/-- `Linker::define_func` gives the box of the linker one more entry, or leaves nothing
behind. -/
theorem Inv.defineFunc (h : Inv c V) {l : Linker} (hl : l.state ∈ stateRefsOf V)
    (module name : Name) (ty : FuncType) (func : F) (registerOk : Bool) :
    Inv (l.defineFunc c module name ty func registerOk).1 V := by
  rcases defineFunc_cases h hl module name ty func registerOk with
    ⟨err, -, hdef, herr⟩ | ⟨b, -, -, -, hb, hdef⟩ <;> rw [hdef]
  · exact h.register_error herr
  have howns := h.owns
  rw [statesParts_erase hb] at howns
  -- The registration relies on the runtime, which the engine of the box keeps alive.
  have hengine : b.val.engine.inner ∈ engineRefsOf (V + (parts b.val +
      (Rc.contents (c.states.erase l.state)).bind parts)) := by
    refine mem_engineRefsOf.mpr ⟨.engine b.val.engine, ?_, Multiset.mem_singleton_self _⟩
    simp [parts]
  have h₁ := howns.registered hengine module name ty func
  rw [add_left_comm] at h₁
  refine ⟨?_, ?_, h.noEntry⟩
  · rw [defined_states]
    exact Rc.counted_update h.states _ _
  · rw [statesParts, defined_states, Rc.contents_update hb, Multiset.cons_bind, add_left_comm]
    exact h₁.pushEntry.setStates _

/-! ### The entries of the live boxes -/

/-- Only entries are responsible for registrations. -/
theorem nodesOf_noEntry {V : Multiset Owned} (h : ∀ n, .entry n ∉ V) : nodesOf V = 0 := by
  refine Multiset.eq_zero_of_forall_notMem ?_
  intro x hx
  obtain ⟨v, hv, hx⟩ := Multiset.mem_bind.mp hx
  cases v with
  | entry n => exact h n hv
  | _ => simp [Owned.nodes] at hx

theorem nodesOf_parts (s : LinkerState) :
    nodesOf (parts s) = (s.entries.map NativeEntry.node : List NativesNode) := by
  have hentries : ∀ ns : List NativeEntry, nodesOf (entries ns)
      = (ns.map NativeEntry.node : List NativesNode) := by
    intro ns
    induction ns with
    | nil => rfl
    | cons n ns ih => simp [ih, Owned.nodes]
  simp [parts, Owned.nodes, hentries]

/-- The registry is the nodes of the entries of the live boxes. -/
theorem Inv.registry_eq (h : Inv c V) :
    (c.registry : Multiset NativesNode) = (Rc.contents c.states).bind fun s =>
      (s.entries.map NativeEntry.node : List NativesNode) := by
  rw [h.owns.registry, nodesOf_add, nodesOf_noEntry h.noEntry, zero_add]
  rw [nodesOf, statesParts, Multiset.bind_assoc]
  exact Multiset.bind_congr fun s _ => nodesOf_parts s

theorem Inv.mem_registry (h : Inv c V) {node : NativesNode} :
    node ∈ c.registry ↔
      ∃ ptr s, Rc.deref? c.states ptr = some s ∧ ∃ n ∈ s.entries, n.node = node := by
  rw [← Multiset.mem_coe, h.registry_eq]
  simp only [Multiset.mem_bind, Rc.mem_contents, Multiset.mem_coe, List.mem_map]
  constructor
  · rintro ⟨s, ⟨ptr, hs⟩, hn⟩
    exact ⟨ptr, s, hs, hn⟩
  · rintro ⟨ptr, s, hs, hn⟩
    exact ⟨s, ⟨ptr, hs⟩, hn⟩

/-- The entries of a live box are owned. -/
theorem mem_statesParts {c : Process F} {ptr : Nat} {s : LinkerState} {n : NativeEntry}
    (hs : Rc.deref? c.states ptr = some s) (hn : n ∈ s.entries) (V : Multiset Owned) :
    .entry n ∈ V + statesParts c := by
  have hparts : .entry n ∈ parts s := by simp [parts, mem_entries, hn]
  have hs := Rc.mem_contents.mpr ⟨ptr, hs⟩
  exact Multiset.mem_add.mpr (Or.inr (Multiset.mem_bind.mpr ⟨s, hs, hparts⟩))

/-- The blocks of an entry of a live box hold what its symbol says. -/
theorem Inv.entryOk {c : Process F} {V : Multiset Owned} (h : Inv c V) {ptr : Nat}
    {s : LinkerState} {n : NativeEntry} (hs : Rc.deref? c.states ptr = some s)
    (hn : n ∈ s.entries) : EntryOk c n := h.owns.valid _ (mem_statesParts hs hn V)

theorem EntryOk.get?_block {c : Process F} {n : NativeEntry} (h : EntryOk c n) {addr : Nat}
    (haddr : addr ∈ n.blocks) : ∃ cell, c.heap.get? addr = some cell := by
  obtain ⟨⟨_, hm⟩, ⟨_, hf⟩, ⟨_, _, hc, hs⟩, hy⟩ := h
  simp only [NativeEntry.blocks, List.mem_cons, List.not_mem_nil, or_false] at haddr
  rcases haddr with rfl | rfl | rfl | rfl | rfl
  exacts [⟨_, hm⟩, ⟨_, hf⟩, ⟨_, hs⟩, ⟨_, hc⟩, ⟨_, hy⟩]

/-- Two entries that own the same context are the same entry. -/
theorem Owns.entry_unique {T : Multiset Owned} (h : Owns c T) {n n' : NativeEntry}
    (hn : .entry n ∈ T) (hn' : .entry n' ∈ T) (hctx : n.context = n'.context) : n = n' := by
  by_contra hne
  obtain ⟨T', rfl⟩ := Multiset.exists_cons_of_mem hn
  have hother : .entry n' ∈ T' := by
    refine (Multiset.mem_cons.mp hn').resolve_left fun heq => hne ?_
    exact (Owned.entry.inj heq).symm
  refine h.disjoint hother (r := .block n.context) ?_ ?_
  · simp [Owned.resources, NativeEntry.blocks]
  · simp [Owned.resources, NativeEntry.blocks, hctx]

/-- No context belongs to entries of two boxes. -/
theorem Inv.context_unique (h : Inv c V) {ptr ptr' : Nat} {s s' : LinkerState}
    {n n' : NativeEntry} (hs : Rc.deref? c.states ptr = some s) (hn : n ∈ s.entries)
    (hs' : Rc.deref? c.states ptr' = some s') (hn' : n' ∈ s'.entries)
    (hctx : n.context = n'.context) : ptr = ptr' := by
  have heq := h.owns.entry_unique (mem_statesParts hs hn V) (mem_statesParts hs' hn' V) hctx
  subst heq
  by_contra hne
  obtain ⟨k, hb⟩ := Rc.deref?_eq_some.mp hs
  obtain ⟨k', hb'⟩ := Rc.deref?_eq_some.mp hs'
  have hrest : s' ∈ Rc.contents (c.states.erase ptr) := by
    refine Rc.mem_contents.mpr ⟨ptr', Rc.deref?_eq_some.mpr ⟨k', ?_⟩⟩
    rw [Arena.get?_erase_of_ne (Ne.symm hne), hb']
  -- Take the entry out of its own box.
  obtain ⟨X, hX⟩ := Multiset.exists_cons_of_mem
    (show .entry n ∈ parts s by simp [parts, mem_entries, hn])
  have howns := h.owns
  rw [statesParts_erase hb, hX, Multiset.cons_add, Multiset.add_cons] at howns
  -- The same entry in the other box would be owned twice.
  have hother : .entry n ∈ V + (X + (Rc.contents (c.states.erase ptr)).bind parts) := by
    refine Multiset.mem_add.mpr (Or.inr (Multiset.mem_add.mpr (Or.inr ?_)))
    exact Multiset.mem_bind.mpr ⟨s', hrest, by simp [parts, mem_entries, hn']⟩
  have hblock : Resource.block n.context ∈ (Owned.entry n).resources := by
    simp [Owned.resources, NativeEntry.blocks]
  exact howns.disjoint hother hblock hblock

/-! ### Modules -/

/-- `Module::new`. The parser does not panic on a slice that fits into memory. -/
theorem Inv.newModule {usizeBits : Nat} (h : Inv c V) (link : Linking) {e : Engine}
    (he : .engine e ∈ V) {bytes : List UInt8} (hsize : bytes.length ≤ isizeMax usizeBits)
    (loaded : LoadResult) :
    (∃ m, (Module.new link usizeBits c e bytes loaded).2 = .ok m ∧
        Inv (Module.new link usizeBits c e bytes loaded).1 (.module m ::ₘ V)) ∨
      (∃ err, (Module.new link usizeBits c e bytes loaded).2 = .error err ∧
        Inv (Module.new link usizeBits c e bytes loaded).1 V) := by
  have h₁ := h.owns.alloc (.bytes bytes)
  have hcell : (c.alloc (.bytes bytes)).1.heap.get? c.heap.next = some (.bytes bytes) :=
    Arena.get?_push_next _ _
  unfold Module.new
  cases loaded with
  | error errBuf => exact Or.inr ⟨_, rfl, h.of_states_eq rfl rfl h₁.free h.noEntry⟩
  | ok imports =>
    -- The clone of the engine and the load do not depend on each other's state.
    have h₂ := h₁.cloneEngine (e := e) (by
      rw [engineRefsOf_cons]
      exact Multiset.mem_add.mpr (Or.inr (engine_mem he _)))
    have hok : ∀ ty : Option MemoryType,
        Inv ((((c.alloc (.bytes bytes)).1.load link c.heap.next imports).1).cloneEngine e)
          (.module ⟨c.modules.next, c.heap.next, ty, e⟩ ::ₘ V) := by
      intro ty
      refine h.of_states_eq rfl (by simp [Owned.stateRefs]) ?_ (by simpa using h.noEntry)
      rw [Multiset.cons_add]
      exact h₂.load hcell imports ty
    simp only
    split
    · exact Or.inl ⟨_, rfl, hok _⟩
    · exact Or.inl ⟨_, rfl, hok _⟩
    · rename_i p hpanic
      exact absurd hpanic (parseMemoryType_ne_panic (lt_two_pow_of_le_isizeMax hsize) p)

/-- The drop of a `Module`. -/
theorem Inv.dropModule {m : Module} (h : Inv c (.module m ::ₘ V)) : Inv (m.drop c) V := by
  refine h.of_states_eq (by simp) (by simp [Owned.stateRefs]) ?_ h.noEntry_of_cons
  have howns := h.owns
  rw [Multiset.cons_add] at howns
  have h₁ := howns.unload
  rw [Multiset.cons_swap] at h₁
  exact h₁.free.dropEngine (idle_boxes h.noEntry_of_cons _)

/-! ### Instances -/

/-- `Instance::new`: an instance, or the module and the pointer are gone. -/
theorem Inv.newInstance {m : Module} {ptr : Nat} (h : Inv c (.state ptr ::ₘ .module m ::ₘ V))
    (result : InstantiateResult) :
    (∃ i, (Instance.new c m ptr result).2 = .ok i ∧
        Inv (Instance.new c m ptr result).1 (.inst i ::ₘ V)) ∨
      (∃ err, (Instance.new c m ptr result).2 = .error err ∧
        Inv (Instance.new c m ptr result).1 V) := by
  have howns := h.owns
  rw [Multiset.cons_add, Multiset.cons_add] at howns
  have hmod := howns.of_cons_state
  cases result with
  | ok =>
    refine Or.inl ⟨_, rfl, h.of_states_eq rfl ?_ ?_ ?_⟩
    · simp [Owned.stateRefs]
    · rw [Multiset.cons_add]
      exact hmod.instantiate ptr
    · simpa using h.noEntry
  -- Both parameters are dropped, as if the user had dropped them.
  | instantiateFailed errBuf => exact Or.inr ⟨_, rfl, h.dropRc.dropModule⟩
  | execEnvFailed =>
    refine Or.inr ⟨_, rfl, Inv.dropModule (Inv.dropRc (h.of_states_eq rfl rfl ?_ h.noEntry))⟩
    rw [Multiset.cons_add, Multiset.cons_add]
    exact hmod.instantiate_deinstantiate.cons_state ptr

/-- The drop of an `Instance`. -/
theorem Inv.dropInstance {i : Instance} (h : Inv c (.inst i ::ₘ V)) : Inv (i.drop c) V := by
  have howns := h.owns
  rw [Multiset.cons_add] at howns
  -- After its `Drop`, the instance is its two fields.
  have h₁ : Inv ((c.destroyExecEnv i.execEnv).deinstantiate i.moduleInst)
      (.module i.module ::ₘ .state i.linkerState ::ₘ V) := by
    refine h.of_states_eq rfl (by simp [Owned.stateRefs]) ?_ (by simpa using h.noEntry)
    rw [Multiset.cons_add, Multiset.cons_add, Multiset.cons_swap]
    exact howns.deinstantiate.cons_state _
  exact h₁.dropModule.dropRc

/-- `Linker::instantiate_with`. -/
theorem Inv.instantiate {l : Linker} {m : Module} (h : Inv c (.module m ::ₘ V))
    (hl : l.state ∈ stateRefsOf V) (result : InstantiateResult) :
    (∃ i, (l.instantiate c m result).2 = .ok i ∧
        Inv (l.instantiate c m result).1 (.inst i ::ₘ V)) ∨
      (∃ err, (l.instantiate c m result).2 = .error err ∧
        Inv (l.instantiate c m result).1 V) := by
  refine Inv.newInstance ⟨?_, ?_, by simpa using h.noEntry⟩ result
  · rw [stateRefsOf_cons, Owned.stateRefs, Multiset.singleton_add]
    refine Rc.counted_clone h.states ?_
    rw [stateRefsOf_cons]
    exact Multiset.mem_add.mpr (Or.inr hl)
  · have hsame : statesParts { c with states := Rc.clone c.states l.state } = statesParts c :=
      congrArg (Multiset.bind · parts) (Rc.contents_clone _ _)
    rw [hsame, Multiset.cons_add]
    exact (h.owns.setStates _).cons_state _

end Wamrx.Proofs
