import Wamrx.Proofs.Worlds

/-!
# `Wamrx.Proofs.RegistryAccounting`: the registry and the entries that own it

WAMR's registry is a global list of pointers. `Accounts w` says who owns what is behind them:
the registered arrays are those of the entries of the `LinkerState`s that a linker or an
instance still references, each pointer designates a block that its entry alone owns, and a
registration goes away before its storage.

`registry_accounting` adds what a run does to an entry once it is there (nothing, until the
drop of its `LinkerState`), and that a `define_func` with an error changes nothing.
-/

set_option autoImplicit false

namespace Wamrx.Proofs

open Support Support.Lifetime

variable {F : Type} {link : Linking} {usizeBits : Nat} {w w' : World F}

/-- The registry is accounted for. -/
structure Accounts (w : World F) : Prop where
  /-- The registered arrays are those of the entries of the live `LinkerState`s. -/
  registry : (w.proc.registry : Multiset NativesNode)
    = (Rc.contents w.proc.states).bind fun s => (s.entries.map NativeEntry.node : List NativesNode)
  /-- A `LinkerState` is live while a linker or an instance references it. -/
  referenced : ∀ ptr, (∃ s, Rc.deref? w.proc.states ptr = some s) ↔
    (∃ l li, w.linkers.get? l = some li ∧ li.state = ptr) ∨
      ∃ i ins, w.instances.get? i = some ins ∧ ins.linkerState = ptr
  /-- The pointers of an entry designate its texts, its context and its array. -/
  storage : ∀ ptr s, Rc.deref? w.proc.states ptr = some s → ∀ n ∈ s.entries, EntryOk w.proc n
  /-- No resource is owned twice. -/
  exclusive : ((valuesOf w + statesParts w.proc).bind fun v =>
    (v.resources : Multiset Resource)).Nodup
  /-- The blocks of an entry are those whose addresses WAMR got at the registration. -/
  address : ∀ ptr s, Rc.deref? w.proc.states ptr = some s → ∀ n ∈ s.entries,
    ∃ k, .acquire (.natives n.node) (n.blocks.map Resource.block ++ [.runtime k]) ∈ w.proc.trace
  /-- A registration is undone once, when its node leaves the registry. -/
  unregistered : ∀ node deps, .acquire (.natives node) deps ∈ w.proc.trace →
    w.proc.trace.count (.release (.natives node)) ≤ 1 ∧
      (.release (.natives node) ∈ w.proc.trace ↔ node ∉ w.proc.registry)
  /-- A registration is undone before a block behind it is freed. -/
  beforeFreed : ∀ node deps addr pre post, .acquire (.natives node) deps ∈ w.proc.trace →
    .block addr ∈ deps → w.proc.trace = pre ++ .release (.block addr) :: post →
    .release (.natives node) ∈ pre

/-! ### Registrations -/

/-- The registration of an entry of a live box is in the trace, and it was not undone. -/
theorem Inv.acquired {c : Process F} {V : Multiset Owned} (h : Inv c V) {ptr : Nat}
    {s : LinkerState} {n : NativeEntry} (hs : Rc.deref? c.states ptr = some s)
    (hn : n ∈ s.entries) :
    .acquire (.natives n.node) (n.blocks.map Resource.block ++ [.runtime c.eng.incarnation])
      ∈ c.trace ∧ .release (.natives n.node) ∉ c.trace := by
  refine h.owns.tracks.of_mem (i := ⟨.natives n.node, _⟩) ?_
  exact Multiset.mem_add.mpr (Or.inr (mem_itemsOf.mpr ⟨_, mem_statesParts hs hn V, by
    simp [Owned.items]⟩))

/-- A registration is live exactly while its node is in the registry. -/
theorem Owns.natives_live_iff {c : Process F} {T : Multiset Owned} (h : Owns c T)
    {node : NativesNode} :
    .natives node ∈ (runtimeItems c + itemsOf c.eng.incarnation T).map Item.res ↔
      node ∈ c.registry := by
  -- The runtime is no registration, and of the values only entries have one.
  have hrun : Resource.natives node ∉ (runtimeItems c).map Item.res := by
    unfold runtimeItems
    split <;> simp [Process.runtime]
  have hvalue : ∀ v : Owned, .natives node ∈ v.resources ↔ node ∈ v.nodes := by
    intro v
    cases v <;> simp [Owned.resources, Owned.nodes]
  rw [Multiset.map_add, Multiset.mem_add, or_iff_right hrun, mem_res_itemsOf, ← Multiset.mem_coe,
    h.registry, nodesOf, Multiset.mem_bind]
  simp only [hvalue]

/-! ### The theorem -/

/-- The registry of every reachable state is accounted for. -/
theorem accounts_run {ops : List (Op F)}
    (h : run (World.step link usizeBits) World.init ops = some w) : Accounts w := by
  have hinv := inv_run h
  have htr := hinv.owns.tracks
  obtain ⟨s, hs, -, -⟩ := htr.replays
  refine ⟨hinv.registry_eq, ?_, fun ptr s hs n hn => hinv.entryOk hs hn, ?_,
    fun ptr s hs n hn => ⟨_, (hinv.acquired hs hn).1⟩, ?_, ?_⟩
  · intro ptr
    rw [← mem_stateRefsOf_valuesOf, ← hinv.states.live_iff]
    constructor
    · rintro ⟨s, hs⟩
      obtain ⟨k, hk⟩ := Rc.deref?_eq_some.mp hs
      exact ⟨_, hk⟩
    · rintro ⟨b, hb⟩
      exact ⟨b.val, by simp [Rc.deref?, hb]⟩
  · have hnd := htr.nodup
    rw [Multiset.map_add, Multiset.nodup_add] at hnd
    have hnd := hnd.2.1
    rw [itemsOf, Multiset.map_bind] at hnd
    simpa only [map_res_items] using hnd
  · intro node deps ha
    refine ⟨count_release_le_one hs _, ?_⟩
    rw [htr.release_mem_iff ha, hinv.owns.natives_live_iff]
  · intro node deps addr pre post ha haddr hsplit
    rw [hsplit] at hs ha
    exact release_precedes hs ha haddr

/-- An entry of a live box keeps its blocks, and the blocks keep their contents. -/
theorem entries_run {ops : List (Op F)} (h : Inv w.proc (valuesOf w))
    (hrun : run (World.step link usizeBits) w ops = some w') {ptr : Nat} {s s' : LinkerState}
    (hs : Rc.deref? w.proc.states ptr = some s) (hs' : Rc.deref? w'.proc.states ptr = some s') :
    s.entries <+: s'.entries ∧ ∀ n ∈ s.entries, ∀ addr ∈ n.blocks,
      w'.proc.heap.get? addr = w.proc.heap.get? addr := by
  have hinv' : Inv w'.proc (valuesOf w') :=
    run_inv (fun m : World F => Inv m.proc (valuesOf m)) inv_step h hrun
  have hfollows := run_follows h hrun
  have hpre := hfollows.entries_prefix hs hs'
  refine ⟨hpre, ?_⟩
  intro n hn addr haddr
  obtain ⟨cell, hcell⟩ := (h.entryOk hs hn).get?_block haddr
  obtain ⟨cell', hcell'⟩ := (hinv'.entryOk hs' (hpre.subset hn)).get?_block haddr
  rw [hcell', hfollows.heap.get?_old addr cell' (Arena.lt_next_of_get? hcell) hcell']

/-- A `define_func` that returns an error leaves the registry and the boxes as they were. -/
theorem defineFunc_error {c : Process F} {V : Multiset Owned} (h : Inv c V) {l : Linker}
    (hl : l.state ∈ stateRefsOf V) {module name : Name} {ty : FuncType} {func : F}
    {registerOk : Bool} {err : Error}
    (herr : (l.defineFunc c module name ty func registerOk).2 = .error err) :
    (l.defineFunc c module name ty func registerOk).1.registry = c.registry ∧
      (l.defineFunc c module name ty func registerOk).1.states = c.states := by
  rcases defineFunc_cases h hl module name ty func registerOk with
    ⟨e, -, hdef, hreg⟩ | ⟨b, -, -, -, -, hdef⟩ <;> rw [hdef] at herr ⊢
  · rcases register_cases c module name ty func registerOk with
      ⟨-, hr⟩ | ⟨-, -, hr⟩ | ⟨-, -, -, hr⟩ | ⟨-, -, -, hr⟩ <;> rw [hr] at hreg ⊢
    · exact ⟨rfl, rfl⟩
    · exact ⟨rfl, rfl⟩
    · exact ⟨refused_registry _ _ _ _ _, refused_states _ _ _ _ _⟩
    · cases hreg
  · cases herr

/-- The registry is accounted for in every state of every run. An entry keeps its place, its
addresses and its storage as long as its `LinkerState` lives, and a `define_func` that returns
an error (a text with a NUL, or a refusal) leaves the registry and the entries as they were. -/
theorem registry_accounting (link : Linking) (usizeBits : Nat) (ops : List (Op F)) (w : World F)
    (h : run (World.step link usizeBits) World.init ops = some w) :
    Accounts w ∧
    (∀ later w', run (World.step link usizeBits) w later = some w' →
      ∀ ptr s s', Rc.deref? w.proc.states ptr = some s → Rc.deref? w'.proc.states ptr = some s' →
        s.entries <+: s'.entries ∧ ∀ n ∈ s.entries, ∀ addr ∈ n.blocks,
          w'.proc.heap.get? addr = w.proc.heap.get? addr) ∧
    ∀ l li module name ty func registerOk, w.linkers.get? l = some li →
      let r := li.defineFunc w.proc module name ty func registerOk
      (r.2 = .ok () ↔ 0 ∉ module ∧ 0 ∉ name ∧ registerOk = true) ∧
        ∀ err, r.2 = .error err →
          r.1.registry = w.proc.registry ∧ r.1.states = w.proc.states := by
  have hinv := inv_run h
  refine ⟨accounts_run h, fun later w' hrun ptr s s' => entries_run hinv hrun, ?_⟩
  intro l li module name ty func registerOk hli
  have hptr := mem_stateRefsOf_valuesOf.mpr (Or.inl ⟨l, li, hli, rfl⟩)
  refine ⟨?_, fun err => defineFunc_error hinv hptr⟩
  rcases defineFunc_cases hinv hptr module name ty func registerOk with
    ⟨err, hbad, hdef, -⟩ | ⟨b, hm, hn, hok, -, hdef⟩ <;> simp only [hdef]
  · refine ⟨fun heq => (by cases heq), ?_⟩
    rintro ⟨hm, hn, hok⟩
    rcases hbad with hbad | hbad | hbad
    · exact absurd hbad hm
    · exact absurd hbad hn
    · rw [hok] at hbad
      cases hbad
  · exact ⟨fun _ => ⟨hm, hn, hok⟩, fun _ => trivial⟩

/-- Two linkers that define one name, one of them often enough to move its entries to a larger
buffer, with a text that has a NUL and with a refusal. -/
def definitionsRun : List (Op Unit) :=
  [.engineNew true, .linkerNew 0, .linkerNew 0, .defineFunc 0 [0x6d] [0x66] ⟨[], []⟩ () true,
    .defineFunc 1 [0x6d] [0x66] ⟨[], []⟩ () true, .defineFunc 0 [0x6d] [0x66] ⟨[], []⟩ () true,
    .defineFunc 0 [0x6d, 0] [0x66] ⟨[], []⟩ () true, .defineFunc 0 [0x6d] [0x66] ⟨[], []⟩ () false,
    .defineFunc 0 [0x6d] [0x67] ⟨[], []⟩ () true, .defineFunc 0 [0x6d] [0x68] ⟨[], []⟩ () true,
    .defineFunc 0 [0x6d] [0x69] ⟨[], []⟩ () true, .linkerDrop 1]

theorem registry_accounting_definitionsRun :
    ∃ w, run (World.step wamrLink 64) World.init definitionsRun = some w ∧
      w.proc.registry.length = 5 ∧ Accounts w := by
  obtain ⟨w, hw⟩ := Option.isSome_iff_exists.mp
    (show (run (World.step wamrLink 64) World.init definitionsRun).isSome by decide)
  have hlen : (run (World.step wamrLink 64) World.init definitionsRun).map (·.proc.registry.length)
      = some 5 := by decide
  rw [hw] at hlen
  exact ⟨w, hw, Option.some.inj hlen, (registry_accounting wamrLink 64 definitionsRun w hw).1⟩

end Wamrx.Proofs
