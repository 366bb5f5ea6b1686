import Wamrx.Proofs.OwnershipRules

/-!
# `Wamrx.Proofs.EntryRules`: native entries and linker states

The rules for `NativeEntry` and `LinkerState`, from the primitive ones. Registering adds an
entry, or fails and leaves nothing behind. Unregistering finds exactly the node of the entry and
leaves its blocks.

A `LinkerState` is owned through its `Rc`, and it owns its `parts`: an engine, its entries and
the buffer of its `Vec`. `Owns.pushEntry` and `Owns.dropState` are the rules for these.
-/

set_option autoImplicit false

namespace Wamrx.Proofs

open Support Support.Lifetime

variable {F : Type} {c c' : Process F} {T : Multiset Owned}

/-! ### Blocks -/

theorem alloc_heap_next (c : Process F) (cell : Cell F) :
    (c.alloc cell).1.heap.next = c.heap.next + 1 := Arena.next_push _ _

/-- Blocks in hand. -/
def blocks (addrs : List Nat) : Multiset Owned := (addrs.map Owned.block : List Owned)

@[simp] theorem blocks_nil : blocks [] = 0 := rfl

@[simp] theorem blocks_cons (addr : Nat) (addrs : List Nat) :
    blocks (addr :: addrs) = .block addr ::ₘ blocks addrs := rfl

@[simp] theorem blocks_append (as bs : List Nat) : blocks (as ++ bs) = blocks as + blocks bs := by
  simp [blocks]

theorem mem_blocks {addrs : List Nat} {v : Owned} :
    v ∈ blocks addrs ↔ ∃ addr ∈ addrs, .block addr = v := by
  simp [blocks]

@[simp] theorem engineRefsOf_blocks (addrs : List Nat) : engineRefsOf (blocks addrs) = 0 := by
  induction addrs with
  | nil => rfl
  | cons addr addrs ih => simp [ih, Owned.engineRefs]

@[simp] theorem nodesOf_blocks (addrs : List Nat) : nodesOf (blocks addrs) = 0 := by
  induction addrs with
  | nil => rfl
  | cons addr addrs ih => simp [ih, Owned.nodes]

@[simp] theorem itemsOf_blocks (k : Nat) (addrs : List Nat) :
    itemsOf k (blocks addrs) = (addrs.map blockItem : List (Item Resource)) := by
  induction addrs with
  | nil => rfl
  | cons addr addrs ih => simp [ih, Owned.items]

/-- Blocks do not keep the runtime busy. -/
theorem Idle.add_blocks (h : Idle T) (addrs : List Nat) : Idle (blocks addrs + T) := by
  intro hrefs n hn
  rw [engineRefsOf_add, engineRefsOf_blocks, zero_add] at hrefs
  rcases Multiset.mem_add.mp hn with hn | hn
  · obtain ⟨addr, -, heq⟩ := mem_blocks.mp hn
    cases heq
  · exact h hrefs n hn

/-! ### Registering -/

/-- The entry whose blocks are the next five addresses. -/
def entryAt (addr : Nat) : NativeEntry := ⟨addr, addr + 1, addr + 2, addr + 3, addr + 4⟩

/-- The state after a successful registration. -/
def registered (c : Process F) (module name : Name) (ty : FuncType) (func : F) : Process F :=
  let n := entryAt c.heap.next
  { c with
    heap := ((((c.heap.push (.cstring module)).push (.cstring name)).push
      (.cstring ty.signatureCString)).push (.context ty func)).push
        (.symbols ⟨n.field, n.signature, n.context⟩)
    registry := n.node :: c.registry
    trace := c.trace ++ n.blocks.map (fun addr => .acquire (.block addr) []) ++
      [.acquire (.natives n.node) (n.blocks.map Resource.block ++ [c.runtime])] }

/-- The state after a refused registration: five blocks came and went. -/
def refused (c : Process F) (module name : Name) (ty : FuncType) (func : F) : Process F :=
  let n := entryAt c.heap.next
  (((((((((c.alloc (.cstring module)).1.alloc (.cstring name)).1.alloc
    (.cstring ty.signatureCString)).1.alloc (.context ty func)).1.alloc
      (.symbols ⟨n.field, n.signature, n.context⟩)).1.free n.symbol).free n.context).free
        n.signature).free n.field).free n.moduleName

/-- The outcomes of `NativeEntry::register`. -/
theorem register_cases (c : Process F) (module name : Name) (ty : FuncType) (func : F)
    (registerOk : Bool) :
    (0 ∈ module ∧ NativeEntry.register c module name ty func registerOk
        = (c, .error (interiorNul "module name"))) ∨
    (0 ∉ module ∧ 0 ∈ name ∧ NativeEntry.register c module name ty func registerOk
        = ((c.alloc (.cstring module)).1.free c.heap.next,
            .error (interiorNul "function name"))) ∨
    (0 ∉ module ∧ 0 ∉ name ∧ registerOk = false ∧
      NativeEntry.register c module name ty func registerOk
        = (refused c module name ty func, .error registrationFailed)) ∨
    (0 ∉ module ∧ 0 ∉ name ∧ registerOk = true ∧
      NativeEntry.register c module name ty func registerOk
        = (registered c module name ty func, .ok (entryAt c.heap.next))) := by
  unfold NativeEntry.register
  by_cases hmodule : 0 ∈ module
  · exact Or.inl ⟨hmodule, if_pos hmodule⟩
  by_cases hname : 0 ∈ name
  · refine Or.inr (Or.inl ⟨hmodule, hname, ?_⟩)
    rw [if_neg hmodule]
    exact if_pos hname
  rw [if_neg hmodule]
  -- All five blocks are allocated before WAMR is asked.
  cases registerOk with
  | false =>
    refine Or.inr (Or.inr (Or.inl ⟨hmodule, hname, rfl, ?_⟩))
    simp [hname, refused, entryAt, Process.alloc, Process.acquire]
  | true =>
    refine Or.inr (Or.inr (Or.inr ⟨hmodule, hname, rfl, ?_⟩))
    simp [hname, registered, entryAt, Process.alloc, Process.acquire, Process.registerNatives,
      NativeEntry.blocks, Process.runtime, NativeEntry.node]

/-- What the new blocks hold. -/
theorem registered_heap (c : Process F) (module name : Name) (ty : FuncType) (func : F) :
    let c' := registered c module name ty func
    let n := entryAt c.heap.next
    c'.heap.get? n.moduleName = some (.cstring module) ∧
      c'.heap.get? n.field = some (.cstring name) ∧
      c'.heap.get? n.signature = some (.cstring ty.signatureCString) ∧
      c'.heap.get? n.context = some (.context ty func) ∧
      c'.heap.get? n.symbol = some (.symbols ⟨n.field, n.signature, n.context⟩) := by
  simp [registered, entryAt, Arena.get?_push, Nat.add_assoc]

/-- The old blocks are not touched. -/
theorem registered_heap_of_lt (module name : Name) (ty : FuncType) (func : F) {addr : Nat}
    (h : addr < c.heap.next) :
    (registered c module name ty func).heap.get? addr = c.heap.get? addr := by
  have hne : ∀ i, addr ≠ c.heap.next + i := fun i => by omega
  have hne' : addr ≠ c.heap.next := Nat.ne_of_lt h
  simp [registered, Arena.get?_push, Nat.add_assoc, hne, hne']

theorem registered_heap_next (c : Process F) (module name : Name) (ty : FuncType) (func : F) :
    (registered c module name ty func).heap.next = c.heap.next + 5 := by
  simp [registered]

/-- The blocks of a new entry are the next five addresses. -/
theorem mem_blocks_entryAt {addr : Nat} {r : Resource}
    (h : r ∈ (entryAt addr).blocks.map Resource.block) :
    ∃ a, r = .block a ∧ addr ≤ a ∧ a < addr + 5 := by
  obtain ⟨a, ha, rfl⟩ := List.mem_map.mp h
  refine ⟨a, rfl, ?_⟩
  simp only [NativeEntry.blocks, entryAt, List.mem_cons, List.not_mem_nil, or_false] at ha
  omega

theorem nodup_blocks_entryAt (addr : Nat) :
    ((entryAt addr).blocks.map Resource.block).Nodup := by
  refine (List.nodup_map_iff fun a b hab => Resource.block.inj hab).mpr ?_
  simp [NativeEntry.blocks, entryAt]

/-- The frontier after a registration: the heap has grown by the five blocks. -/
theorem below_registered (c : Process F) (module name : Name) (ty : FuncType) (func : F)
    {r : Resource} (h : below c r ∨ r ∈ (entryAt c.heap.next).blocks.map Resource.block) :
    below (registered c module name ty func) r := by
  rcases h with h | h
  · refine @below_mono F c (registered c module name ty func) (Nat.le_refl _) ?_ (Nat.le_refl _)
      (Nat.le_refl _) (Nat.le_refl _) r h
    rw [registered_heap_next]
    omega
  · obtain ⟨addr, rfl, -, hlt⟩ := mem_blocks_entryAt h
    show addr < (registered c module name ty func).heap.next
    rw [registered_heap_next]
    exact hlt

/-- The trace of a registration: five blocks, and the registration that relies on them. -/
theorem Owns.tracks_registered (h : Owns c T) {i : Nat} (hi : i ∈ engineRefsOf T)
    (module name : Name) (ty : FuncType) (func : F) :
    Tracks (registered c module name ty func).trace
      (runtimeItems c + ((Owned.entry (entryAt c.heap.next)).items c.eng.incarnation +
        itemsOf c.eng.incarnation T)) (below (registered c module name ty func)) := by
  let n := entryAt c.heap.next
  have hfresh : ∀ r ∈ n.blocks.map Resource.block, ¬ below c r := by
    intro r hr
    obtain ⟨addr, rfl, hge, -⟩ := mem_blocks_entryAt hr
    exact Nat.not_lt.mpr hge
  have htr := tracks_acquire_all _ h.tracks (nodup_blocks_entryAt _) hfresh
  rw [List.map_map, List.map_map] at htr
  -- The array of the registration is one of the new blocks, so it was never registered before.
  have hnew : ¬ (below c (.natives n.node) ∨ .natives n.node ∈ n.blocks.map Resource.block) := by
    rintro (hlt | hmem)
    · have hlt : c.heap.next + 4 < c.heap.next := hlt
      omega
    · simp at hmem
  have hdeps : ∀ d ∈ n.blocks.map Resource.block ++ [c.runtime],
      d ∈ ((n.blocks.map ((fun r => (⟨r, []⟩ : Item Resource)) ∘ Resource.block) :
        Multiset (Item Resource)) + (runtimeItems c + itemsOf c.eng.incarnation T)).map
          Item.res := by
    intro d hd
    rw [Multiset.map_add]
    rcases List.mem_append.mp hd with hd | hd
    · refine Multiset.mem_add.mpr (Or.inl ?_)
      simpa using hd
    · rw [List.mem_singleton.mp hd]
      exact Multiset.mem_add.mpr (Or.inr (h.runtime_mem hi))
  have hself : below (registered c module name ty func) (.natives n.node) := by
    show c.heap.next + 4 < (registered c module name ty func).heap.next
    rw [registered_heap_next]
    omega
  have := Lifetime.tracks_acquire htr hnew hdeps
    (fun r hr => below_registered c module name ty func hr) hself
  rw [← Multiset.singleton_add, add_left_comm _ (runtimeItems c), add_left_comm _ (runtimeItems c),
    ← add_assoc {_}] at this
  exact this

/-- `NativeEntry::register` adds an entry, or fails and leaves nothing behind. -/
theorem Owns.registered (h : Owns c T) {i : Nat} (hi : i ∈ engineRefsOf T)
    (module name : Name) (ty : FuncType) (func : F) :
    Owns (registered c module name ty func) (.entry (entryAt c.heap.next) ::ₘ T) := by
  refine h.of_eng_eq rfl ?_ ?_ ?_ ?_
  · simp [Owned.engineRefs]
  · rw [itemsOf_cons]
    exact h.tracks_registered hi module name ty func
  · show ((_ :: c.registry : List NativesNode) : Multiset NativesNode) = _
    rw [nodesOf_cons, ← h.registry]
    rfl
  · intro v hv
    rcases Multiset.mem_cons.mp hv with rfl | hv
    · obtain ⟨hm, hf, hs, hc, hy⟩ := registered_heap c module name ty func
      exact ⟨⟨module, hm⟩, ⟨name, hf⟩, ⟨ty, func, hc, hs⟩, hy⟩
    · refine h.valid_of_same (fun r hr => ?_) v hv
      cases r with
      | block addr => exact registered_heap_of_lt module name ty func hr
      | _ => trivial

/-- A refused registration frees what it allocated. -/
theorem Owns.refused (h : Owns c T) (module name : Name) (ty : FuncType) (func : F) :
    Owns (refused c module name ty func) T := by
  have h₁ := h.alloc (.cstring module)
  have h₂ := h₁.alloc (.cstring name)
  have h₃ := h₂.alloc (.cstring ty.signatureCString)
  have h₄ := h₃.alloc (.context ty func)
  have h₅ := h₄.alloc (.symbols ⟨c.heap.next + 1, c.heap.next + 2, c.heap.next + 3⟩)
  simp only [alloc_heap_next, Nat.add_assoc, Nat.reduceAdd] at h₅
  exact h₅.free.free.free.free.free

/-! ### Unregistering -/

/-- The array of an entry is in no other node. -/
theorem Owns.node_unique {n : NativeEntry} (h : Owns c (.entry n ::ₘ T)) {node : NativesNode}
    (hmem : node ∈ c.registry) (heq : node.nativeSymbols = n.symbol) : node = n.node := by
  rw [← Multiset.mem_coe, h.registry, nodesOf_cons, Multiset.mem_add] at hmem
  rcases hmem with hmem | hmem
  · exact Multiset.mem_singleton.mp hmem
  · obtain ⟨v, hv, hnode⟩ := Multiset.mem_bind.mp hmem
    cases v with
    | entry n' =>
      obtain rfl := Multiset.mem_singleton.mp hnode
      -- Another entry with this array would own its block, too.
      have hshared : Resource.block n.symbol ∈ (Owned.entry n').resources := by
        have heq : n'.symbol = n.symbol := heq
        simp [Owned.resources, NativeEntry.blocks, heq]
      exact absurd hshared (h.disjoint hv (by simp [Owned.resources, NativeEntry.blocks]))
    | _ => simp [Owned.nodes] at hnode

/-- Unregistering an entry removes its own node. -/
theorem Owns.unregisterNatives_eq {n : NativeEntry} (h : Owns c (.entry n ::ₘ T)) :
    c.unregisterNatives n.moduleName n.symbol
      = { c with registry := c.registry.erase n.node }.release (.natives n.node) := by
  have hmem : n.node ∈ c.registry := by
    rw [← Multiset.mem_coe, h.registry, nodesOf_cons]
    simp [Owned.nodes]
  unfold Process.unregisterNatives
  simp only
  split
  · rename_i node hfind
    -- The scan also compares the module names, but the array alone decides.
    have hsame := List.find?_some hfind
    simp only [decide_eq_true_eq] at hsame
    rw [h.node_unique (List.mem_of_find?_eq_some hfind) hsame.1]
  · rename_i hfind
    have := List.find?_eq_none.mp hfind n.node hmem
    simp [NativeEntry.node] at this

/-- Unregistering an entry leaves its blocks. -/
theorem Owns.unregisterNatives {n : NativeEntry} (h : Owns c (.entry n ::ₘ T)) :
    Owns (c.unregisterNatives n.moduleName n.symbol) (blocks n.blocks + T) := by
  rw [h.unregisterNatives_eq]
  have hok : EntryOk c n := h.valid _ (Multiset.mem_cons_self _ _)
  refine h.of_eng_eq rfl ?_ ?_ ?_ ?_
  · simp [Owned.engineRefs]
  · have htr := h.tracks_release (.natives n.node)
      (n.blocks.map Resource.block ++ [.runtime c.eng.incarnation]) (n.blocks.map blockItem) rfl id
      (by simp) (by simp [blockItem])
    rw [itemsOf_add, itemsOf_blocks]
    exact htr.mono (below_mono (Nat.le_refl _) (Nat.le_refl _) (Nat.le_refl _) (Nat.le_refl _)
      (Nat.le_refl _))
  · show ((c.registry.erase n.node : List NativesNode) : Multiset NativesNode) = _
    rw [← Multiset.coe_erase, h.registry, nodesOf_cons, nodesOf_add, nodesOf_blocks, zero_add,
      Owned.nodes, Multiset.singleton_add, Multiset.erase_cons_head]
  · intro v hv
    rcases Multiset.mem_add.mp hv with hv | hv
    · obtain ⟨addr, haddr, rfl⟩ := mem_blocks.mp hv
      obtain ⟨⟨_, hm⟩, ⟨_, hf⟩, ⟨_, _, hc, hs⟩, hy⟩ := hok
      simp only [NativeEntry.blocks, List.mem_cons, List.not_mem_nil, or_false] at haddr
      rcases haddr with rfl | rfl | rfl | rfl | rfl
      exacts [⟨_, hm⟩, ⟨_, hf⟩, ⟨_, hs⟩, ⟨_, hc⟩, ⟨_, hy⟩]
    · exact valid_frame (h.valid v (Multiset.mem_cons_of_mem hv)) fun r _ => by cases r <;> trivial

/-- Dropping the fields of an unregistered entry frees its blocks. -/
theorem Owns.dropEntry {n : NativeEntry} (h : Owns c (blocks n.blocks + T)) :
    Owns (n.drop c) T := by
  simp only [NativeEntry.blocks, blocks_cons, blocks_nil, Multiset.cons_add, zero_add] at h
  exact h.free.free.free.free.free

/-! ### Linker states -/

/-- Entries in hand. -/
def entries (ns : List NativeEntry) : Multiset Owned := (ns.map Owned.entry : List Owned)

@[simp] theorem entries_cons (n : NativeEntry) (ns : List NativeEntry) :
    entries (n :: ns) = .entry n ::ₘ entries ns := rfl

theorem entries_append (ns ms : List NativeEntry) :
    entries (ns ++ ms) = entries ns + entries ms := by
  simp [entries]

theorem mem_entries {ns : List NativeEntry} {v : Owned} :
    v ∈ entries ns ↔ ∃ n ∈ ns, .entry n = v := by
  simp [entries]

/-- What a `LinkerState` owns. -/
def parts (s : LinkerState) : Multiset Owned :=
  .engine s.engine ::ₘ (entries s.entries + blocks s.buf.toList)

/-- Unregistering all entries leaves their blocks, by induction on the entries. -/
theorem Owns.unregisterAll (ns : List NativeEntry) (h : Owns c (entries ns + T)) :
    Owns (ns.foldl (fun c n => c.unregisterNatives n.moduleName n.symbol) c)
      (blocks (ns.flatMap NativeEntry.blocks) + T) := by
  induction ns generalizing c T with
  | nil => exact h
  | cons n ns ih =>
    rw [entries_cons, Multiset.cons_add] at h
    have h₁ := h.unregisterNatives
    rw [add_left_comm] at h₁
    have h₂ := ih h₁
    rw [← add_assoc, add_comm (blocks (List.flatMap _ _)), ← blocks_append] at h₂
    exact h₂

/-- Dropping all unregistered entries frees their blocks. -/
theorem Owns.dropEntries (ns : List NativeEntry)
    (h : Owns c (blocks (ns.flatMap NativeEntry.blocks) + T)) :
    Owns (ns.foldl NativeEntry.drop c) T := by
  induction ns generalizing c with
  | nil => simpa using h
  | cons n ns ih =>
    rw [List.flatMap_cons, blocks_append, add_assoc] at h
    exact ih h.dropEntry

/-- The drop of a `LinkerState` takes all its parts away. The entries are unregistered while
its engine still keeps the runtime alive. -/
theorem Owns.dropState {s : LinkerState} (h : Owns c (parts s + T)) (hidle : Idle T) :
    Owns (s.drop c) T := by
  have h₁ : Owns c (entries s.entries + (.engine s.engine ::ₘ (blocks s.buf.toList + T))) := by
    rwa [parts, Multiset.cons_add, add_assoc, ← Multiset.add_cons] at h
  have h₂ := h₁.unregisterAll
  rw [Multiset.add_cons] at h₂
  -- The engine may be the last one: without entries nothing relies on the runtime.
  have h₃ := (h₂.dropEngine ((hidle.add_blocks _).add_blocks _)).dropEntries
  unfold LinkerState.drop
  cases hbuf : s.buf with
  | none => simpa [hbuf] using h₃
  | some buf =>
    rw [hbuf] at h₃
    exact Owns.free (by simpa using h₃)

/-- `Vec::push` moves an entry into the state. A buffer that was full is replaced, and the
entries keep their blocks. -/
theorem Owns.pushEntry {s : LinkerState} {n : NativeEntry}
    (h : Owns c (.entry n ::ₘ (parts s + T))) :
    Owns (s.push c n).1 (parts (s.push c n).2 + T) := by
  -- What a state owns does not depend on its capacity.
  have hparts : ∀ buf cap, parts { s with buf := buf, cap := cap, entries := s.entries ++ [n] }
      = blocks buf.toList + (.engine s.engine ::ₘ (entries s.entries + {.entry n})) := by
    intro buf cap
    rw [parts, entries_append, add_comm (_ + _), ← Multiset.add_cons]
    rfl
  have hold : (.entry n ::ₘ (parts s + T) : Multiset Owned)
      = blocks s.buf.toList + (.engine s.engine ::ₘ (entries s.entries + {.entry n}) + T) := by
    simp only [parts, ← Multiset.singleton_add]
    abel
  rw [hold] at h
  unfold LinkerState.push
  split
  · have h₁ := h.alloc .entries
    rw [hparts, add_assoc, Option.toList_some, blocks_cons, blocks_nil, Multiset.cons_add, zero_add]
    cases hbuf : s.buf with
    | none =>
      rw [hbuf, Option.toList_none, blocks_nil, zero_add] at h₁
      exact h₁
    | some old =>
      -- The old buffer is freed after the move.
      rw [hbuf, Option.toList_some, blocks_cons, blocks_nil, Multiset.cons_add, zero_add,
        Multiset.cons_swap] at h₁
      exact h₁.free
  · rw [hparts s.buf s.cap, add_assoc]
    exact h

end Wamrx.Proofs
