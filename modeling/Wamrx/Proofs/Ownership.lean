import Mathlib.Algebra.Order.Group.Multiset
import Mathlib.Data.Multiset.Bind
import Wamrx.Api
import Wamrx.Proofs.EngineCounts

/-!
# `Wamrx.Proofs.Ownership`: who owns what

`Owned` lists the kinds of Rust values that own something: engines, pointers to a
`LinkerState`, modules, instances, native entries, and plain heap blocks. Each kind says which
engine pointers and which resources it owns.

`Owns c T` is the invariant of the shared state: the values in `T` own exactly what exists. No
more engine pointers are counted, nothing else was acquired and not released, nothing else is
registered, and every pointer and handle in a value reads what it should.

The rest of this file is the frame argument that every rule uses: `Local.not_dep` for the
resources that are released, and `valid_frame` for the values that are not touched.
-/

set_option autoImplicit false

namespace Wamrx.Proofs

open Support Support.Lifetime

/-- A Rust value that owns something. -/
inductive Owned where
  | engine (e : Engine)
  | state (ptr : Nat)
  | module (m : Module)
  | inst (i : Instance)
  | entry (n : NativeEntry)
  | block (addr : Nat)
deriving DecidableEq

/-- A block relies on nothing. -/
def blockItem (addr : Nat) : Item Resource := ⟨.block addr, []⟩

namespace Owned

/-- The engine pointers in a value. -/
def engineRefs : Owned → Multiset Nat
  | .engine e => {e.inner}
  | .module m => {m.engine.inner}
  | .inst i => {i.module.engine.inner}
  | .state _ | .entry _ | .block _ => 0

/-- The pointers to a `LinkerState` in a value. -/
def stateRefs : Owned → Multiset Nat
  | .state ptr => {ptr}
  | .inst i => {i.linkerState}
  | .engine _ | .module _ | .entry _ | .block _ => 0

/-- The registrations that a value is responsible for. -/
def nodes : Owned → Multiset NativesNode
  | .entry n => {n.node}
  | .engine _ | .state _ | .module _ | .inst _ | .block _ => 0

/-- The resources of a module, acquired in the incarnation `k`. -/
def moduleItems (k : Nat) (m : Module) : Multiset (Item Resource) :=
  {⟨.module m.raw, [.block m.bytes, .runtime k]⟩} + {blockItem m.bytes}

/-- The resources of a value, acquired in the incarnation `k`, in the order of their release. -/
def items (k : Nat) : Owned → Multiset (Item Resource)
  | .engine _ | .state _ => 0
  | .module m => moduleItems k m
  | .inst i =>
    {⟨.execEnv i.execEnv, [.moduleInst i.moduleInst, .runtime k]⟩} +
      ({⟨.moduleInst i.moduleInst, [.module i.module.raw, .runtime k]⟩} +
        moduleItems k i.module)
  | .entry n =>
    {⟨.natives n.node, n.blocks.map Resource.block ++ [.runtime k]⟩} +
      ((n.blocks.map blockItem : List (Item Resource)) : Multiset (Item Resource))
  | .block addr => {blockItem addr}

end Owned

/-- The blocks behind an entry hold what its symbol says. -/
structure EntryOk {F : Type} (c : Process F) (n : NativeEntry) : Prop where
  moduleName : ∃ text, c.heap.get? n.moduleName = some (.cstring text)
  field : ∃ text, c.heap.get? n.field = some (.cstring text)
  context : ∃ ty func, c.heap.get? n.context = some (.context ty func) ∧
    c.heap.get? n.signature = some (.cstring ty.signatureCString)
  symbol : c.heap.get? n.symbol = some (.symbols ⟨n.field, n.signature, n.context⟩)

section

variable {F : Type} {c c' : Process F} {T : Multiset Owned}

/-- The pointers and handles of a value read what they should. -/
def Owned.Valid (c : Process F) : Owned → Prop
  | .engine _ | .state _ => True
  | .module m => (∃ imports, c.modules.get? m.raw = some imports) ∧
      ∃ bs, c.heap.get? m.bytes = some (.bytes bs)
  | .inst i => c.execEnvs.get? i.execEnv = some i.moduleInst ∧
      c.moduleInsts.get? i.moduleInst = some i.module.raw ∧
      (∃ imports, c.modules.get? i.module.raw = some imports) ∧
      ∃ bs, c.heap.get? i.module.bytes = some (.bytes bs)
  | .entry n => EntryOk c n
  | .block addr => ∃ cell, c.heap.get? addr = some cell

/-- The running runtime, as a live resource. -/
def runtimeItems (c : Process F) : Multiset (Item Resource) :=
  if c.eng.initialized then {⟨c.runtime, []⟩} else 0

/-- Everything that was ever acquired. The array of a registration is a block. -/
def below (c : Process F) : Resource → Prop
  | .runtime k => k ≤ c.eng.incarnation
  | .block addr => addr < c.heap.next
  | .natives node => node.nativeSymbols < c.heap.next
  | .module handle => handle < c.modules.next
  | .moduleInst handle => handle < c.moduleInsts.next
  | .execEnv handle => handle < c.execEnvs.next

/-- The resources of the values. -/
def itemsOf (k : Nat) (T : Multiset Owned) : Multiset (Item Resource) := T.bind (Owned.items k)

/-- The engine pointers in the values. -/
def engineRefsOf (T : Multiset Owned) : Multiset Nat := T.bind Owned.engineRefs

/-- The registrations of the values. -/
def nodesOf (T : Multiset Owned) : Multiset NativesNode := T.bind Owned.nodes

/-- The values own exactly what exists. -/
structure Owns (c : Process F) (T : Multiset Owned) : Prop where
  engines : EngineCounts c.eng (engineRefsOf T) 0
  tracks : Tracks c.trace (runtimeItems c + itemsOf c.eng.incarnation T) (below c)
  registry : (c.registry : Multiset NativesNode) = nodesOf T
  valid : ∀ v ∈ T, v.Valid c

/-- The resources of one value more. -/
@[simp] theorem itemsOf_cons (k : Nat) (v : Owned) (T : Multiset Owned) :
    itemsOf k (v ::ₘ T) = v.items k + itemsOf k T := Multiset.cons_bind _ _ _

/-- The resources of two groups of values. -/
@[simp] theorem itemsOf_add (k : Nat) (S T : Multiset Owned) :
    itemsOf k (S + T) = itemsOf k S + itemsOf k T := Multiset.add_bind _ _ _

/-- The engine pointers of one value more. -/
@[simp] theorem engineRefsOf_cons (v : Owned) (T : Multiset Owned) :
    engineRefsOf (v ::ₘ T) = v.engineRefs + engineRefsOf T := Multiset.cons_bind _ _ _

/-- The engine pointers of two groups of values. -/
@[simp] theorem engineRefsOf_add (S T : Multiset Owned) :
    engineRefsOf (S + T) = engineRefsOf S + engineRefsOf T := Multiset.add_bind _ _ _

/-- The registered nodes of one value more. -/
@[simp] theorem nodesOf_cons (v : Owned) (T : Multiset Owned) :
    nodesOf (v ::ₘ T) = v.nodes + nodesOf T := Multiset.cons_bind _ _ _

/-- The registered nodes of two groups of values. -/
@[simp] theorem nodesOf_add (S T : Multiset Owned) :
    nodesOf (S + T) = nodesOf S + nodesOf T := Multiset.add_bind _ _ _

/-- Every engine pointer is that of some value. -/
theorem mem_engineRefsOf {T : Multiset Owned} {i : Nat} :
    i ∈ engineRefsOf T ↔ ∃ v ∈ T, i ∈ v.engineRefs := Multiset.mem_bind

/-- The items of a member are items of the whole. -/
theorem mem_itemsOf {k : Nat} {T : Multiset Owned} {i : Item Resource} :
    i ∈ itemsOf k T ↔ ∃ v ∈ T, i ∈ v.items k := Multiset.mem_bind

/-- At the start nothing exists, and nothing is owned. -/
theorem owns_init : Owns (Process.init : Process F) 0 :=
  ⟨EngineCounts.init, tracks_nil _, rfl, by simp⟩

/-! ### Resources rely on their group and on the runtime -/

/-- The roots that resources of different values have in common. -/
def IsRuntime : Resource → Prop
  | .runtime _ => True
  | .block _ | .natives _ | .module _ | .moduleInst _ | .execEnv _ => False

/-- A module relies on its own bytes, and on the runtime. -/
theorem local_moduleItems (k : Nat) (m : Module) : Local IsRuntime (Owned.moduleItems k m) := by
  simp [Local, Owned.moduleItems, blockItem, IsRuntime]

/-- Every value's resources rely on each other and on the runtime. -/
theorem local_items (k : Nat) (v : Owned) : Local IsRuntime (v.items k) := by
  cases v with
  | engine e => exact local_zero _
  | state ptr => exact local_zero _
  | module m => exact local_moduleItems k m
  | inst i => simp [Local, Owned.items, Owned.moduleItems, blockItem, IsRuntime]
  | entry n => simp [Local, Owned.items, NativeEntry.blocks, blockItem, IsRuntime]
  | block addr => simp [Local, Owned.items, blockItem]

/-- What values own relies on what the same value owns, and on the runtime. -/
theorem local_itemsOf (k : Nat) (T : Multiset Owned) : Local IsRuntime (itemsOf k T) := by
  induction T using Multiset.induction_on with
  | empty => exact local_zero _
  | cons v T ih =>
    rw [itemsOf_cons]
    exact (local_items k v).add ih

/-- The same, with the runtime itself. -/
theorem local_live (c : Process F) (k : Nat) (T : Multiset Owned) :
    Local IsRuntime (runtimeItems c + itemsOf k T) := by
  refine Local.add ?_ (local_itemsOf k T)
  unfold runtimeItems
  split
  · simp [Local]
  · exact local_zero _

/-! ### Frames -/

/-- The two states have the same contents at a resource. -/
def SameAt (c c' : Process F) : Resource → Prop
  | .block addr => c'.heap.get? addr = c.heap.get? addr
  | .module handle => c'.modules.get? handle = c.modules.get? handle
  | .moduleInst handle => c'.moduleInsts.get? handle = c.moduleInsts.get? handle
  | .execEnv handle => c'.execEnvs.get? handle = c.execEnvs.get? handle
  | .runtime _ | .natives _ => True

/-- The resources of a value. -/
def Owned.resources : Owned → List Resource
  | .engine _ | .state _ => []
  | .module m => [.module m.raw, .block m.bytes]
  | .inst i => [.execEnv i.execEnv, .moduleInst i.moduleInst, .module i.module.raw,
      .block i.module.bytes]
  | .entry n => .natives n.node :: n.blocks.map .block
  | .block addr => [.block addr]

/-- The resources of a value do not depend on the incarnation. -/
theorem map_res_items (k : Nat) (v : Owned) :
    (v.items k).map Item.res = (v.resources : Multiset Resource) := by
  cases v with
  | entry n =>
    simp only [Owned.items, Owned.resources, Multiset.singleton_add, Multiset.cons_coe]
    rfl
  | engine e => rfl
  | state ptr => rfl
  | module m => rfl
  | inst i => rfl
  | block addr => rfl

/-- The resources that values own. -/
theorem mem_res_itemsOf {k : Nat} {T : Multiset Owned} {r : Resource} :
    r ∈ (itemsOf k T).map Item.res ↔ ∃ v ∈ T, r ∈ v.resources := by
  -- Value by value, where `resources` lists what `items` acquired.
  have hmem : ∀ v : Owned, r ∈ v.resources ↔ ∃ i ∈ v.items k, i.res = r := by
    intro v
    rw [← Multiset.mem_coe, ← map_res_items k, Multiset.mem_map]
  simp only [Multiset.mem_map, mem_itemsOf, hmem]
  constructor
  · rintro ⟨i, ⟨v, hv, hi⟩, hres⟩
    exact ⟨v, hv, i, hi, hres⟩
  · rintro ⟨v, hv, i, hi, hres⟩
    exact ⟨i, ⟨v, hv, hi⟩, hres⟩

/-- A value whose resources have the same contents stays valid. -/
theorem valid_frame {v : Owned} (h : v.Valid c) (hsame : ∀ r ∈ v.resources, SameAt c c' r) :
    v.Valid c' := by
  cases v with
  | engine e => trivial
  | state ptr => trivial
  | module m =>
    simp only [Owned.resources, List.forall_mem_cons, SameAt] at hsame
    obtain ⟨hraw, hbytes, -⟩ := hsame
    simpa only [Owned.Valid, hraw, hbytes] using h
  | inst i =>
    simp only [Owned.resources, List.forall_mem_cons, SameAt] at hsame
    obtain ⟨henv, hinst, hraw, hbytes, -⟩ := hsame
    simpa only [Owned.Valid, henv, hinst, hraw, hbytes] using h
  | entry n =>
    simp only [Owned.resources, NativeEntry.blocks, List.map_cons, List.forall_mem_cons,
      SameAt] at hsame
    obtain ⟨-, h₁, h₂, h₃, h₄, h₅, -⟩ := hsame
    obtain ⟨hm, hf, hc, hs⟩ : EntryOk c n := h
    exact ⟨by rwa [h₁], by rwa [h₂], by rwa [h₃, h₄], by rwa [h₅]⟩
  | block addr =>
    simp only [Owned.resources, List.forall_mem_cons, SameAt] at hsame
    simpa only [Owned.Valid, hsame.1] using h

/-- What a value owns lies below the frontiers. -/
theorem Owns.below_of_has (h : Owns c T) {v : Owned} (hv : v ∈ T) {r : Resource}
    (hr : r ∈ v.resources) : below c r := by
  refine h.tracks.below_of_mem ?_
  rw [Multiset.map_add]
  exact Multiset.mem_add.mpr (Or.inr (mem_res_itemsOf.mpr ⟨v, hv, hr⟩))

/-- Two values own nothing in common. -/
theorem Owns.disjoint {v : Owned} (h : Owns c (v ::ₘ T)) {u : Owned} (hu : u ∈ T) {r : Resource}
    (hv : r ∈ v.resources) : r ∉ u.resources := by
  intro hur
  have hnd := h.tracks.nodup
  -- A resource is live once, so it cannot be on both sides of the sum.
  rw [itemsOf_cons, Multiset.map_add, Multiset.map_add, Multiset.nodup_add] at hnd
  have hnd := Multiset.nodup_add.mp hnd.2.1
  rw [← Multiset.mem_coe, ← map_res_items c.eng.incarnation] at hv
  exact Multiset.disjoint_left.mp hnd.2.2 hv (mem_res_itemsOf.mpr ⟨u, hu, hur⟩)

/-- Values that keep their resources stay valid. -/
theorem Owns.valid_of_same (h : Owns c T) (hsame : ∀ r, below c r → SameAt c c' r) :
    ∀ v ∈ T, v.Valid c' :=
  fun v hv => valid_frame (h.valid v hv) fun _ hr => hsame _ (h.below_of_has hv hr)

/-- When only resources of one value change, the others stay valid. -/
theorem Owns.valid_of_same_except {v : Owned} (h : Owns c (v ::ₘ T))
    (hsame : ∀ r, r ∉ v.resources → SameAt c c' r) : ∀ u ∈ T, u.Valid c' :=
  fun u hu => valid_frame (h.valid u (Multiset.mem_cons_of_mem hu)) fun _ hr =>
    hsame _ fun hv => h.disjoint hu hv hr

end

end Wamrx.Proofs
