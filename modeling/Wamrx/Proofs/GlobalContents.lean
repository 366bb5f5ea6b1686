import Wamrx.SharedGlobals
import Wamrx.Proofs.Globals

/-!
# `Wamrx.Proofs.GlobalContents`: the module and the host see the same globals

* `slotsOf_store`: a store of one global, in the block of all of them, sets one slot.
* `sees_step`: every access of either side does to the block what it should do to the slots, and
  gets the same answer.
* `globals_shared`: so does every run of accesses. Types and constants stay (`keepsTypes_step`).
-/

set_option autoImplicit false

namespace Wamrx.Proofs

open Support Support.Bytes

variable {exports : List GlobalExport} {globals : List GlobalInst} {block block' : List UInt8}
  {k : Nat} {g : Global}

/-- What the block holds for a global. -/
def slotOf (block : List UInt8) (raw : GlobalInst) : Option GlobalSlot :=
  raw.handle?.bind fun g => (g.get block).map fun v => ⟨g.ty, v⟩

/-- What the block holds. -/
def slotsOf (globals : List GlobalInst) (block : List UInt8) : List (Option GlobalSlot) :=
  globals.map (slotOf block)

/-! ### Globals by their numbers -/

/-- Global number `k`, if it is numeric. -/
def numbered (globals : List GlobalInst) (k : Nat) : Option Global :=
  globals[k]?.bind GlobalInst.handle?

theorem numbered_eq_some : numbered globals k = some g ↔
    ∃ raw, globals[k]? = some raw ∧ ValType.fromValkind raw.kind = some g.content ∧
      g.data = raw.data ∧ g.mutability = if raw.isMutable then .mutable else .const := by
  rw [numbered, Option.bind_eq_some_iff]
  constructor
  · rintro ⟨raw, hraw, hg⟩
    obtain ⟨content, hcontent, rfl⟩ := Option.map_eq_some_iff.mp hg
    exact ⟨raw, hraw, hcontent, rfl, rfl⟩
  · rintro ⟨raw, hraw, hcontent, hdata, hmut⟩
    refine ⟨raw, hraw, ?_⟩
    rw [GlobalInst.handle?, hcontent, Option.map_some, ← hdata, ← hmut]

/-- A numeric global lies in the block. -/
theorem numbered_inBlock {n : Nat} (hlayout : GlobalLayout globals n)
    (hg : numbered globals k = some g) : g.data + g.content.width ≤ n := by
  obtain ⟨raw, hraw, hcontent, hdata, -⟩ := numbered_eq_some.mp hg
  rw [hdata, ← width_eq hcontent]
  exact hlayout.inBlock raw (List.mem_of_getElem? hraw)

/-- Two numeric globals do not overlap. -/
theorem numbered_disjoint {n : Nat} (hlayout : GlobalLayout globals n) {j : Nat} {h : Global}
    (hg : numbered globals k = some g) (hh : numbered globals j = some h) (hne : j ≠ k) :
    g.data + g.content.width ≤ h.data ∨ h.data + h.content.width ≤ g.data := by
  obtain ⟨raw, hraw, hcontent, hdata, -⟩ := numbered_eq_some.mp hg
  obtain ⟨raw', hraw', hcontent', hdata', -⟩ := numbered_eq_some.mp hh
  obtain ⟨hlt, rfl⟩ := List.getElem?_eq_some_iff.mp hraw
  obtain ⟨hlt', rfl⟩ := List.getElem?_eq_some_iff.mp hraw'
  rw [hdata, hdata', ← width_eq hcontent, ← width_eq hcontent']
  have hpair := List.pairwise_iff_getElem.mp hlayout.disjoint
  rcases Nat.lt_or_gt_of_ne hne with hlt'' | hlt''
  · exact (hpair j k hlt' hlt hlt'').symm
  · exact hpair k j hlt hlt' hlt''

/-- The slot of a numeric global. -/
theorem slotsOf_numbered (hlayout : GlobalLayout globals block.length)
    (hg : numbered globals k = some g) :
    ∃ v, g.get block = some v ∧ v.ty = g.content ∧
      (slotsOf globals block)[k]? = some (some ⟨g.ty, v⟩) := by
  obtain ⟨v, hv, hty⟩ := exists_get (numbered_inBlock hlayout hg)
  obtain ⟨raw, hraw, hhandle⟩ := Option.bind_eq_some_iff.mp hg
  refine ⟨v, hv, hty, ?_⟩
  rw [slotsOf, List.getElem?_map, hraw, Option.map_some, slotOf, hhandle, Option.bind_some, hv,
    Option.map_some]

theorem slotsOf_not_numbered (hg : numbered globals k = none) :
    ((slotsOf globals block)[k]?).join = none := by
  rw [slotsOf, List.getElem?_map]
  cases hraw : globals[k]? with
  | none => rfl
  | some raw =>
    rw [numbered, hraw, Option.bind_some] at hg
    rw [Option.map_some, slotOf, hg]
    rfl

/-! ### Stores -/

/-- A store of a global sets its slot, and leaves all others as they are. -/
theorem slotsOf_store (hlayout : GlobalLayout globals block.length)
    (hg : numbered globals k = some g) {v : Val} (hty : v.ty = g.content)
    (hs : storeVal v block g.data = some block') :
    slotsOf globals block' = (slotsOf globals block).set k (some ⟨g.ty, v⟩) := by
  refine List.ext_getElem? fun j => ?_
  have hlayout' : GlobalLayout globals block'.length := by rwa [length_storeVal hs]
  by_cases hjk : k = j
  · subst hjk
    obtain ⟨v', hv', -, hslot⟩ := slotsOf_numbered hlayout' hg
    obtain ⟨_, -, -, hold⟩ := slotsOf_numbered hlayout hg
    rw [get_storeVal_same hty hs] at hv'
    cases hv'
    rw [hslot, List.getElem?_set_self (List.getElem?_eq_some_iff.mp hold).1]
  · rw [List.getElem?_set_ne hjk, slotsOf, slotsOf, List.getElem?_map, List.getElem?_map]
    cases hraw : globals[j]? with
    | none => rfl
    | some raw =>
      rw [Option.map_some, Option.map_some, slotOf, slotOf]
      cases hhandle : raw.handle? with
      | none => rfl
      | some h =>
        have hh : numbered globals j = some h := by rw [numbered, hraw, Option.bind_some, hhandle]
        rw [Option.bind_some, Option.bind_some, get_storeVal_disjoint hs
          (hty.symm ▸ numbered_disjoint hlayout hg hh fun heq => hjk heq.symm)]

/-- The interpreter stores what `Global::set` stores. -/
theorem store_eq (v : Val) (block : List UInt8) (off : Nat) :
    v.store block off = storeVal v block off := by cases v <;> rfl

/-! ### Lookups by name -/

/-- The two sides find the same global under a name, or fail with the same error. -/
theorem find_cases (hlayout : GlobalLayout globals block.length) (answers : List GlobalAnswer)
    (name : List UInt8) :
    (∃ e, getGlobal exports globals name = .error e ∧
      GlobalSlots.find exports ⟨slotsOf globals block, answers⟩ name = .error e) ∨
    ∃ k g v, getGlobal exports globals name = .ok g ∧ numbered globals k = some g ∧
      g.get block = some v ∧
      GlobalSlots.find exports ⟨slotsOf globals block, answers⟩ name = .ok (k, ⟨g.ty, v⟩) := by
  unfold getGlobal GlobalSlots.find
  by_cases hnul : 0 ∈ name
  · exact Or.inl ⟨_, if_pos hnul, if_pos hnul⟩
  rw [if_neg hnul, if_neg hnul]
  cases hk : exportedGlobal exports name with
  | none => exact Or.inl ⟨_, rfl, rfl⟩
  | some k =>
    simp only [Option.bind_some]
    cases hraw : globals[k]? with
    | none =>
      refine Or.inl ⟨_, rfl, ?_⟩
      simp only [slotsOf, List.getElem?_map, hraw, Option.map_none]
    | some raw =>
      cases hcontent : ValType.fromValkind raw.kind with
      | none =>
        refine Or.inl ⟨.unsupportedType, by simp only [hcontent], ?_⟩
        simp only [slotsOf, List.getElem?_map, hraw, Option.map_some, slotOf, GlobalInst.handle?,
          hcontent, Option.map_none, Option.bind_none]
      | some content =>
        have hg : numbered globals k
            = some ⟨content, if raw.isMutable then .mutable else .const, raw.data⟩ := by
          simp [numbered, hraw, GlobalInst.handle?, hcontent]
        obtain ⟨v, hv, -, hslot⟩ := slotsOf_numbered hlayout hg
        refine Or.inr ⟨k, _, v, by simp only [hcontent], hg, hv, ?_⟩
        simp only [hslot, Option.map_some]

/-! ### Runs -/

/-- The block holds the slots, and both sides have got the same answers. -/
structure SeesSlots (globals : List GlobalInst) (s : GlobalState) (a : GlobalSlots) : Prop where
  slots : slotsOf globals s.block = a.slots
  answers : s.answers = a.answers

/-- The relation of a run: the block keeps the size that the layout is about. -/
def Sees (globals : List GlobalInst) (n : Nat) (s : GlobalState) (a : GlobalSlots) : Prop :=
  s.block.length = n ∧ SeesSlots globals s a

/-- A `global.set` of the module. -/
theorem sees_moduleSet {n : Nat} (hlayout : GlobalLayout globals n) {s : GlobalState}
    {a : GlobalSlots} (h : Sees globals n s a) (k : Nat) (v : Val) :
    Option.Rel (Sees globals n) (s.step exports globals (.moduleSet k v))
      (a.step exports (.moduleSet k v)) := by
  obtain ⟨rfl, hslots, hanswers⟩ := h
  show Option.Rel _ ((numbered globals k).bind _) ((a.slots[k]?).join.bind _)
  rw [← hslots]
  cases hg : numbered globals k with
  | none =>
    rw [slotsOf_not_numbered hg]
    exact .none
  | some g =>
    obtain ⟨old, -, -, hslot⟩ := slotsOf_numbered hlayout hg
    rw [hslot]
    simp only [Option.join_some, Option.bind_some, Global.ty]
    split
    · rename_i hvalid
      obtain ⟨block', hstore⟩ :=
        exists_storeVal (hvalid.2.symm ▸ numbered_inBlock hlayout hg)
      rw [store_eq, hstore, Option.map_some]
      exact .some ⟨length_storeVal hstore, slotsOf_store hlayout hg hvalid.2 hstore, hanswers⟩
    · exact .none

/-- A `Global::set` of the host. -/
theorem sees_hostSet {n : Nat} (hlayout : GlobalLayout globals n) {s : GlobalState}
    {a : GlobalSlots} (h : Sees globals n s a) (name : List UInt8) (v : Val) :
    Option.Rel (Sees globals n) (s.step exports globals (.hostSet name v))
      (a.step exports (.hostSet name v)) := by
  obtain ⟨rfl, hslots, hanswers⟩ := h
  obtain ⟨slots, answers⟩ := a
  obtain rfl : slotsOf globals s.block = slots := hslots
  obtain rfl : s.answers = answers := hanswers
  simp only [GlobalState.step, GlobalSlots.step]
  rcases find_cases hlayout s.answers name with
    ⟨e, hget, hfind⟩ | ⟨k, g, old, hget, hg, -, hfind⟩
  · rw [hget, hfind]
    exact .some ⟨rfl, rfl, rfl⟩
  · rw [hget, hfind]
    show Option.Rel _ ((g.set s.block v).map _)
      (if g.mutability = .const then _ else if v.ty ≠ g.content then _ else _)
    rcases set_cases g s.block v with ⟨hm, hset⟩ | ⟨hm, hty, hset⟩ | ⟨hm, hty, hset⟩
    · rw [hset, if_pos hm]
      exact .some ⟨rfl, rfl, rfl⟩
    · rw [hset, if_neg (by simp [hm]), if_pos hty]
      exact .some ⟨rfl, rfl, rfl⟩
    · obtain ⟨block', hstore⟩ := exists_storeVal (hty.symm ▸ numbered_inBlock hlayout hg)
      rw [hset, hstore, if_neg (by simp [hm]), if_neg (not_not.mpr hty)]
      exact .some ⟨length_storeVal hstore, slotsOf_store hlayout hg hty hstore, rfl⟩

theorem sees_step {n : Nat} (hlayout : GlobalLayout globals n) {s : GlobalState}
    {a : GlobalSlots} (h : Sees globals n s a) (op : GlobalAccess) :
    Option.Rel (Sees globals n) (s.step exports globals op) (a.step exports op) := by
  cases op with
  | hostSet name v => exact sees_hostSet hlayout h name v
  | moduleSet k v => exact sees_moduleSet hlayout h k v
  | hostGet name =>
    obtain ⟨rfl, hslots, hanswers⟩ := h
    obtain ⟨slots, answers⟩ := a
    obtain rfl : slotsOf globals s.block = slots := hslots
    obtain rfl : s.answers = answers := hanswers
    simp only [GlobalState.step, GlobalSlots.step]
    rcases find_cases hlayout s.answers name with
      ⟨e, hget, hfind⟩ | ⟨k, g, v, hget, -, hv, hfind⟩
    · rw [hget, hfind]
      exact .some ⟨rfl, rfl, rfl⟩
    · rw [hget, hfind]
      simp only [hv]
      exact .some ⟨rfl, rfl, rfl⟩
  | moduleGet k =>
    obtain ⟨rfl, hslots, hanswers⟩ := h
    obtain ⟨slots, answers⟩ := a
    obtain rfl : slotsOf globals s.block = slots := hslots
    obtain rfl : s.answers = answers := hanswers
    show Option.Rel _ ((numbered globals k).bind _) (((slotsOf globals s.block)[k]?).join.map _)
    cases hg : numbered globals k with
    | none =>
      rw [slotsOf_not_numbered hg]
      exact .none
    | some g =>
      obtain ⟨v, hv, -, hslot⟩ := slotsOf_numbered hlayout hg
      rw [hslot, Option.bind_some, hv]
      exact .some ⟨rfl, rfl, rfl⟩

/-! ### What never changes -/

/-- The same globals with the same types, and the constants with the same values. -/
def KeepsTypes (slots slots' : List (Option GlobalSlot)) : Prop :=
  ∀ (k : Nat) (slot' : GlobalSlot), slots'[k]? = some (some slot') →
    ∃ slot, slots[k]? = some (some slot) ∧ slot'.ty = slot.ty ∧
      (slot.ty.mutability = .const → slot' = slot)

theorem KeepsTypes.set {slots slots' : List (Option GlobalSlot)} (h : KeepsTypes slots slots')
    {k : Nat} {slot : GlobalSlot} (hk : slots'[k]? = some (some slot))
    (hmut : slot.ty.mutability ≠ .const) (v : Val) :
    KeepsTypes slots (slots'.set k (some ⟨slot.ty, v⟩)) := by
  intro j slot' hj
  by_cases hkj : k = j
  · subst hkj
    rw [List.getElem?_set_self (List.getElem?_eq_some_iff.mp hk).1] at hj
    cases hj
    obtain ⟨first, hfirst, hty, -⟩ := h k slot hk
    exact ⟨first, hfirst, hty, fun hconst => absurd (hty ▸ hconst) hmut⟩
  · rw [List.getElem?_set_ne hkj] at hj
    exact h j slot' hj

/-- What was found under a name is the slot of that number. -/
theorem find_slot {a : GlobalSlots} {name : List UInt8} {k : Nat} {slot : GlobalSlot}
    (h : a.find exports name = .ok (k, slot)) : a.slots[k]? = some (some slot) := by
  unfold GlobalSlots.find at h
  split at h
  · cases h
  · split at h
    · cases h
    · cases h
    · rename_i hfound
      cases h
      obtain ⟨_, -, hmap⟩ := Option.bind_eq_some_iff.mp hfound
      obtain ⟨_, hslot, heq⟩ := Option.map_eq_some_iff.mp hmap
      cases heq
      exact hslot

theorem keepsTypes_step {slots : List (Option GlobalSlot)} (a : GlobalSlots) (op : GlobalAccess)
    (a' : GlobalSlots) (h : KeepsTypes slots a.slots) (hs : a.step exports op = some a') :
    KeepsTypes slots a'.slots := by
  cases op with
  | hostGet name =>
    simp only [GlobalSlots.step] at hs
    split at hs <;> cases hs <;> exact h
  | moduleGet k =>
    obtain ⟨_, -, rfl⟩ := Option.map_eq_some_iff.mp hs
    exact h
  | hostSet name v =>
    simp only [GlobalSlots.step] at hs
    split at hs
    · cases hs
      exact h
    · rename_i hfind
      split at hs
      · cases hs
        exact h
      · rename_i hmut
        split at hs <;> cases hs
        · exact h
        · exact h.set (find_slot hfind) hmut v
  | moduleSet k v =>
    obtain ⟨slot, hslot, hs⟩ := Option.bind_eq_some_iff.mp hs
    split at hs
    · rename_i hvalid
      cases hs
      exact h.set (Option.join_eq_some_iff.mp hslot) (by rw [hvalid.1]; nofun) v
    · cases hs

/-- For every instance whose globals lie in disjoint ranges of the block, and for every run of
accesses of the module and the host in any order: the packed bytes behave as one typed value for
each global. Both sides see each other's writes at once, bit for bit and through every name of a
global, and the host gets the same errors for the same accesses. A global keeps its type, and a
constant its value. -/
theorem globals_shared (exports : List GlobalExport) (globals : List GlobalInst)
    (block : List UInt8) (hlayout : GlobalLayout globals block.length)
    (ops : List GlobalAccess) :
    Option.Rel (SeesSlots globals) (run (GlobalState.step exports globals) ⟨block, []⟩ ops)
        (run (GlobalSlots.step exports) ⟨slotsOf globals block, []⟩ ops) ∧
      ∀ a, run (GlobalSlots.step exports) ⟨slotsOf globals block, []⟩ ops = some a →
        KeepsTypes (slotsOf globals block) a.slots := by
  constructor
  · exact optionRel_imp (fun _ _ h => h.2)
      (run_rel (Sees globals block.length) (fun _ _ op h => sees_step hlayout h op)
        ⟨rfl, rfl, rfl⟩ ops)
  · intro a ha
    exact run_inv (fun a : GlobalSlots => KeepsTypes (slotsOf globals block) a.slots)
      keepsTypes_step (fun k slot hk => ⟨slot, hk, rfl, fun _ => rfl⟩) ha

/-- The module sets an `i64` that the host reads through one name and sets through the other, and
the host tries to set a constant. -/
def sharedAccesses : List GlobalAccess :=
  [.moduleSet 1 (.i64 0x100000002), .hostGet ['b'.toUInt8], .hostSet ['a'.toUInt8] (.i64 7),
    .moduleGet 1, .hostSet ['c'.toUInt8] (.i32 9)]

theorem globals_shared_packed :
    Option.Rel (SeesSlots packedGlobals)
      (run (GlobalState.step packedExports packedGlobals) ⟨List.replicate 16 0, []⟩ sharedAccesses)
      (some ⟨[some ⟨⟨.i32, .mutable⟩, .i32 0⟩, some ⟨⟨.i64, .mutable⟩, .i64 7⟩,
          some ⟨⟨.i32, .const⟩, .i32 0⟩],
        [.value (.i64 0x100000002), .result (.ok ()), .value (.i64 7),
          .result (.error .globalImmutable)]⟩) := by
  have hshared := (globals_shared packedExports packedGlobals (List.replicate 16 0)
    ⟨by decide, by decide⟩ sharedAccesses).1
  rwa [show run (GlobalSlots.step packedExports)
    ⟨slotsOf packedGlobals (List.replicate 16 0), []⟩ sharedAccesses = some _ from rfl] at hshared

end Wamrx.Proofs
