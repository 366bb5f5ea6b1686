import Wamrx.Global
import Wamrx.Support.Run

/-!
# `Wamrx.Proofs.Globals`: globals are independent typed cells

All globals of an instance share one block of bytes, at four widths. `set_cases` lists what a `set`
does, and from it `get_storeVal_same` and `get_storeVal_disjoint` say what a `get` sees afterwards.

`globals_are_cells`: after every sequence of calls through any handles, each global holds the value
that was last set through a handle of it.
-/

set_option autoImplicit false

namespace Wamrx.Proofs

open Support Support.Bytes

variable {g h : Global} {block block' : List UInt8}

/-! ### One call -/

/-- A `get` in the block returns a value of the content type. -/
theorem exists_get (hg : g.data + g.content.width ≤ block.length) :
    ∃ v, g.get block = some v ∧ v.ty = g.content := by
  unfold Global.get
  cases hc : g.content <;> rw [hc] at hg
  case i32 | f32 =>
    have ⟨v, hv⟩ : ∃ v, load? 4 block g.data = some v := exists_load? hg
    exact ⟨_, congrArg (Option.map _) hv, rfl⟩
  case i64 | f64 =>
    have ⟨v, hv⟩ : ∃ v, load? 8 block g.data = some v := exists_load? hg
    exact ⟨_, congrArg (Option.map _) hv, rfl⟩

/-- A store of the value at its own width. -/
def storeVal (v : Val) (block : List UInt8) (off : Nat) : Option (List UInt8) :=
  match v with
  | .i32 v => store? 4 block off v
  | .i64 v => store? 8 block off v
  | .f32 v => store? 4 block off v
  | .f64 v => store? 8 block off v

/-- The outcomes of `Global::set`. -/
theorem set_cases (g : Global) (block : List UInt8) (v : Val) :
    (g.mutability = .const ∧ g.set block v = some (.error .globalImmutable, block)) ∨
    (g.mutability = .mutable ∧ v.ty ≠ g.content ∧
      g.set block v = some (.error (.typeMismatch g.content v.ty), block)) ∨
    (g.mutability = .mutable ∧ v.ty = g.content ∧
      g.set block v = (storeVal v block g.data).map fun block => (.ok (), block)) := by
  unfold Global.set
  cases hm : g.mutability with
  | const => exact Or.inl ⟨rfl, rfl⟩
  | mutable =>
    by_cases hty : v.ty = g.content
    · refine Or.inr (Or.inr ⟨rfl, hty, ?_⟩)
      rw [if_neg (by simp), if_neg (by simp [hty])]
      cases v <;> rfl
    · refine Or.inr (Or.inl ⟨rfl, hty, ?_⟩)
      rw [if_neg (by simp), if_pos hty]

theorem exists_storeVal {v : Val} {off : Nat} (hv : off + v.ty.width ≤ block.length) :
    ∃ block', storeVal v block off = some block' := by
  cases v <;> exact exists_store? hv _

theorem length_storeVal {v : Val} {off : Nat} (hs : storeVal v block off = some block') :
    block'.length = block.length := by
  cases v <;> exact length_store? hs

/-- A store changes no byte outside the range of the value. -/
theorem getElem?_storeVal_outside {v : Val} {off : Nat} (hs : storeVal v block off = some block')
    {i : Nat} (hi : i < off ∨ off + v.ty.width ≤ i) : block'[i]? = block[i]? := by
  cases v <;> exact getElem?_store?_outside hs hi

/-- A value that was stored is read back, bit for bit. -/
theorem get_storeVal_same {v : Val} (hty : v.ty = g.content)
    (hs : storeVal v block g.data = some block') : g.get block' = some v := by
  unfold Global.get
  rw [← hty]
  cases v <;> exact congrArg (Option.map _) (load?_store?_same hs)

/-- A store leaves a disjoint global alone. -/
theorem get_storeVal_disjoint {v : Val} {off : Nat} (hs : storeVal v block off = some block')
    (hdisj : off + v.ty.width ≤ g.data ∨ g.data + g.content.width ≤ off) :
    g.get block' = g.get block := by
  unfold Global.get
  cases hc : g.content <;> rw [hc] at hdisj
  all_goals cases v <;> exact congrArg (Option.map _) (load?_store?_disjoint hs hdisj)

/-! ### Handles -/

variable {exports : List GlobalExport} {globals : List GlobalInst} {name : List UInt8}

/-- A handle has the type and the place that WAMR reports for the global. -/
theorem getGlobal_eq_ok (hg : getGlobal exports globals name = .ok g) :
    ∃ k raw, exportedGlobal exports name = some k ∧ globals[k]? = some raw ∧
      ValType.fromValkind raw.kind = some g.content ∧ g.data = raw.data ∧
      g.mutability = if raw.isMutable then .mutable else .const := by
  unfold getGlobal at hg
  split at hg
  · cases hg
  cases hraw : (exportedGlobal exports name).bind (globals[·]?) with
  | none =>
    rw [hraw] at hg
    cases hg
  | some raw =>
    rw [hraw] at hg
    obtain ⟨k, hk, hget⟩ := Option.bind_eq_some_iff.mp hraw
    cases hkind : ValType.fromValkind raw.kind with
    | none => simp [hkind] at hg
    | some content =>
      simp only [hkind] at hg
      cases hg
      exact ⟨k, raw, hk, hget, hkind, rfl, rfl⟩

/-- A numeric global takes the bytes of its content type. -/
theorem width_eq {raw : GlobalInst} {content : ValType}
    (h : ValType.fromValkind raw.kind = some content) : raw.width = content.width := by
  rw [GlobalInst.width, h]
  rfl

/-- Two names of one global give equal handles. -/
theorem handle_unique {name' : List UInt8} {k : Nat}
    (hg : getGlobal exports globals name = .ok g) (hk : exportedGlobal exports name = some k)
    (hh : getGlobal exports globals name' = .ok h)
    (hk' : exportedGlobal exports name' = some k) : h = g := by
  obtain ⟨i, raw, hi, hraw, hcontent, hdata, hmut⟩ := getGlobal_eq_ok hg
  obtain ⟨i', raw', hi', hraw', hcontent', hdata', hmut'⟩ := getGlobal_eq_ok hh
  cases hk.symm.trans hi
  cases hk'.symm.trans hi'
  cases hraw.symm.trans hraw'
  cases g
  cases h
  cases hcontent.symm.trans hcontent'
  simp_all

/-- A handle points into the block. -/
theorem handle_inBlock {n : Nat} (hlayout : GlobalLayout globals n)
    (hg : getGlobal exports globals name = .ok g) : g.data + g.content.width ≤ n := by
  obtain ⟨k, raw, -, hraw, hcontent, hdata, -⟩ := getGlobal_eq_ok hg
  rw [hdata, ← width_eq hcontent]
  exact hlayout.inBlock raw (List.mem_of_getElem? hraw)

/-- Handles of different globals point to disjoint ranges. -/
theorem handle_disjoint {n : Nat} {name' : List UInt8} {j k : Nat}
    (hlayout : GlobalLayout globals n)
    (hg : getGlobal exports globals name = .ok g) (hk : exportedGlobal exports name = some k)
    (hh : getGlobal exports globals name' = .ok h) (hj : exportedGlobal exports name' = some j)
    (hne : j ≠ k) :
    h.data + h.content.width ≤ g.data ∨ g.data + g.content.width ≤ h.data := by
  obtain ⟨i, raw, hi, hraw, hcontent, hdata, -⟩ := getGlobal_eq_ok hg
  obtain ⟨i', raw', hi', hraw', hcontent', hdata', -⟩ := getGlobal_eq_ok hh
  cases hk.symm.trans hi
  cases hj.symm.trans hi'
  obtain ⟨hlt, rfl⟩ := List.getElem?_eq_some_iff.mp hraw
  obtain ⟨hlt', rfl⟩ := List.getElem?_eq_some_iff.mp hraw'
  rw [hdata, hdata', ← width_eq hcontent, ← width_eq hcontent']
  have hpair := List.pairwise_iff_getElem.mp hlayout.disjoint
  -- The layout speaks about the two globals in the order of the list.
  rcases Nat.lt_or_gt_of_ne hne with hlt'' | hlt''
  · exact hpair j k hlt' hlt hlt''
  · exact (hpair k j hlt hlt' hlt'').symm

/-! ### Sequences of calls -/

/-- What a call sets global number `k` to, if it is a `set` of it that succeeds. -/
def setsGlobal (exports : List GlobalExport) (k : Nat) (op : GlobalOp) : Option Val :=
  match op.action with
  | .get => none
  | .set newVal =>
    if exportedGlobal exports op.name = some k ∧ op.handle.mutability = .mutable ∧
      newVal.ty = op.handle.content then some newVal else none

/-- The call is made on a handle that `Instance::get_global` returned. -/
def OnHandle (exports : List GlobalExport) (globals : List GlobalInst) (op : GlobalOp) :
    Prop := getGlobal exports globals op.name = .ok op.handle

/-- What one call leaves: a block of the same size, in which every global has the value that the
call set it to, or the value it had. -/
theorem globalStep_spec (hlayout : GlobalLayout globals block.length) {op : GlobalOp}
    (hop : OnHandle exports globals op) :
    ∃ block', globalStep block op = some block' ∧ block'.length = block.length ∧
      ∀ name k g, exportedGlobal exports name = some k →
        getGlobal exports globals name = .ok g →
          g.get block' = ((setsGlobal exports k op).map some).getD (g.get block) := by
  have hin := handle_inBlock hlayout hop
  cases haction : op.action with
  | get =>
    obtain ⟨v, hv, -⟩ := exists_get hin
    refine ⟨block, ?_, rfl, fun _ _ _ _ _ => ?_⟩
    · simp only [globalStep, haction, hv, Option.map_some]
    · simp only [setsGlobal, haction, Option.map_none, Option.getD_none]
  | set newVal =>
    have hstep : globalStep block op = (op.handle.set block newVal).map Prod.snd := by
      simp only [globalStep, haction]
    rw [hstep]
    simp only [setsGlobal, haction]
    rcases set_cases op.handle block newVal with
      ⟨hm, hset⟩ | ⟨-, hty, hset⟩ | ⟨hm, hty, hset⟩
    · exact ⟨block, by rw [hset]; rfl, rfl, fun _ _ _ _ _ => by simp [hm]⟩
    · exact ⟨block, by rw [hset]; rfl, rfl, fun _ _ _ _ _ => by simp [hty]⟩
    · obtain ⟨block', hstore⟩ := exists_storeVal (hty.symm ▸ hin)
      refine ⟨block', by rw [hset, hstore]; rfl, length_storeVal hstore, ?_⟩
      intro name k g hk hg
      by_cases hop' : exportedGlobal exports op.name = some k
      · have heq : op.handle = g := handle_unique hg hk hop hop'
        simp only [hop', hm, hty, and_self, if_true, Option.map_some, Option.getD_some]
        exact get_storeVal_same (hty.trans (congrArg Global.content heq)) (heq ▸ hstore)
      · obtain ⟨j, -, hj, -⟩ := getGlobal_eq_ok hop
        have hne : j ≠ k := fun hjk => hop' (hjk ▸ hj)
        simp only [hop', false_and, if_false, Option.map_none, Option.getD_none]
        exact get_storeVal_disjoint hstore (hty.symm ▸ handle_disjoint hlayout hg hk hop hj hne)

/-- What a handle `g` of global number `k` says and does after the calls `ops` have turned `block`
into `block'`. -/
structure GlobalCell (exports : List GlobalExport) (k : Nat) (g : Global) (block : List UInt8)
    (ops : List GlobalOp) (block' : List UInt8) : Prop where
  /-- A `get` returns the last value that was set, or the first one. -/
  get_last : ∃ first v, g.get block = some first ∧ g.get block' = some v ∧
    v.ty = g.ty.content ∧ v = (lastWrite (setsGlobal exports k) ops).getD first
  /-- A `set` fails exactly on a constant and on a value of another type. -/
  set_fails_iff : ∀ v, ∃ r next, g.set block' v = some (r, next) ∧
    ((∃ err, r = .error err) ↔ g.ty.mutability = .const ∨ v.ty ≠ g.ty.content)
  /-- A `set` that fails changes nothing. -/
  failed_set : ∀ v err next, g.set block' v = some (.error err, next) → next = block'
  /-- A `set` that succeeds changes only the bytes of the global. -/
  frame : ∀ v next, g.set block' v = some (.ok (), next) →
    next.length = block'.length ∧
      ∀ i, i < g.data ∨ g.data + g.content.width ≤ i → next[i]? = block'[i]?
  constant : g.ty.mutability = .const → g.get block' = g.get block

/-- A constant is never set. -/
theorem setsGlobal_const {k : Nat} {op : GlobalOp} (hg : getGlobal exports globals name = .ok g)
    (hk : exportedGlobal exports name = some k) (hop : OnHandle exports globals op)
    (hconst : g.mutability = .const) : setsGlobal exports k op = none := by
  unfold setsGlobal
  cases op.action with
  | get => rfl
  | set newVal =>
    refine if_neg ?_
    rintro ⟨hop', hm, -⟩
    rw [handle_unique hg hk hop hop', hconst] at hm
    cases hm

/-- What `Global::set` does, whatever the calls before it have left in the block. -/
theorem set_spec (hg : g.data + g.content.width ≤ block.length) (v : Val) :
    (∃ r next, g.set block v = some (r, next) ∧
      ((∃ err, r = .error err) ↔ g.mutability = .const ∨ v.ty ≠ g.content)) ∧
    (∀ err next, g.set block v = some (.error err, next) → next = block) ∧
    (∀ next, g.set block v = some (.ok (), next) → next.length = block.length ∧
      ∀ i, i < g.data ∨ g.data + g.content.width ≤ i → next[i]? = block[i]?) := by
  rcases set_cases g block v with ⟨hm, hset⟩ | ⟨hm, hty, hset⟩ | ⟨hm, hty, hset⟩
  · rw [hset]
    exact ⟨⟨_, _, rfl, by simp [hm]⟩, by rintro _ _ ⟨⟩; rfl, by rintro _ ⟨⟩⟩
  · rw [hset]
    exact ⟨⟨_, _, rfl, by simp [hty]⟩, by rintro _ _ ⟨⟩; rfl, by rintro _ ⟨⟩⟩
  · rw [← hty] at hg ⊢
    obtain ⟨block', hstore⟩ := exists_storeVal hg
    rw [hset, hstore]
    refine ⟨⟨_, _, rfl, by simp [hm]⟩, by rintro _ _ ⟨⟩, ?_⟩
    rintro _ ⟨⟩
    exact ⟨length_storeVal hstore, fun i hi => getElem?_storeVal_outside hstore hi⟩

/-- Every sequence of calls on handles is possible, and the block keeps its size. -/
theorem run_globals (hlayout : GlobalLayout globals block.length) {ops : List GlobalOp}
    (hops : ∀ op ∈ ops, OnHandle exports globals op) :
    ∃ block', run globalStep block ops = some block' ∧ block'.length = block.length := by
  -- The invariant is the size of the block, on which the layout depends.
  refine run_possible (fun b op hb hop => ?_) rfl hops
  obtain ⟨b', hb', hlen, -⟩ := globalStep_spec (hb ▸ hlayout) hop
  exact ⟨b', hb', hlen.trans hb⟩

/-- After a sequence of calls, a global has the value that was set last, or its first one. -/
theorem get_run_globals (hlayout : GlobalLayout globals block.length) {ops : List GlobalOp}
    (hops : ∀ op ∈ ops, OnHandle exports globals op)
    (hrun : run globalStep block ops = some block') {k : Nat}
    (hk : exportedGlobal exports name = some k) (hg : getGlobal exports globals name = .ok g) :
    g.get block' = ((lastWrite (setsGlobal exports k) ops).map some).getD (g.get block) := by
  rw [← lastWrite_map]
  refine run_last_write (I := fun b => b.length = block.length)
    (P := OnHandle exports globals) ?_ ?_ rfl hops hrun
  · intro b op b' hb hop hstep
    obtain ⟨b'', hb'', hlen, -⟩ := globalStep_spec (hb ▸ hlayout) hop
    cases hstep.symm.trans hb''
    exact hlen.trans hb
  · intro b op b' hb hop hstep
    obtain ⟨b'', hb'', -, hcell⟩ := globalStep_spec (hb ▸ hlayout) hop
    cases hstep.symm.trans hb''
    exact hcell name k g hk hg

/-- Globals are independent typed cells: for every instance whose globals lie in disjoint ranges of
the block, and all sequences of calls on handles, every call is possible, and afterwards every
handle of every global is as `GlobalCell` says. -/
theorem globals_are_cells (exports : List GlobalExport) (globals : List GlobalInst)
    (block : List UInt8) (hlayout : GlobalLayout globals block.length) (ops : List GlobalOp)
    (hops : ∀ op ∈ ops, getGlobal exports globals op.name = .ok op.handle) :
    ∃ block', run globalStep block ops = some block' ∧ block'.length = block.length ∧
      ∀ name k g, exportedGlobal exports name = some k →
        getGlobal exports globals name = .ok g → GlobalCell exports k g block ops block' := by
  obtain ⟨block', hrun, hlen⟩ := run_globals hlayout hops
  refine ⟨block', hrun, hlen, ?_⟩
  intro name k g hk hg
  have hin := handle_inBlock hlayout hg
  have hin' : g.data + g.content.width ≤ block'.length := by rwa [hlen]
  have hlast := get_run_globals hlayout hops hrun hk hg
  obtain ⟨first, hfirst, -⟩ := exists_get hin
  obtain ⟨v, hv, hty⟩ := exists_get hin'
  exact {
    get_last := by
      refine ⟨first, v, hfirst, hv, hty, ?_⟩
      rw [hv, hfirst] at hlast
      cases hw : lastWrite (setsGlobal exports k) ops <;> rw [hw] at hlast <;>
        exact Option.some.inj hlast
    set_fails_iff := fun v => (set_spec hin' v).1
    failed_set := fun v => (set_spec hin' v).2.1
    frame := fun v => (set_spec hin' v).2.2
    constant := by
      intro hconst
      rw [hlast, lastWrite_eq_none fun op hop => setsGlobal_const hg hk (hops op hop) hconst]
      rfl }

/-- An `i32`, an `i64` behind it that is not aligned for its type, and a constant `i32`. -/
def packedGlobals : List GlobalInst := [⟨0, true, 0⟩, ⟨1, true, 4⟩, ⟨0, false, 12⟩]

/-- The `i64` is exported as `"a"` and as `"b"`, the constant as `"c"`. -/
def packedExports : List GlobalExport :=
  [⟨['a'.toUInt8], 1⟩, ⟨['b'.toUInt8], 1⟩, ⟨['c'.toUInt8], 2⟩]

/-- A handle of the `i64`. -/
def packedI64 : Global := ⟨.i64, .mutable, 4⟩

/-- Sets the `i64` through both names, the second time to an `f64`, and tries to set the
constant. -/
def packedOps : List GlobalOp :=
  [⟨['a'.toUInt8], packedI64, .set (.i64 0x100000002)⟩,
    ⟨['b'.toUInt8], packedI64, .set (.f64 7)⟩,
    ⟨['c'.toUInt8], ⟨.i32, .const, 12⟩, .set (.i32 9)⟩]

/-- The `i64` reads as the value of the one `set` that succeeded, through the other name. -/
theorem globals_are_cells_packed : ∃ block',
    run globalStep (List.replicate 16 0) packedOps = some block' ∧
      packedI64.get block' = some (.i64 0x100000002) := by
  have hlayout : GlobalLayout packedGlobals (List.replicate 16 (0 : UInt8)).length :=
    ⟨by decide, by decide⟩
  have hops : ∀ op ∈ packedOps, getGlobal packedExports packedGlobals op.name = .ok op.handle := by
    simp only [packedOps, List.forall_mem_cons]
    exact ⟨rfl, rfl, rfl, by simp⟩
  obtain ⟨block', hrun, -, hcells⟩ := globals_are_cells packedExports packedGlobals
    (List.replicate 16 0) hlayout packedOps hops
  obtain ⟨first, v, -, hv, -, hlast⟩ :=
    (hcells ['b'.toUInt8] 1 packedI64 rfl rfl).get_last
  exact ⟨block', hrun, hv.trans (congrArg some hlast)⟩

end Wamrx.Proofs
