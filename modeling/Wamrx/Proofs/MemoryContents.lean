import Wamrx.LinearMemory
import Wamrx.Proofs.MemoryViews

/-!
# `Wamrx.Proofs.MemoryContents`: the module and the host see the same bytes

* `mirrors_step`: every access and every `memory.grow` does to the slice of `Memory::data` what it
  should do to the contents of the memory.
* `memory_contents`: so the slice shows the contents in every state, in both layouts and wherever
  the memory has moved.
* `slice_stays_valid`: the address and the length of an earlier slice still designate them, unless
  pages were added.
-/

set_option autoImplicit false

namespace Wamrx.Proofs

open Support

/-! ### Slices -/

@[simp] theorem length_read (sl : Slice) (bytes : Nat → UInt8) :
    (sl.read bytes).length = sl.len := by
  simp [Slice.read]

theorem getElem_read (sl : Slice) (bytes : Nat → UInt8) (i : Nat)
    (h : i < (sl.read bytes).length) : (sl.read bytes)[i] = bytes (sl.ptr + i) := by
  simp [Slice.read]

/-- A write through a slice, in bounds or not. -/
theorem read_update (sl : Slice) (bytes : Nat → UInt8) (i : Nat) (b : UInt8) :
    sl.read (if i < sl.len then Function.update bytes (sl.ptr + i) b else bytes)
      = (sl.read bytes).set i b := by
  refine List.ext_getElem (by simp) fun j hj hj' => ?_
  rw [getElem_read, List.getElem_set, getElem_read]
  rw [length_read] at hj
  by_cases hij : i = j
  · subst hij
    rw [if_pos hj, if_pos rfl, Function.update_self]
  · rw [if_neg hij]
    split
    · exact Function.update_of_ne (by omega) _ _
    · rfl

/-- A slice over a null base has no bytes, and every other one starts at the base. -/
theorem data_eq (inst : MemoryInst) (h : 0 < (Memory.data 64 inst).len) :
    Memory.data 64 inst = ⟨inst.base, Memory.byteLen 64 inst⟩ := by
  unfold Memory.data at h ⊢
  split
  · rename_i hnull
    rw [if_pos hnull] at h
    exact absurd h (Nat.lt_irrefl 0)
  · rfl

/-! ### One step -/

/-- The slice of the memory shows the contents. -/
structure Mirrors (ty : MemoryType) (s : MemoryState) (c : Contents) : Prop where
  inv : MemoryInv ty s.mem
  grows_eq : c.grows = s.mem.grows
  limit_eq : c.limit = s.mem.limit
  bytes_eq : (Memory.data 64 s.mem.inst).read s.bytes = c.bytes

variable {ty : MemoryType} {s : MemoryState} {c : Contents}

/-- All lengths are the same: of the slice, of WAMR's bounds checks, and of the contents. -/
theorem Mirrors.lengths (hty : ValidLimits ty) (h : Mirrors ty s c) :
    (Memory.data 64 s.mem.inst).len = s.mem.inst.dataSize ∧
      c.bytes.length = s.mem.inst.dataSize ∧
      s.mem.inst.dataSize = pagesOf ty s.mem.granted * wasmPageSize := by
  have hlen : (Memory.data 64 s.mem.inst).len = s.mem.inst.dataSize := by
    rw [data_len, (byteLen_eq hty h.inv).1]
    exact h.inv.bytes_eq.symm
  refine ⟨hlen, ?_, h.inv.bytes_eq⟩
  rw [← h.bytes_eq, length_read, hlen]

/-- A write through the slice of the memory, by the host or by the module. -/
theorem Mirrors.write (h : Mirrors ty s c) (i : Nat) (b : UInt8) :
    Mirrors ty
      (if i < (Memory.data 64 s.mem.inst).len then s.poke ((Memory.data 64 s.mem.inst).ptr + i) b
        else s)
      { c with bytes := c.bytes.set i b } := by
  have hread := read_update (Memory.data 64 s.mem.inst) s.bytes i b
  rw [h.bytes_eq] at hread
  split
  · rename_i hi
    rw [if_pos hi] at hread
    exact ⟨h.inv, h.grows_eq, h.limit_eq, hread⟩
  · rename_i hi
    rw [if_neg hi] at hread
    exact ⟨h.inv, h.grows_eq, h.limit_eq, hread⟩

/-- The memory after it has moved: the old bytes and then zeros, whatever was left elsewhere. -/
theorem read_moved (s : MemoryState) (base len : Nat) (left : Nat → UInt8)
    (hle : s.mem.inst.dataSize ≤ len) :
    (⟨base, len⟩ : Slice).read (s.moved base len left)
      = (⟨s.mem.inst.base, s.mem.inst.dataSize⟩ : Slice).read s.bytes
          ++ List.replicate (len - s.mem.inst.dataSize) 0 := by
  refine List.ext_getElem (by simp; omega) fun i hi _ => ?_
  rw [length_read] at hi
  rw [getElem_read, List.getElem_append]
  simp only [length_read, MemoryState.moved, Nat.le_add_right, Nat.add_lt_add_iff_left,
    true_and, Nat.add_sub_cancel_left, hi, if_true]
  split
  · rw [getElem_read]
  · rw [List.getElem_replicate]

/-- The bytes start at the base address, also when it is null. -/
theorem Mirrors.bytes_at_base (hty : ValidLimits ty) (h : Mirrors ty s c) :
    (⟨s.mem.inst.base, s.mem.inst.dataSize⟩ : Slice).read s.bytes = c.bytes := by
  obtain ⟨hlen, hclen, -⟩ := h.lengths hty
  rcases Nat.eq_zero_or_pos s.mem.inst.dataSize with hzero | hpos
  · rw [List.eq_nil_of_length_eq_zero (hclen.trans hzero), hzero]
    rfl
  · have hdata := data_eq s.mem.inst (by rw [hlen]; exact hpos)
    rw [← h.bytes_eq, hdata]
    rw [hdata] at hlen
    exact congrArg (fun n => (⟨s.mem.inst.base, n⟩ : Slice).read s.bytes) hlen.symm

/-- The slice of a memory that has grown: the old bytes, and zeros for the new pages. -/
theorem read_grown (hty : ValidLimits ty) (h : Mirrors ty s c) (req : GrowRequest)
    (left : Nat → UInt8) (addr : { addr : Nat // addr ≠ 0 }) (hgrows : s.mem.grows = true)
    {inst : MemoryInst} (hinst : inst = ⟨s.mem.inst.curPageCount + req.increment,
      s.mem.inst.bytesPerPage, addr, fun h => absurd h addr.2⟩)
    (hinv : MemoryInv ty { s.mem with
      inst := inst, granted := s.mem.granted ++ [req.increment] }) :
    (Memory.data 64 inst).read (s.moved inst.base inst.dataSize left)
      = c.bytes ++ List.replicate (req.increment * wasmPageSize) 0 := by
  have hbytes : Memory.byteLen 64 inst = inst.dataSize :=
    (byteLen_eq hty hinv).1.trans hinv.bytes_eq.symm
  have hsize : inst.dataSize = s.mem.inst.dataSize + req.increment * wasmPageSize := by
    rw [hinst, MemoryInst.dataSize, MemoryInst.dataSize, Nat.add_mul,
      (h.inv.unfolded hgrows).2]
  have hdata : Memory.data 64 inst = ⟨inst.base, inst.dataSize⟩ := by
    rw [Memory.data, if_neg (by rw [hinst]; exact addr.2), hbytes]
  rw [hdata, read_moved s inst.base inst.dataSize left (by omega), h.bytes_at_base hty]
  congr 2
  omega

/-- The outcomes of a `memory.grow`: not there, no pages added, and pages added. -/
theorem grow_cases (mem : MemoryRun) (req : GrowRequest) :
    (mem.grows = false ∧ mem.step growPages req = none) ∨
    (mem.grows = true ∧ (∃ granted, mem.step growPages req = some { mem with granted := granted }) ∧
      (mem.limit < mem.inst.curPageCount + req.increment ∨ req.alloc = none ∨
        req.increment = 0)) ∨
    (mem.grows = true ∧ ¬ mem.limit < mem.inst.curPageCount + req.increment ∧
      req.increment ≠ 0 ∧ ∃ addr, req.alloc = some addr ∧
        mem.step growPages req = some { mem with
          inst := ⟨mem.inst.curPageCount + req.increment, mem.inst.bytesPerPage, addr,
            fun h => absurd h addr.2⟩
          granted := mem.granted ++ [req.increment] }) := by
  simp only [MemoryRun.step, growPages]
  cases hgrows : mem.grows with
  | false => exact Or.inl ⟨rfl, if_pos rfl⟩
  | true =>
    refine Or.inr ?_
    rw [if_neg (by simp)]
    by_cases hlimit : mem.limit < mem.inst.curPageCount + req.increment
    · exact Or.inl ⟨rfl, ⟨mem.granted, by rw [if_pos hlimit, ← hgrows]⟩, Or.inl hlimit⟩
    rw [if_neg hlimit]
    by_cases hzero : req.increment = 0
    · exact Or.inl ⟨rfl, ⟨_, by rw [if_pos hzero, ← hgrows]⟩, Or.inr (Or.inr hzero)⟩
    rw [if_neg hzero]
    cases halloc : req.alloc with
    | none => exact Or.inl ⟨rfl, ⟨mem.granted, by rw [← hgrows]; rfl⟩, Or.inr (Or.inl rfl)⟩
    | some addr => exact Or.inr ⟨rfl, hlimit, hzero, addr, rfl, by rw [← hgrows]; rfl⟩

/-- A `memory.grow` adds zeros behind the bytes, or changes nothing. -/
theorem mirrors_grow (hty : ValidLimits ty) (h : Mirrors ty s c) (req : GrowRequest)
    (left : Nat → UInt8) :
    Option.Rel (Mirrors ty) (s.step (.grow req left)) (c.step (.grow req left)) := by
  obtain ⟨-, hclen, hsize⟩ := h.lengths hty
  have hcount : s.mem.grows = true → c.bytes.length / wasmPageSize = s.mem.inst.curPageCount := by
    intro hgrows
    rw [hclen, hsize, (h.inv.unfolded hgrows).1, Nat.mul_div_cancel _ (by decide)]
  simp only [MemoryState.step, Contents.step, h.limit_eq]
  rcases grow_cases s.mem req with ⟨hgrows, hstep⟩ | ⟨hgrows, ⟨granted, hstep⟩, hwhy⟩ |
    ⟨hgrows, hlimit, hzero, addr, halloc, hstep⟩
  · rw [hstep, if_pos (h.grows_eq.trans hgrows)]
    exact .none
  · -- No pages are added, and no zeros.
    have hinv := memoryInv_step growPages_grows s.mem req _ h.inv hstep
    rw [hstep, if_neg (by rw [h.grows_eq, hgrows]; simp), Option.map_some, if_pos rfl,
      hcount hgrows]
    split
    · exact .some ⟨hinv, h.grows_eq, h.limit_eq, h.bytes_eq⟩
    · rename_i hnot
      have hnone : req.increment = 0 := by tauto
      refine .some ⟨hinv, h.grows_eq, rfl, ?_⟩
      simpa [hnone] using h.bytes_eq
  · have hinv := memoryInv_step growPages_grows s.mem req _ h.inv hstep
    rw [hstep, if_neg (by rw [h.grows_eq, hgrows]; simp), Option.map_some, hcount hgrows,
      if_neg (not_or.mpr ⟨hlimit, by simp [halloc]⟩),
      if_neg (show ¬ s.mem.inst.curPageCount + req.increment = s.mem.inst.curPageCount by omega)]
    refine .some ⟨hinv, h.grows_eq, rfl, ?_⟩
    exact read_grown hty h req left addr hgrows rfl hinv

/-- Every operation does to the contents what it does to the slice. -/
theorem mirrors_step (hty : ValidLimits ty) (s : MemoryState) (c : Contents) (op : MemoryOp)
    (h : Mirrors ty s c) : Option.Rel (Mirrors ty) (s.step op) (c.step op) := by
  obtain ⟨hlen, -, -⟩ := h.lengths hty
  cases op with
  | store offset b =>
    -- A store goes through the base address, which is the start of the slice.
    have hwrite := h.write offset b
    rw [hlen] at hwrite
    simp only [MemoryState.step, Contents.step]
    split
    · rename_i hoffset
      rw [if_pos hoffset, data_eq s.mem.inst (by omega)] at hwrite
      exact .some hwrite
    · rename_i hoffset
      rw [if_neg hoffset] at hwrite
      exact .some hwrite
  | hostWrite i b =>
    have hwrite := h.write i b
    simp only [MemoryState.step, Contents.step, show Memory.dataMut 64 s.mem.inst
      = Memory.data 64 s.mem.inst from rfl]
    split
    · rename_i hi
      rw [if_pos hi] at hwrite
      exact .some hwrite
    · rename_i hi
      rw [if_neg hi] at hwrite
      exact .some hwrite
  | grow req left => exact mirrors_grow hty h req left

/-! ### Whole runs -/

/-- What the host sees of the contents, and what the accesses of the module are checked against. -/
structure SeesContents (s : MemoryState) (c : Contents) : Prop where
  data_eq : (Memory.data 64 s.mem.inst).read s.bytes = c.bytes
  dataMut_eq : (Memory.dataMut 64 s.mem.inst).read s.bytes = c.bytes
  size_eq : c.bytes.length = Memory.size 64 s.mem.inst * wasmPageSize
  dataSize_eq : c.bytes.length = s.mem.inst.dataSize

theorem Mirrors.sees (hty : ValidLimits ty) (h : Mirrors ty s c) : SeesContents s c := by
  obtain ⟨-, hclen, hsize⟩ := h.lengths hty
  refine ⟨h.bytes_eq, h.bytes_eq, ?_, hclen⟩
  rw [hclen, hsize, Memory.size, (byteLen_eq hty h.inv).1, Nat.mul_div_cancel _ (by decide)]

/-- The contents of a new memory: whatever the data segments have put there. -/
def initialContents (mem : MemoryRun) (bytes : Nat → UInt8) : Contents :=
  ⟨(Memory.data 64 mem.inst).read bytes, mem.grows, mem.limit⟩

/-- For every declared memory type, in either layout of WAMR, and for every run of stores of the
module, writes of the host and requests to grow, wherever the memory moves and whatever it leaves
behind: the slices of `data()` and `data_mut()` show exactly the contents. The module and the host
see each other's writes, new pages are zero, nothing else changes a byte, and both are held to the
same bounds. -/
theorem memory_contents (ty : MemoryType) (hty : ValidLimits ty) (grows : Bool) (base : Nat)
    (hbase : base = 0 → ty.minimum = 0) (bytes : Nat → UInt8) (ops : List MemoryOp) :
    let mem := MemoryRun.instantiate ty grows base hbase
    Option.Rel SeesContents (run MemoryState.step ⟨mem, bytes⟩ ops)
      (run Contents.step (initialContents mem bytes) ops) := by
  intro mem
  have hinit : Mirrors ty ⟨mem, bytes⟩ (initialContents mem bytes) :=
    ⟨memoryInv_instantiate hty grows base hbase, rfl, rfl, rfl⟩
  exact optionRel_imp (fun _ _ h => h.sees hty)
    (run_rel (Mirrors ty) (fun s c op h => mirrors_step hty s c op h) hinit ops)

/-- A memory of one page that grows by one and moves, with writes before and after. -/
def movingRun : List MemoryOp :=
  [.store 65535 1, .hostWrite 65536 2, .grow ⟨1, some ⟨0x100000, by decide⟩⟩ fun _ => 0xff,
    .hostWrite 65536 3, .store 131072 4]

/-- The place of the memory, its page count, and three of the bytes around it. -/
def probe (s : MemoryState) : Nat × Nat × List UInt8 :=
  (s.mem.inst.base, s.mem.inst.curPageCount,
    [0x10ffff, 0x110000, 0x120000].map s.bytes)

/-- The host and the module see each other's bytes, before the move and behind it. The two bytes
that were written within bounds are there, and the write behind the end is not. -/
theorem memory_contents_movingRun :
    let mem := MemoryRun.instantiate ⟨1, some 2⟩ true 0x10000 (by decide)
    ∃ s c, run MemoryState.step ⟨mem, fun _ => 0⟩ movingRun = some s ∧
      run Contents.step (initialContents mem fun _ => 0) movingRun = some c ∧ SeesContents s c ∧
      probe s = (0x100000, 2, [1, 3, 0xff]) := by
  intro mem
  have hrel : Option.Rel SeesContents (run MemoryState.step ⟨mem, fun _ => 0⟩ movingRun)
      (run Contents.step (initialContents mem fun _ => 0) movingRun) :=
    memory_contents ⟨1, some 2⟩ ⟨by decide, by simp [maxPages]⟩ true 0x10000 (by decide)
      (fun _ => 0) movingRun
  have hprobe : (run MemoryState.step ⟨mem, fun _ => 0⟩ movingRun).map probe
      = some (0x100000, 2, [1, 3, 0xff]) := by decide
  obtain ⟨s, hs, hprobe⟩ := Option.map_eq_some_iff.mp hprobe
  rw [hs] at hrel
  obtain ⟨c, hc, hsees⟩ := optionRel_some hrel
  exact ⟨s, c, hs, hc, hsees, hprobe⟩

/-! ### Slices over time -/

/-- The memory is where it was, or it has grown since. -/
def StaysOrGrows (mem mem' : MemoryRun) : Prop :=
  mem'.grows = mem.grows ∧ (mem'.inst = mem.inst ∨
    mem.grows = true ∧ mem.inst.curPageCount < mem'.inst.curPageCount)

theorem staysOrGrows_step {mem : MemoryRun} (s : MemoryState) (op : MemoryOp) (s' : MemoryState)
    (h : StaysOrGrows mem s.mem) (hs : s.step op = some s') : StaysOrGrows mem s'.mem := by
  cases op with
  | store offset b =>
    simp only [MemoryState.step] at hs
    split at hs <;> cases hs <;> exact h
  | hostWrite i b =>
    simp only [MemoryState.step] at hs
    split at hs <;> cases hs <;> exact h
  | grow req left =>
    obtain ⟨hgrows, hinst⟩ := h
    obtain ⟨mem', hmem', rfl⟩ := Option.map_eq_some_iff.mp hs
    have hmem : StaysOrGrows mem mem' := by
      rcases grow_cases s.mem req with ⟨-, hstep⟩ | ⟨-, ⟨granted, hstep⟩, -⟩ |
        ⟨hg, -, hzero, addr, -, hstep⟩ <;> rw [hstep] at hmem' <;> cases hmem'
      · exact ⟨hgrows, hinst⟩
      · refine ⟨hgrows, Or.inr ⟨hgrows ▸ hg, ?_⟩⟩
        rcases hinst with heq | ⟨-, hlt⟩
        · rw [← heq]
          exact Nat.lt_add_of_pos_right (Nat.pos_of_ne_zero hzero)
        · exact Nat.lt_of_lt_of_le hlt (Nat.le_add_right _ _)
    split <;> exact hmem

/-- The address and the length that `data()` has returned earlier still designate the memory, as
long as `size()` is what it was: the bytes there are the contents, with all writes that were made
since, by the module and by the host. This is about addresses. A `&[u8]` that is held must not see
a write. -/
theorem slice_stays_valid (ty : MemoryType) (hty : ValidLimits ty) (grows : Bool) (base : Nat)
    (hbase : base = 0 → ty.minimum = 0) (bytes : Nat → UInt8) (pre post : List MemoryOp)
    (s s' : MemoryState)
    (hpre : run MemoryState.step ⟨MemoryRun.instantiate ty grows base hbase, bytes⟩ pre = some s)
    (hpost : run MemoryState.step s post = some s')
    (hsize : Memory.size 64 s'.mem.inst = Memory.size 64 s.mem.inst) :
    ∃ c, run Contents.step (initialContents (MemoryRun.instantiate ty grows base hbase) bytes)
        (pre ++ post) = some c ∧ (Memory.data 64 s.mem.inst).read s'.bytes = c.bytes := by
  have hinit : Mirrors ty ⟨MemoryRun.instantiate ty grows base hbase, bytes⟩
      (initialContents (MemoryRun.instantiate ty grows base hbase) bytes) :=
    ⟨memoryInv_instantiate hty grows base hbase, rfl, rfl, rfl⟩
  have hrel := run_rel (Mirrors ty) (fun s c op h => mirrors_step hty s c op h) hinit pre
  rw [hpre] at hrel
  obtain ⟨c, hc, hmid⟩ := optionRel_some hrel
  have hrel' := run_rel (Mirrors ty) (fun s c op h => mirrors_step hty s c op h) hmid post
  rw [hpost] at hrel'
  obtain ⟨c', hc', hend⟩ := optionRel_some hrel'
  refine ⟨c', run_append_eq_some.mpr ⟨c, hc, hc'⟩, ?_⟩
  -- With the same size, no page was added, so the memory has not moved.
  have hstays := run_inv (fun m : MemoryState => StaysOrGrows s.mem m.mem) staysOrGrows_step
    ⟨rfl, Or.inl rfl⟩ hpost
  have hinst : s'.mem.inst = s.mem.inst := by
    refine hstays.2.resolve_right ?_
    rintro ⟨hgrows, hlt⟩
    have hsize' := (hend.sees hty).size_eq
    rw [hsize, ← (hmid.sees hty).size_eq, (hmid.sees hty).dataSize_eq,
      (hend.sees hty).dataSize_eq, MemoryInst.dataSize, MemoryInst.dataSize,
      (hmid.inv.unfolded hgrows).2, (hend.inv.unfolded (hstays.1.trans hgrows)).2] at hsize'
    have := Nat.eq_of_mul_eq_mul_right (by decide) hsize'
    omega
  rw [← hinst]
  exact hend.bytes_eq

/-- The same memory before any access. -/
def freshPage : MemoryState :=
  ⟨MemoryRun.instantiate ⟨1, some 2⟩ true 0x10000 (by decide), fun _ => 0⟩

theorem slice_stays_valid_freshPage :
    ∃ s', run MemoryState.step freshPage [.hostWrite 3 2, .grow ⟨0, none⟩ fun _ => 0xff]
        = some s' ∧
      ∃ c, run Contents.step (initialContents freshPage.mem fun _ => 0)
          [.hostWrite 3 2, .grow ⟨0, none⟩ fun _ => 0xff] = some c ∧
        (Memory.data 64 freshPage.mem.inst).read s'.bytes = c.bytes := by
  obtain ⟨s', hs'⟩ := Option.isSome_iff_exists.mp (show (run MemoryState.step freshPage
    [.hostWrite 3 2, .grow ⟨0, none⟩ fun _ => 0xff]).isSome by decide)
  have hsize : Memory.size 64 s'.mem.inst = Memory.size 64 freshPage.mem.inst := by
    cases hs'
    rfl
  exact ⟨s', hs', slice_stays_valid ⟨1, some 2⟩ ⟨by decide, by simp [maxPages]⟩ true 0x10000
    (by decide) (fun _ => 0) [] [.hostWrite 3 2, .grow ⟨0, none⟩ fun _ => 0xff] freshPage s' rfl
    hs' hsize⟩

end Wamrx.Proofs
