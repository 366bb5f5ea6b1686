import Wamrx.ModuleLoad
import Wamrx.Proofs.MemoryLookup
import Wamrx.Proofs.ParserSoundness

/-!
# `Wamrx.Proofs.LoadedModules`: the module that WAMR loads and the bytes that are parsed

`Module::new` hands WAMR the length of the bytes as a `u32`, so WAMR sees the first
`len % 2 ^ 32` bytes. The parser sees all of them.

`memoryType_loaded_iff`: the two agree about the memory exactly when no memory section starts in
the bytes that WAMR does not see. A memory section before them ends the parser
(`memoryOffset_lt`), and without one the parser goes on behind the module
(`length_le_memoryOffset`).
-/

set_option autoImplicit false

namespace Wamrx.Proofs

variable {link : Linking} {usizeBits : Nat} {bytes : List UInt8}

/-! ### The sections of the module and of the walk -/

/-- The preamble and the sections. -/
theorem length_wasmModule (m : WasmModule) :
    m.bytes.length = 8 + (m.sections.flatMap WasmSection.bytes).length := by
  simp only [WasmModule.bytes, List.length_append, m.version_length, List.length_cons,
    List.length_nil]
  omega

/-- A walk that starts with a module starts with its sections. -/
theorem sections_of_walk {m : WasmModule} {w : SectionWalk} {tail : List UInt8}
    (h : w.bytes = m.bytes ++ tail) :
    w.skipped.flatMap SkippedSection.bytes ++ w.memoryBytes
      = m.sections.flatMap WasmSection.bytes ++ tail := by
  have hbytes : m.bytes ++ tail
      = wasmMagic ++ (m.version ++ (m.sections.flatMap WasmSection.bytes ++ tail)) := by
    simp only [WasmModule.bytes, wasmMagic, List.append_assoc]
  exact (List.append_inj (List.append_cancel_left (h.trans hbytes))
    (w.version_length.trans m.version_length.symm)).2

/-- The sections before the first memory section. -/
theorem exists_first_memory {sections : List WasmSection} (h : ∃ s ∈ sections, s.id = 5) :
    ∃ (before : List WasmSection) (rest : List UInt8), (∀ s ∈ before, s.id ≠ 5) ∧
      sections.flatMap WasmSection.bytes = before.flatMap WasmSection.bytes ++ 5 :: rest := by
  induction sections with
  | nil => simp at h
  | cons s sections ih =>
    cases s with
    | memory size vec hsize => exact ⟨[], _, by simp, rfl⟩
    | other id hid size payload hsize =>
      obtain ⟨t, ht, hid'⟩ := h
      have ht : t ∈ sections := by
        rcases List.mem_cons.mp ht with rfl | ht
        · exact absurd hid' hid
        · exact ht
      obtain ⟨before, rest, hbefore, hbytes⟩ := ih ⟨t, ht, hid'⟩
      refine ⟨.other id hid size payload hsize :: before, rest,
        List.forall_mem_cons.mpr ⟨hid, hbefore⟩, ?_⟩
      rw [List.flatMap_cons, List.flatMap_cons, hbytes, List.append_assoc]

/-- A memory section of the module is where the walk finds one. -/
theorem memoryOffset_lt {m : WasmModule} {w : SectionWalk} {tail : List UInt8}
    (h : w.bytes = m.bytes ++ tail) (hmem : ∃ s ∈ m.sections, s.id = 5) :
    w.memoryOffset < m.bytes.length := by
  obtain ⟨before, rest, hid, hbefore⟩ := exists_first_memory hmem
  obtain ⟨skipped, -, hskipped⟩ := exists_skipped before hid
  have hwalk := sections_of_walk h
  rw [hbefore, ← hskipped, List.append_assoc] at hwalk
  obtain ⟨rfl, -⟩ := skipped_injective hwalk
  rw [length_wasmModule, hbefore, ← hskipped, List.length_append, List.length_cons]
  show 8 + _ < _
  omega

/-- A module without a memory section lies before the one that the walk finds. -/
theorem length_le_memoryOffset {m : WasmModule} {w : SectionWalk} {tail : List UInt8}
    (h : w.bytes = m.bytes ++ tail) (hid : ∀ s ∈ m.sections, s.id ≠ 5) :
    m.bytes.length ≤ w.memoryOffset := by
  obtain ⟨skipped, -, hskipped⟩ := exists_skipped m.sections hid
  have hwalk := sections_of_walk h
  rw [← hskipped] at hwalk
  obtain ⟨more, hmore, -⟩ := skipped_prefix hwalk.symm
  rw [length_wasmModule, SectionWalk.memoryOffset, hmore, ← hskipped, List.flatMap_append,
    List.length_append]
  omega

/-! ### The parsed type -/

/-- What the parser finds in the bytes of a module with others behind it, next to the memory that
the module declares. -/
theorem parse_eq_declared_iff {m : WasmModule} {tail : List UInt8} {ty : Option MemoryType}
    (hsize : (m.bytes ++ tail).length < 2 ^ usizeBits)
    (hparse : parseMemoryType usizeBits (m.bytes ++ tail) = .ofOption ty) :
    ty = m.declaredMemory ↔
      ¬ ∃ w : SectionWalk, w.bytes = m.bytes ++ tail ∧ m.bytes.length ≤ w.memoryOffset := by
  by_cases hmem : ∃ s ∈ m.sections, s.id = 5
  · -- The memory section of the module ends the parser.
    have hty : ty = m.declaredMemory :=
      ofOption_injective (hparse.symm.trans (parseMemoryType_append m tail hsize hmem))
    refine iff_of_true hty ?_
    rintro ⟨w, hw, hle⟩
    have := memoryOffset_lt hw hmem
    omega
  · have hid : ∀ s ∈ m.sections, s.id ≠ 5 := fun s hs hid => hmem ⟨s, hs, hid⟩
    rw [WasmModule.declaredMemory, declaredMemory_eq_none hid]
    constructor
    · rintro rfl ⟨w, hw, -⟩
      rw [← hw] at hsize hparse
      rw [parseMemoryType_of_walk w hsize] at hparse
      cases hparse
    · intro hno
      rcases parseMemoryType_cases hsize with hnone | ⟨w, hw⟩
      · exact ofOption_injective (hparse.symm.trans hnone)
      · exact absurd ⟨w, hw, length_le_memoryOffset hw hid⟩ hno

/-! ### The module -/

/-- `Module.newWith` returns what `Module.new` returns on WAMR's answer. -/
theorem newWith_eq_new {F : Type} (load : Loader) (c : Process F) (e : Engine) :
    (Module.newWith link usizeBits load c e bytes).2
      = (Module.new link usizeBits c e bytes
          ((Module.loadOwned load bytes).1.map LoadedBinary.imports)).2 := by
  unfold Module.newWith Module.new
  rcases Module.loadOwned load bytes with ⟨answer, rewritten⟩
  cases answer with
  | error errBuf => rfl
  | ok m => cases parseMemoryType usizeBits bytes <;> rfl

/-- A module is made only of something that WAMR loaded. -/
theorem loaded_of_newWith {F : Type} {load : Loader} {c : Process F} {e : Engine} {mo : Module}
    (h : (Module.newWith link usizeBits load c e bytes).2 = .ok mo) :
    ∃ m, (Module.loadOwned load bytes).1 = .ok m ∧
      parseMemoryType usizeBits bytes = .ofOption mo.memoryType := by
  rw [newWith_eq_new] at h
  cases hload : (Module.loadOwned load bytes).1 with
  | error errBuf =>
    rw [hload] at h
    cases h
  | ok m => exact ⟨m, rfl, parse_of_new h⟩

/-- WAMR sees the bytes up to the low 32 bits of their length. -/
theorem take_of_loadOwned {load : Loader} (hload : LoadsPrefix load) {m : LoadedBinary}
    (h : (Module.loadOwned load bytes).1 = .ok m) :
    bytes.take (bytes.length % 2 ^ 32) = m.binary.bytes := by
  have htake := hload.bytes_eq _ _ m h
  rwa [UInt32.toNat_ofNat'] at htake

/-- For every slice of which a `Module` is made: its memory type is that of the first memory of the
module that WAMR loaded, exactly when the parser finds no memory section that starts behind the
first `len % 2 ^ 32` bytes. -/
theorem memoryType_loaded_iff {F : Type} (link : Linking) (usizeBits : Nat) (load : Loader)
    (hload : LoadsPrefix load) (c : Process F) (e : Engine) (bytes : List UInt8)
    (hsize : bytes.length ≤ isizeMax usizeBits) (mo : Module)
    (hnew : (Module.newWith link usizeBits load c e bytes).2 = .ok mo) :
    ∃ m, (Module.loadOwned load bytes).1 = .ok m ∧
      (mo.memoryType = m.binary.declaredMemory ↔
        ¬ ∃ w : SectionWalk, w.bytes = bytes ∧ bytes.length % 2 ^ 32 ≤ w.memoryOffset) := by
  obtain ⟨m, hm, hparse⟩ := loaded_of_newWith hnew
  have htake := take_of_loadOwned hload hm
  -- The bytes are those of the module, and a tail that WAMR does not see.
  have hsplit := List.take_append_drop (bytes.length % 2 ^ 32) bytes
  have hlen : m.binary.bytes.length = bytes.length % 2 ^ 32 := by
    rw [← htake, List.length_take]
    exact Nat.min_eq_left (Nat.mod_le _ _)
  have hlt := lt_two_pow_of_le_isizeMax hsize
  refine ⟨m, hm, ?_⟩
  rw [htake] at hsplit
  rw [← hsplit] at hlt hparse
  rw [parse_eq_declared_iff hlt hparse, hsplit, hlen]

/-- Fewer than `2 ^ 32` bytes hide nothing from WAMR. -/
theorem no_hidden_memory (hlt : bytes.length < 2 ^ 32) :
    ¬ ∃ w : SectionWalk, w.bytes = bytes ∧ bytes.length % 2 ^ 32 ≤ w.memoryOffset := by
  rintro ⟨w, rfl, hle⟩
  rw [Nat.mod_eq_of_lt hlt] at hle
  simp only [SectionWalk.bytes, SectionWalk.memoryBytes, SectionWalk.memoryOffset,
    List.length_append, List.length_cons, w.version_length] at hle
  simp only [wasmMagic, List.length_cons, List.length_nil] at hle
  omega

/-! ### Two slices -/

/-- A `wasm_runtime_load` that knows one module, and leaves the buffer as it is. -/
def loadOnly (m : LoadedBinary) : Loader := fun buf size =>
  if buf.take size.toNat = m.binary.bytes then (.ok m, buf) else (.error [], buf)

theorem loadOnly_loadsPrefix {m : LoadedBinary} (hone : m.binary.memoryCount ≤ 1) :
    LoadsPrefix (loadOnly m) := by
  have hcases : ∀ buf size m', (loadOnly m buf size).1 = .ok m' →
      buf.take size.toNat = m.binary.bytes ∧ m' = m := by
    intro buf size m' h
    unfold loadOnly at h
    split at h
    · rename_i htake
      cases h
      exact ⟨htake, rfl⟩
    · cases h
  constructor
  · intro buf size m' h
    obtain ⟨htake, rfl⟩ := hcases buf size m' h
    exact htake
  · intro buf size m' h
    obtain ⟨-, rfl⟩ := hcases buf size m' h
    exact hone

/-- The bindings make a `Module` of a slice that starts with the module. -/
theorem exists_newWith {F : Type} {m : LoadedBinary}
    (htake : bytes.take (bytes.length % 2 ^ 32) = m.binary.bytes)
    (hsize : bytes.length ≤ isizeMax usizeBits) (c : Process F) (e : Engine) :
    (Module.loadOwned (loadOnly m) bytes).1 = .ok m ∧
      ∃ mo, (Module.newWith link usizeBits (loadOnly m) c e bytes).2 = .ok mo := by
  have hload : (Module.loadOwned (loadOnly m) bytes).1 = .ok m := by
    rw [Module.loadOwned, loadOnly, UInt32.toNat_ofNat', if_pos htake]
  refine ⟨hload, ?_⟩
  rw [newWith_eq_new, hload]
  exact exists_new hsize c e m.imports

/-- The bytes of a module and no others: both readers see `(memory 1)`. -/
theorem memoryType_loaded_definingModule :
    ∃ mo, (Module.newWith wamrLink 64 (loadOnly ⟨definingModule.binary, []⟩)
        (Process.init : Process Unit) ⟨0⟩ definingModule.binary.bytes).2 = .ok mo ∧
      mo.memoryType = some ⟨1, none⟩ := by
  have hlt : definingModule.binary.bytes.length < 2 ^ 32 := by decide
  have hsize : definingModule.binary.bytes.length ≤ isizeMax 64 := by decide
  obtain ⟨hload, mo, hnew⟩ := @exists_newWith wamrLink 64 _ Unit ⟨definingModule.binary, []⟩
    (by rw [Nat.mod_eq_of_lt hlt, List.take_length]) hsize Process.init ⟨0⟩
  obtain ⟨m, hm, hiff⟩ := memoryType_loaded_iff wamrLink 64 _ (loadOnly_loadsPrefix (by decide))
    Process.init ⟨0⟩ _ hsize mo hnew
  cases hload.symm.trans hm
  exact ⟨mo, hnew, hiff.mpr (no_hidden_memory hlt)⟩

/-- A module without sections. -/
def emptyBinary : LoadedBinary where
  binary := { version := wasmVersion, version_length := length_wasmVersion, sections := [] }
  imports := []

/-- The same module, with a memory section and `n` zeros behind it. -/
def hiddenMemory (n : Nat) : SectionWalk where
  version := wasmVersion
  version_length := length_wasmVersion
  skipped := []
  size := (Support.LebU32.ofBits 3#7).toLebBytes
  limits := overrunningWalk.limits
  rest := List.replicate n 0
  size_le := by
    rw [List.length_append]
    exact Nat.le_add_right 3 _

theorem length_hiddenMemory (n : Nat) : (hiddenMemory n).bytes.length = 13 + n := by
  have hlimits : overrunningWalk.limits.bytes.length = 3 := rfl
  have hsize : (Support.LebU32.ofBits 3#7).toLebBytes.bytes.length = 1 := rfl
  simp only [SectionWalk.bytes, SectionWalk.memoryBytes, hiddenMemory, List.length_append,
    List.length_cons, List.length_replicate, length_wasmVersion, hlimits, hsize, wasmMagic,
    List.flatMap_nil, List.length_nil]
  omega

/-- `2 ^ 32 + 8` bytes: WAMR loads the first eight, a module without a memory, and the bindings
parse a memory section behind them. -/
theorem memoryType_loaded_disagrees :
    ∃ mo, LoadsPrefix (loadOnly emptyBinary) ∧
      (hiddenMemory (2 ^ 32 - 5)).bytes.length = 2 ^ 32 + 8 ∧
      (hiddenMemory (2 ^ 32 - 5)).bytes.length ≤ isizeMax 64 ∧
      (Module.loadOwned (loadOnly emptyBinary) (hiddenMemory (2 ^ 32 - 5)).bytes).1
        = .ok emptyBinary ∧
      (Module.newWith wamrLink 64 (loadOnly emptyBinary) (Process.init : Process Unit) ⟨0⟩
        (hiddenMemory (2 ^ 32 - 5)).bytes).2 = .ok mo ∧
      emptyBinary.binary.declaredMemory = none ∧ mo.memoryType = some ⟨2, none⟩ := by
  have hlen : (hiddenMemory (2 ^ 32 - 5)).bytes.length = 2 ^ 32 + 8 :=
    length_hiddenMemory (2 ^ 32 - 5)
  have hsize : (hiddenMemory (2 ^ 32 - 5)).bytes.length ≤ isizeMax 64 := by
    rw [hlen]
    decide
  have htake : ∀ n, (hiddenMemory n).bytes.take 8 = emptyBinary.binary.bytes := fun n => rfl
  obtain ⟨hload, mo, hnew⟩ := @exists_newWith wamrLink 64 _ Unit emptyBinary
    (by rw [hlen]; exact htake _) hsize Process.init ⟨0⟩
  obtain ⟨-, -, hparse⟩ := loaded_of_newWith hnew
  rw [parseMemoryType_of_walk _ (lt_two_pow_of_le_isizeMax hsize)] at hparse
  exact ⟨mo, loadOnly_loadsPrefix (by decide), hlen, hsize, hload, hnew, rfl,
    (ofOption_injective (a := some _) hparse).symm⟩

end Wamrx.Proofs
