import Mathlib.Data.List.TakeWhile
import Wamrx.Module
import Wamrx.ModuleDecls
import Wamrx.Proofs.MemoryTypeRoundTrip

/-!
# `Wamrx.Proofs.MemoryLookup`: which memories `get_memory` finds

`get_memory` asks three views of a module: WAMR's export table, WAMR's instance, and the type that
the bindings parsed out of the memory section. `getMemory_cases` is its two outcomes.

`getMemory_exact_iff`: it finds an exported memory exactly when the memory is defined in the memory
section and the export table shows the whole name. A re-exported import has no parsed type, and a
name with a NUL in it is shown up to the NUL.
-/

set_option autoImplicit false

namespace Wamrx.Proofs

variable {exports : List Export} {name : List UInt8}

/-! ### Names -/

/-- A C string has no NUL in it. -/
theorem zero_notMem_cName (e : Export) : 0 ∉ e.cName := by
  intro h
  have := List.mem_takeWhile_imp h
  simp at this

/-- A name without a NUL is its own C string. -/
theorem cName_eq_name {e : Export} (h : 0 ∉ e.name) : e.cName = e.name := by
  rw [Export.cName, List.takeWhile_eq_self_iff]
  intro b hb
  simp only [ne_eq, decide_not, Bool.not_eq_eq_eq_not, Bool.not_true, decide_eq_false_iff_not]
  rintro rfl
  exact h hb

theorem hasExportedMemory_iff :
    hasExportedMemory exports name = true ↔ ∃ e ∈ exports, e.kind = .memory ∧ e.cName = name := by
  simp [hasExportedMemory]

/-! ### The three views -/

/-- The outcomes of `get_memory`. -/
theorem getMemory_cases (exports : List Export) (lookup : Option MemoryInst)
    (memoryType : Option MemoryType) (name : List UInt8) :
    (hasExportedMemory exports name = true ∧ lookup.isSome = true ∧ ∃ ty, memoryType = some ty ∧
      getMemory exports lookup memoryType name = .ok ⟨ty⟩) ∨
    ((hasExportedMemory exports name = false ∨ lookup.isSome = false ∨ memoryType = none) ∧
      getMemory exports lookup memoryType name = .error (.memoryNotFound name)) := by
  unfold getMemory
  cases hexport : hasExportedMemory exports name with
  | false => exact Or.inr ⟨Or.inl rfl, if_pos (by simp)⟩
  | true =>
    -- The name is a C string, so `CString::new` accepts it.
    obtain ⟨e, -, -, rfl⟩ := hasExportedMemory_iff.mp hexport
    rw [if_neg (by simp), if_neg (zero_notMem_cName e)]
    cases lookup with
    | none => exact Or.inr ⟨Or.inr (Or.inl rfl), rfl⟩
    | some inst =>
      cases memoryType with
      | none => exact Or.inr ⟨Or.inr (Or.inr rfl), rfl⟩
      | some ty => exact Or.inl ⟨rfl, rfl, ty, rfl, rfl⟩

/-- A `Module` has the type that was parsed. -/
theorem parse_of_new {F : Type} {link : Linking} {usizeBits : Nat} {c : Process F} {e : Engine}
    {bytes : List UInt8} {loaded : LoadResult} {mo : Module}
    (h : (Module.new link usizeBits c e bytes loaded).2 = .ok mo) :
    parseMemoryType usizeBits bytes = .ofOption mo.memoryType := by
  unfold Module.new at h
  cases loaded with
  | error errBuf => cases h
  | ok imports => cases hp : parseMemoryType usizeBits bytes <;> rw [hp] at h <;> cases h <;> rfl

theorem ofOption_injective {α : Type} {a b : Option α}
    (h : Parse.ofOption a = Parse.ofOption b) : a = b := by
  cases a <;> cases b <;> cases h <;> rfl

/-- A `Module` has the type that its memory section declares. -/
theorem memoryType_of_new {F : Type} {link : Linking} {usizeBits : Nat} {c : Process F} {e : Engine}
    {m : WasmModule} (hsize : m.bytes.length ≤ isizeMax usizeBits) {loaded : LoadResult}
    {mo : Module} (h : (Module.new link usizeBits c e m.bytes loaded).2 = .ok mo) :
    mo.memoryType = m.declaredMemory :=
  ofOption_injective ((parse_of_new h).symm.trans
    (parseMemoryType_of_length_lt m (lt_two_pow_of_le_isizeMax hsize)))

/-- A section that declares a memory defines one. -/
theorem memoryCount_pos {sections : List WasmSection} {ty : MemoryType}
    (h : WasmSection.declaredMemory sections = some ty) :
    0 < sections.foldr (fun s n => s.memoryCount + n) 0 := by
  induction sections with
  | nil => cases h
  | cons s sections ih =>
    rw [List.foldr_cons]
    cases s with
    | memory size vec hsize =>
      cases vec with
      | empty count hcount rest => cases h
      | cons count hcount first rest => exact Nat.lt_of_lt_of_le hcount (Nat.le_add_right _ _)
    | other id hid size payload hsize => exact Nat.lt_of_lt_of_le (ih h) (Nat.le_add_left _ _)

/-- A memory of the memory section is the only memory of an accepted module. -/
theorem memoryType?_of_declared (m : AcceptedModule) {ty : MemoryType}
    (h : m.binary.declaredMemory = some ty) :
    0 < m.memoryCount ∧ m.memoryType? = some ty := by
  have hpos : 0 < m.binary.memoryCount := memoryCount_pos h
  have hone := m.one_memory
  unfold ModuleDecls.memoryCount at hone ⊢
  have hnil : m.importedMemories = [] := List.eq_nil_of_length_eq_zero (by omega)
  refine ⟨by omega, ?_⟩
  rw [ModuleDecls.memoryType?, hnil, h]
  rfl

/-- The outcomes of `get_memory` on an accepted module. Only a name that is not shown, or a missing
memory section, loses a memory: the instance has every memory that the module has. -/
theorem getMemory_accepted (m : AcceptedModule) {lookup : Option MemoryInst}
    (hlookup : lookup.isSome = true ↔ 0 < m.memoryCount) (name : List UInt8) :
    (hasExportedMemory m.exportList name = true ∧ ∃ ty, m.binary.declaredMemory = some ty ∧
      m.memoryType? = some ty ∧
      getMemory m.exportList lookup m.binary.declaredMemory name = .ok ⟨ty⟩) ∨
    ((hasExportedMemory m.exportList name = true → m.binary.declaredMemory = none) ∧
      getMemory m.exportList lookup m.binary.declaredMemory name
        = .error (.memoryNotFound name)) := by
  rcases getMemory_cases m.exportList lookup m.binary.declaredMemory name with
    ⟨hexport, -, ty, hty, hget⟩ | ⟨hnone, hget⟩
  · exact Or.inl ⟨hexport, ty, hty, (memoryType?_of_declared m hty).2, hget⟩
  · refine Or.inr ⟨fun hexport => ?_, hget⟩
    rw [hexport] at hnone
    cases hd : m.binary.declaredMemory with
    | none => rfl
    | some ty =>
      have hsome := hlookup.mpr (memoryType?_of_declared m hd).1
      rw [hsome, hd] at hnone
      simp at hnone

/-- A memory whose name has no NUL in it is shown under its name. -/
theorem hasExportedMemory_of_exact
    (h : ∃ x ∈ exports, x.kind = .memory ∧ x.name = name) (hnul : 0 ∉ name) :
    hasExportedMemory exports name = true := by
  obtain ⟨x, hx, hkind, rfl⟩ := h
  exact hasExportedMemory_iff.mpr ⟨x, hx, hkind, cName_eq_name hnul⟩

/-! ### Exactness -/

/-- For every accepted module and every name: `get_memory` returns `Ok` exactly for the names of
exported memories, with the declared type, and `MemoryNotFound` for all others, exactly when

* a memory that is exported under the name is defined in the memory section, and the name has no
  NUL in it, and
* no memory of the memory section is exported under a longer name that goes on with a NUL. -/
theorem getMemory_exact_iff {F : Type} (link : Linking) (usizeBits : Nat) (c : Process F)
    (e : Engine) (m : AcceptedModule) (hsize : m.binary.bytes.length ≤ isizeMax usizeBits)
    (loaded : LoadResult) (mo : Module)
    (hnew : (Module.new link usizeBits c e m.binary.bytes loaded).2 = .ok mo)
    (lookup : Option MemoryInst) (hlookup : lookup.isSome = true ↔ 0 < m.memoryCount)
    (name : List UInt8) :
    (((∃ x ∈ m.exportList, x.kind = .memory ∧ x.name = name) →
        ∃ ty, m.memoryType? = some ty ∧
          getMemory m.exportList lookup mo.memoryType name = .ok ⟨ty⟩) ∧
      ((¬ ∃ x ∈ m.exportList, x.kind = .memory ∧ x.name = name) →
        getMemory m.exportList lookup mo.memoryType name = .error (.memoryNotFound name))) ↔
    (((∃ x ∈ m.exportList, x.kind = .memory ∧ x.name = name) →
        0 ∉ name ∧ m.binary.declaredMemory.isSome = true) ∧
      ((¬ ∃ x ∈ m.exportList, x.kind = .memory ∧ x.name = name) →
        (∃ x ∈ m.exportList, x.kind = .memory ∧ x.cName = name) →
          m.binary.declaredMemory = none)) := by
  rw [memoryType_of_new hsize hnew, ← hasExportedMemory_iff]
  rcases getMemory_accepted m hlookup name with
    ⟨hexport, ty, hty, htype, hget⟩ | ⟨hnone, hget⟩
  · -- A memory was found, under a name that the export table shows.
    obtain ⟨x, -, -, rfl⟩ := hasExportedMemory_iff.mp hexport
    constructor
    · rintro ⟨-, herr⟩
      refine ⟨fun _ => ⟨zero_notMem_cName x, by rw [hty]; rfl⟩, fun hex => ?_⟩
      rw [herr hex] at hget
      cases hget
    · rintro ⟨-, hcond⟩
      refine ⟨fun _ => ⟨ty, htype, hget⟩, fun hex => ?_⟩
      rw [hcond hex hexport] at hty
      cases hty
  · -- None was found: the name is not shown, or no type was parsed.
    rw [hget]
    constructor
    · rintro ⟨hexact, -⟩
      refine ⟨fun hex => ?_, fun _ => hnone⟩
      obtain ⟨ty, -, hok⟩ := hexact hex
      cases hok
    · rintro ⟨hcond, -⟩
      refine ⟨fun hex => ?_, fun _ => rfl⟩
      obtain ⟨hnul, hsome⟩ := hcond hex
      rw [hnone (hasExportedMemory_of_exact hex hnul)] at hsome
      cases hsome

/-! ### Three modules -/

open Support (LebU32)

/-- `(limits 1)`. -/
def onePage : Limits where
  flags := .ofBits 0#7
  minimum := .ofBits 1#7
  maximum := none
  maximum_iff := by decide

/-- A name of fewer than 128 bytes. -/
def shortName (text : List UInt8) (h : text.length < 128) : WasmName :=
  ⟨.ofBits (BitVec.ofNat 7 text.length), text, Nat.mod_eq_of_lt h⟩

/-- `(memory (export "m") 1)`. -/
def definingModule : AcceptedModule where
  binary :=
    { version := wasmVersion
      version_length := length_wasmVersion
      sections :=
        [ .memory (.ofBits 3#7)
            (.cons (.ofBits 1#7) (by decide) onePage []) rfl,
          .other 7 (by decide) (.ofBits 5#7) [1, 1, 0x6d, 2, 0] rfl ] }
  imports := none
  exports := some ⟨.ofBits 1#7,
    [ ⟨shortName [0x6d] (by decide), .memory, .ofBits 0#7⟩ ], rfl⟩
  imports_eq := rfl
  exports_eq := rfl
  one_section := by decide
  one_memory := by decide
  export_memory := by simp [ModuleDecls.exportEntries]; decide

/-- `(import "env" "m" (memory 1)) (export "m" (memory 0))`. -/
def reexportingModule : AcceptedModule where
  binary :=
    { version := wasmVersion
      version_length := length_wasmVersion
      sections :=
        [ .other 2 (by decide) (.ofBits 10#7)
            [1, 3, 0x65, 0x6e, 0x76, 1, 0x6d, 2, 0, 1] rfl,
          .other 7 (by decide) (.ofBits 5#7) [1, 1, 0x6d, 2, 0] rfl ] }
  imports := some ⟨.ofBits 1#7,
    [ ⟨shortName [0x65, 0x6e, 0x76] (by decide), shortName [0x6d] (by decide),
        .memory onePage⟩ ], rfl⟩
  exports := some ⟨.ofBits 1#7,
    [ ⟨shortName [0x6d] (by decide), .memory, .ofBits 0#7⟩ ], rfl⟩
  imports_eq := rfl
  exports_eq := rfl
  one_section := by decide
  one_memory := by decide
  export_memory := by simp [ModuleDecls.exportEntries]; decide

/-- `(memory (export "m") (export "a\00b") 1)`. -/
def nulModule : AcceptedModule where
  binary :=
    { version := wasmVersion
      version_length := length_wasmVersion
      sections :=
        [ .memory (.ofBits 3#7)
            (.cons (.ofBits 1#7) (by decide) onePage []) rfl,
          .other 7 (by decide) (.ofBits 11#7) [2, 1, 0x6d, 2, 0, 3, 0x61, 0, 0x62, 2, 0]
            rfl ] }
  imports := none
  exports := some ⟨.ofBits 2#7,
    [ ⟨shortName [0x6d] (by decide), .memory, .ofBits 0#7⟩,
      ⟨shortName [0x61, 0, 0x62] (by decide), .memory, .ofBits 0#7⟩ ], rfl⟩
  imports_eq := rfl
  exports_eq := rfl
  one_section := by decide
  one_memory := by decide
  export_memory := by simp [ModuleDecls.exportEntries]; decide

/-- The memory of an instance of these modules. -/
def onePageInst : MemoryInst := ⟨1, wasmPageSize, 8, by decide⟩

/-- The bindings make a `Module` of every slice that WAMR loads. -/
theorem exists_new {F : Type} {link : Linking} {usizeBits : Nat} {bytes : List UInt8}
    (hsize : bytes.length ≤ isizeMax usizeBits) (c : Process F) (e : Engine)
    (imports : List Import) :
    ∃ mo, (Module.new link usizeBits c e bytes (.ok imports)).2 = .ok mo := by
  unfold Module.new
  cases hp : parseMemoryType usizeBits bytes with
  | some ty => exact ⟨_, rfl⟩
  | none => exact ⟨_, rfl⟩
  | panic p => exact absurd hp (parseMemoryType_ne_panic (lt_two_pow_of_le_isizeMax hsize) p)

/-- The memory of `definingModule` is found under the name `"m"`. -/
theorem getMemory_exact_definingModule :
    ∃ mo, (Module.new wamrLink 64 (Process.init : Process Unit) ⟨0⟩ definingModule.binary.bytes
        (.ok [])).2 = .ok mo ∧
      getMemory definingModule.exportList (some onePageInst) mo.memoryType [0x6d]
        = .ok ⟨⟨1, none⟩⟩ := by
  have hsize : definingModule.binary.bytes.length ≤ isizeMax 64 := by decide
  obtain ⟨mo, hnew⟩ := exists_new hsize (Process.init : Process Unit) ⟨0⟩ []
  have hexported : ∃ x ∈ definingModule.exportList, x.kind = .memory ∧ x.name = [0x6d] :=
    ⟨⟨.memory, [0x6d]⟩, List.mem_cons_self, rfl, rfl⟩
  have hexact := (getMemory_exact_iff wamrLink 64 Process.init ⟨0⟩ definingModule hsize (.ok []) mo
    hnew (some onePageInst) (by decide) [0x6d]).mpr
      ⟨fun _ => by decide, fun hex => absurd hexported hex⟩
  obtain ⟨ty, hty, hget⟩ := hexact.1 hexported
  cases hty
  exact ⟨mo, hnew, hget⟩

/-- The memory that `reexportingModule` exports as `"m"` is not found. `nulModule` exports
nothing as `"a"`, and a memory is found. -/
theorem getMemory_inexact :
    (∃ mo, (Module.new wamrLink 64 (Process.init : Process Unit) ⟨0⟩ reexportingModule.binary.bytes
        (.ok [])).2 = .ok mo ∧
      (∃ x ∈ reexportingModule.exportList, x.kind = .memory ∧ x.name = [0x6d]) ∧
      getMemory reexportingModule.exportList (some onePageInst) mo.memoryType [0x6d]
        = .error (.memoryNotFound [0x6d])) ∧
    ∃ mo, (Module.new wamrLink 64 (Process.init : Process Unit) ⟨0⟩ nulModule.binary.bytes
        (.ok [])).2 = .ok mo ∧
      (¬ ∃ x ∈ nulModule.exportList, x.kind = .memory ∧ x.name = [0x61]) ∧
      getMemory nulModule.exportList (some onePageInst) mo.memoryType [0x61]
        = .ok ⟨⟨1, none⟩⟩ := by
  have hsize : reexportingModule.binary.bytes.length ≤ isizeMax 64 := by decide
  have hsize' : nulModule.binary.bytes.length ≤ isizeMax 64 := by decide
  obtain ⟨mo, hnew⟩ := exists_new hsize (Process.init : Process Unit) ⟨0⟩ []
  obtain ⟨mo', hnew'⟩ := exists_new hsize' (Process.init : Process Unit) ⟨0⟩ []
  refine ⟨⟨mo, hnew, ⟨⟨.memory, [0x6d]⟩, List.mem_cons_self, rfl, rfl⟩, ?_⟩,
    ⟨mo', hnew', ?_, ?_⟩⟩
  · rw [memoryType_of_new hsize hnew]
    rfl
  · rintro ⟨x, hx, -, hname⟩
    rcases List.mem_cons.mp hx with rfl | hx
    · cases hname
    · obtain rfl := List.mem_singleton.mp hx
      cases hname
  · rw [memoryType_of_new hsize' hnew']
    rfl

end Wamrx.Proofs
