import Wamrx.Memory
import Wamrx.WasmBinary

/-!
# `Wamrx.ModuleDecls`: the imports, the exports and the memory of a module

`WasmModule` keeps the payload of an import or export section as bytes. `AcceptedModule` is a module
that WAMR accepts, with these two sections read: which memories it imports and what it exports.
It has one memory at most, from the memory section or imported.
-/

set_option autoImplicit false

namespace Wamrx

open Support (LebU32)

/-- A name: a size, and that many bytes. -/
structure WasmName where
  size : LebU32
  text : List UInt8
  size_eq : size.value = text.length

def WasmName.bytes (n : WasmName) : List UInt8 := n.size.bytes ++ n.text

/-- What an import asks for. Only memories (kind 2) are looked at, the others are bytes. -/
inductive ImportDesc where
  | memory (limits : Limits)
  | other (kind : UInt8) (kind_ne : kind ≠ 2) (desc : List UInt8)

namespace ImportDesc

def bytes : ImportDesc → List UInt8
  | .memory limits => 2 :: limits.bytes
  | .other kind _ desc => kind :: desc

def memoryType? : ImportDesc → Option MemoryType
  | .memory limits => some limits.memoryType
  | .other _ _ _ => none

end ImportDesc

/-- One entry of an import section. -/
structure ImportEntry where
  moduleName : WasmName
  field : WasmName
  desc : ImportDesc

def ImportEntry.bytes (e : ImportEntry) : List UInt8 :=
  e.moduleName.bytes ++ (e.field.bytes ++ e.desc.bytes)

/-- The number of an `ExportKind` in the binary format. -/
def ExportKind.toUInt8 : ExportKind → UInt8
  | .func => 0
  | .table => 1
  | .memory => 2
  | .global => 3
  | .tag => 4

/-- One entry of an export section. -/
structure ExportEntry where
  name : WasmName
  kind : ExportKind
  index : LebU32

namespace ExportEntry

def bytes (e : ExportEntry) : List UInt8 := e.name.bytes ++ (e.kind.toUInt8 :: e.index.bytes)

def toExport (e : ExportEntry) : Export := ⟨e.kind, e.name.text⟩

end ExportEntry

/-- A count, and that many entries. -/
structure WasmVec (α : Type) where
  count : LebU32
  entries : List α
  count_eq : count.value = entries.length

def WasmVec.bytes {α : Type} (entryBytes : α → List UInt8) (v : WasmVec α) : List UInt8 :=
  v.count.bytes ++ v.entries.flatMap entryBytes

/-! ### Sections by their id -/

namespace WasmSection

def payload : WasmSection → List UInt8
  | .memory _ vec _ => vec.bytes
  | .other _ _ _ payload _ => payload

/-- How many memories the section defines. -/
def memoryCount : WasmSection → Nat
  | .memory _ (.empty count _ _) _ => count.value
  | .memory _ (.cons count _ _ _) _ => count.value
  | .other _ _ _ _ _ => 0

end WasmSection

namespace WasmModule

/-- The payloads of the sections with the id. -/
def payloads (m : WasmModule) (id : UInt8) : List (List UInt8) :=
  (m.sections.filter fun s => s.id = id).map WasmSection.payload

/-- How many memories the module defines. -/
def memoryCount (m : WasmModule) : Nat := m.sections.foldr (fun s n => s.memoryCount + n) 0

end WasmModule

/-! ### Accepted modules -/

/-- A module with its import and export sections. Each comes once at most. -/
structure ModuleDecls where
  binary : WasmModule
  imports : Option (WasmVec ImportEntry)
  exports : Option (WasmVec ExportEntry)
  imports_eq : binary.payloads 2 = (imports.map (WasmVec.bytes ImportEntry.bytes)).toList
  exports_eq : binary.payloads 7 = (exports.map (WasmVec.bytes ExportEntry.bytes)).toList

namespace ModuleDecls

/-- The types of the imported memories. -/
def importedMemories (m : ModuleDecls) : List MemoryType :=
  (m.imports.elim [] WasmVec.entries).filterMap fun e => e.desc.memoryType?

/-- How many memories the module has, imported and defined. -/
def memoryCount (m : ModuleDecls) : Nat := m.importedMemories.length + m.binary.memoryCount

/-- The type that the module declares for its first memory, in either section. -/
def memoryType? (m : ModuleDecls) : Option MemoryType :=
  (m.importedMemories ++ m.binary.declaredMemory.toList).head?

def exportEntries (m : ModuleDecls) : List ExportEntry := m.exports.elim [] WasmVec.entries

/-- The exports, as WAMR enumerates them. -/
def exportList (m : ModuleDecls) : List Export := m.exportEntries.map ExportEntry.toExport

end ModuleDecls

/-- A module that WAMR accepts: multi-memory is off, and an exported memory exists. -/
structure AcceptedModule extends ModuleDecls where
  one_section : (binary.payloads 5).length ≤ 1
  one_memory : toModuleDecls.memoryCount ≤ 1
  export_memory : ∀ e ∈ toModuleDecls.exportEntries, e.kind = .memory →
    e.index.value < toModuleDecls.memoryCount

end Wamrx
