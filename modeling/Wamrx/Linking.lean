import Mathlib.Data.List.Forall2
import Wamrx.Signature

/-!
# `Wamrx.Linking`: how WAMR links an import

When WAMR loads a module, it links each import to one of the registered symbols, or to none. WAMR
is not part of this repository, so its rule is a parameter (`Linking`), and so is its matcher for
signature strings (`Matcher`). The structures below say what a result needs to know about them.

`newestMatch` and `newestNamed` are two such rules. They differ when the newest symbol of a name has
a signature that does not match: the first goes on to an older symbol, the second leaves the import
unlinked. Runs on concrete inputs use them.
-/

set_option autoImplicit false

namespace Wamrx

/-- One import of a function. -/
structure Import where
  moduleName : Name
  fieldName : Name
  ty : ImportType
deriving DecidableEq, Repr

/-- What a registered symbol says: its module name, its own name, and its signature string. -/
structure SymbolView where
  moduleName : Name
  fieldName : Name
  signature : Name
deriving DecidableEq, Repr

/-- WAMR's rule: the place of the symbol that the import is linked to, among all registered
symbols, newest first. -/
abbrev Linking := List SymbolView → Import → Option Nat

/-- WAMR's matcher for the signature string of a symbol and the type of an import. -/
abbrev Matcher := Name → ImportType → Bool

/-- The element that the rule takes from a list of things that say what symbols say. -/
def Linking.pick {α : Type} (link : Linking) (view : α → SymbolView) (symbols : List α)
    (imp : Import) : Option α :=
  (link (symbols.map view) imp).bind fun i => symbols[i]?

namespace SymbolView

/-- The symbol has the names of the import. -/
def Named (s : SymbolView) (imp : Import) : Prop :=
  s.moduleName = imp.moduleName ∧ s.fieldName = imp.fieldName

instance (s : SymbolView) (imp : Import) : Decidable (s.Named imp) :=
  inferInstanceAs (Decidable (_ ∧ _))

end SymbolView

/-- A name without its leading underscores. -/
def bareName (name : Name) : Name := name.dropWhile (· = '_'.toUInt8)

/-! ### What the bindings rely on -/

/-- The strings that stand for the type of an import: an opening parenthesis, one character for
each parameter, a closing parenthesis, and the character of the result if there is one. -/
def ImportType.IsSignature (T : ImportType) (s : Name) : Prop :=
  ∃ params results, s = '('.toUInt8 :: params ++ ')'.toUInt8 :: results ∧
    List.Forall₂ (fun t c => t.acceptsParam c = true) T.params params ∧
    match T.results with
    | [] => results = []
    | [t] => ∃ c, t.char = some c ∧ results = [c]
    | _ :: _ :: _ => False

/-- The matcher accepts these strings and no others. -/
structure ReadsSignatures (accepts : Matcher) : Prop where
  accepts_iff : ∀ s T, accepts s T = true ↔ T.IsSignature s

/-- An import is linked only to a symbol whose signature was accepted for it. -/
structure LinksAccepted (accepts : Matcher) (link : Linking) : Prop where
  accepted : ∀ symbols imp s, link.pick id symbols imp = some s → accepts s.signature imp.ty = true

/-- The newest symbol gets the import, if it has its names and an accepted signature. -/
structure LinksNewest (accepts : Matcher) (link : Linking) : Prop where
  newest : ∀ s symbols imp, s.Named imp → accepts s.signature imp.ty = true →
    link (s :: symbols) imp = some 0

/-- An import is linked to the newest symbol with its module name, its field name and a matching
signature. -/
structure LinksNewestMatch (accepts : Matcher) (link : Linking) : Prop where
  link_eq : ∀ symbols imp, link symbols imp
    = symbols.findIdx? fun s => decide (s.Named imp) && accepts s.signature imp.ty

/-- Only the symbols of the import's module name and of its field name matter, where a leading
underscore makes no difference. The others may be left out. -/
structure LinksByName (link : Linking) : Prop where
  pick_filter : ∀ {α : Type} (view : α → SymbolView) (symbols : List α) (imp : Import),
    link.pick view symbols imp = link.pick view (symbols.filter fun a =>
      decide ((view a).moduleName = imp.moduleName ∧
        bareName (view a).fieldName = bareName imp.fieldName)) imp

/-! ### Two rules -/

/-- The newest symbol with the names of the import and a matching signature. -/
def newestMatch (accepts : Matcher) : Linking := fun symbols imp =>
  symbols.findIdx? fun s => decide (s.Named imp) && accepts s.signature imp.ty

/-- The newest symbol of the import's module name and of its field name, or of its field name
without one leading underscore. The import is linked to it if the signature is accepted, and
otherwise to none. -/
def newestNamed (accepts : Matcher) : Linking := fun symbols imp =>
  (symbols.findIdx? fun s => decide (s.moduleName = imp.moduleName ∧
    (s.fieldName = imp.fieldName ∨ '_'.toUInt8 :: s.fieldName = imp.fieldName))).filter fun i =>
      symbols[i]?.any fun s => accepts s.signature imp.ty

/-- The rules, with the executable matcher. -/
def matchLink : Linking := newestMatch acceptsSignature
def wamrLink : Linking := newestNamed acceptsSignature

end Wamrx
