import Wamrx.Proofs.Bindings
import Wamrx.Proofs.RegistryAccounting
import Wamrx.Proofs.SignatureStrings
import Wamrx.Proofs.TrampolineEffects

/-!
# `Wamrx.Proofs.LinkedImports`: signatures from the definition to the call

The signature string is written once, in `define_func`. When a module is loaded, WAMR compares it
with the type of an import (`LinksAccepted`), and from then on the trampoline decodes the slots of
the import by the type in the context.

* `boundTyped_run`: in every run, a linked import points at a context of exactly its type.
* `signatures_sound`: so the trampoline reads exactly the parameters of the import.
* `defined_usable_iff`: a `define_func` is refused, or the next module gets the function linked
  and its results delivered, exactly when the type has at most one result.
* `defined_unlinkable`: two results are accepted and never linked.
-/

set_option autoImplicit false

namespace Wamrx.Proofs

open Support

/-! ### The type behind a linked import -/

section

variable {F : Type} {accepts : Matcher} {link : Linking} {usizeBits : Nat} {w : World F}
  {c c' : Process F} {V : Multiset Owned}

/-- The import points at an old block, and the matcher accepts the signature string of a context
there. -/
def BoundTyped (accepts : Matcher) (c : Process F) (b : BoundImport) : Prop :=
  ∀ addr, b.attachment = some addr → addr < c.heap.next ∧
    ∀ ty func, c.heap.get? addr = some (.context ty func) →
      accepts ty.signatureCString b.target.ty = true

/-- A block keeps its contents until it is freed, and its address is not used again. -/
theorem BoundTyped.later {b : BoundImport} (h : BoundTyped accepts c b)
    (hlater : c.heap.Later c'.heap) : BoundTyped accepts c' b := by
  intro addr haddr
  obtain ⟨hlt, hty⟩ := h addr haddr
  refine ⟨Nat.lt_of_lt_of_le hlt hlater.next_le, fun ty func hcell => ?_⟩
  exact hty ty func (hlater.get?_old addr _ hlt hcell)

/-- The matcher has accepted the signature of an import that was just resolved. -/
theorem Inv.boundTyped_resolve (hlink : LinksAccepted accepts link) (h : Inv c V) (imp : Import) :
    BoundTyped accepts c (c.resolve link imp) := by
  intro addr haddr
  obtain ⟨ptr, n, v, hn, rfl, hv, hpick⟩ := h.resolve_shows haddr
  refine ⟨Arena.lt_next_of_get? hv.context, fun ty func hcell => ?_⟩
  rw [hv.context] at hcell
  cases hcell
  exact accepts_of_pick hlink hpick

/-- The imports of the modules in hand. -/
def ImportsTyped (accepts : Matcher) (w : World F) : Prop :=
  ∀ mo, Carried w mo → ∀ b ∈ w.proc.importsOf mo, BoundTyped accepts w.proc b

theorem importsTyped_init : ImportsTyped accepts (World.init : World F) := by
  rintro mo (⟨m, hm⟩ | ⟨i, ins, hi, -⟩)
  · simp [World.init] at hm
  · simp [World.init] at hi

theorem importsTyped_step (hlink : LinksAccepted accepts link) (w : World F) (op : Op F)
    (w' : World F) (h : Inv w.proc (valuesOf w)) (ht : ImportsTyped accepts w)
    (hs : w.step link usizeBits op = some w') : ImportsTyped accepts w' := by
  have h' := inv_step w op w' h hs
  have hfollows := step_follows w op w' h hs
  intro mo hmo b hmem
  rcases step_carried w op w' hs hmo with hold | ⟨bytes, imports, himports, hquiet⟩
  · rw [importsOf_eq hfollows (h.carried_loaded hold) (h'.carried_loaded hmo)] at hmem
    exact (ht mo hold b hmem).later hfollows.heap
  · -- A module that was just loaded.
    rw [himports] at hmem
    obtain ⟨imp, -, rfl⟩ := List.mem_map.mp hmem
    exact ((h.alloc _).boundTyped_resolve hlink imp).later hquiet.heap

/-- In every state of every run, linked imports have the types of their contexts. -/
theorem boundTyped_run (hlink : LinksAccepted accepts link) {ops : List (Op F)}
    (h : run (World.step link usizeBits) World.init ops = some w) : ImportsTyped accepts w := by
  refine (run_inv (fun w : World F => Inv w.proc (valuesOf w) ∧ ImportsTyped accepts w) ?_
    ⟨inv_init, importsTyped_init⟩ h).2
  intro w op w' ⟨hinv, ht⟩ hs
  exact ⟨inv_step w op w' hinv hs, importsTyped_step hlink w op w' hinv ht hs⟩

end

/-! ### What the trampoline reads -/

theorem HoldsArgs.append {vs : List Val} {argv : List (BitVec 64)} (h : HoldsArgs vs argv)
    (behind : List (BitVec 64)) : HoldsArgs vs (argv ++ behind) := by
  induction h with
  | nil rest => exact .nil _
  | cons v vs slot argv hslot _ ih => exact .cons _ _ _ _ hslot ih

/-- The trampoline reads exactly the parameters of an import of the type `T`: one slot for each,
at its own type, whatever is behind these slots. -/
structure ReadsParams {σ : Type} (ctx : HostFuncCtx σ) (T : ImportType) : Prop where
  params : T.params = ctx.ty.params.map ValType.toWamr
  results : T.results = ctx.ty.results.map ValType.toWamr
  reads : ∀ slots : List (BitVec 64), slots.length = T.params.length →
    ∃ vs : List Val, vs.map (fun v => v.ty.toWamr) = T.params ∧ HoldsArgs vs slots ∧
      ∀ behind s, (T.results ≠ [] → slots ++ behind ≠ []) →
        ∃ r s', rawTrampoline (some ctx) (slots ++ behind) s = some (r, s') ∧ r.called = some vs

/-- A context whose signature string was accepted for the import. -/
theorem readsParams_of_accepts {σ : Type} {accepts : Matcher} (hreads : ReadsSignatures accepts)
    {ctx : HostFuncCtx σ} {T : ImportType} (h : accepts ctx.ty.signatureCString T = true) :
    ReadsParams ctx T := by
  obtain ⟨rfl, hone⟩ := (accepts_signatureCString hreads ctx.ty T).mp h
  refine ⟨rfl, rfl, fun slots hlen => ?_⟩
  obtain ⟨vs, htys, hargs⟩ := exists_holdsArgs ctx.ty.params slots
    (by simpa [FuncType.importType] using Nat.le_of_eq hlen.symm)
  refine ⟨vs, ?_, hargs, fun behind s hslot => ?_⟩
  · show vs.map (ValType.toWamr ∘ Val.ty) = ctx.ty.params.map ValType.toWamr
    rw [← htys, List.map_map]
  · obtain ⟨r, hr, heffect⟩ := effect_of_holds htys (hargs.append behind) hone fun hne =>
      hslot (by simpa [FuncType.importType] using hne)
    exact ⟨r, _, hr, heffect.called⟩

/-- Signature strings make the decoding of the trampoline sound. The string of a type determines
the type. A matcher that reads signature strings accepts it for an import of exactly that type only.
So in every state of every run, whenever the trampoline runs for an import of a live instance (it
finds a context behind the attachment pointer), it reads exactly the parameters of the import. -/
theorem signatures_sound {σ : Type} (accepts : Matcher) (hreads : ReadsSignatures accepts)
    (link : Linking) (hlink : LinksAccepted accepts link) (usizeBits : Nat)
    (ops : List (Op (HostFunc σ))) (w : World (HostFunc σ))
    (h : run (World.step link usizeBits) World.init ops = some w) :
    Function.Injective FuncType.signatureCString ∧
    (∀ (ty : FuncType) (T : ImportType), accepts ty.signatureCString T = true →
      T.params = ty.params.map ValType.toWamr ∧ T.results = ty.results.map ValType.toWamr) ∧
    ∀ i ins b addr ty func, w.instances.get? i = some ins → b ∈ w.proc.importsOf ins.module →
      b.attachment = some addr → w.proc.heap.get? addr = some (.context ty func) →
      ReadsParams ⟨ty, func⟩ b.target.ty := by
  refine ⟨signatureCString_injective, fun ty T haccept => ?_, ?_⟩
  · obtain ⟨rfl, -⟩ := (accepts_signatureCString hreads ty T).mp haccept
    exact ⟨rfl, rfl⟩
  · intro i ins b addr ty func hi hb haddr hcell
    have hbound := boundTyped_run hlink h ins.module (Or.inr ⟨i, ins, hi, rfl⟩) b hb
    exact readsParams_of_accepts hreads ((hbound addr haddr).2 ty func hcell)

/-- A host function that leaves its results at zero. -/
def returnsZeros : HostFunc Unit := ⟨fun _ results s => (⟨results, false⟩, s), fun _ _ _ => rfl⟩

/-- A host function of mixed types is defined, a module that imports it is loaded and
instantiated. -/
def mixedRun : List (Op (HostFunc Unit)) :=
  [.engineNew true, .linkerNew 0,
    .defineFunc 0 [0x6d] [0x66] ⟨[.i32, .f64], [.i64]⟩ returnsZeros true,
    .moduleNew 0 [] (.ok [⟨[0x6d], [0x66], ⟨[.i32, .f64], [.i64]⟩⟩]), .instantiate 0 0 .ok]

theorem signatures_sound_mixedRun :
    ∃ w, run (World.step wamrLink 64) World.init mixedRun = some w ∧
      ReadsParams ⟨⟨[.i32, .f64], [.i64]⟩, returnsZeros⟩ ⟨[.i32, .f64], [.i64]⟩ := by
  obtain ⟨w, hw⟩ := Option.isSome_iff_exists.mp
    (show (run (World.step wamrLink 64) World.init mixedRun).isSome by rfl)
  -- The context is the fourth block of the entry.
  have hlook : (run (World.step wamrLink 64) World.init mixedRun).bind (fun w =>
      (w.instances.get? 0).bind fun ins => some (w.proc.importsOf ins.module,
        w.proc.heap.get? 3)) = some ([⟨⟨[0x6d], [0x66], ⟨[.i32, .f64], [.i64]⟩⟩, some 3⟩],
          some (.context ⟨[.i32, .f64], [.i64]⟩ returnsZeros)) := rfl
  rw [hw, Option.bind_some] at hlook
  obtain ⟨ins, hi, hlook⟩ := Option.bind_eq_some_iff.mp hlook
  rw [Option.some.injEq, Prod.mk.injEq] at hlook
  exact ⟨w, hw, (signatures_sound acceptsSignature acceptsSignature_reads wamrLink
    (newestNamed_accepted _) 64 mixedRun w hw).2.2 0 ins _ 3 _ _ hi
      (by rw [hlook.1]; exact List.mem_singleton_self _) rfl hlook.2⟩

/-! ### Functions that can be used -/

/-- What Wasm reads back from the slots: one result at most, from slot 0. -/
def resultsIn (tys : List ValType) (argv : List (BitVec 64)) : List Val :=
  match tys, argv with
  | ty :: _, slot :: _ => [Val.fromRawSlot ty slot]
  | _, _ => []

/-- Every declared result reaches Wasm, whenever the closure returns normally and leaves values of
the declared types. -/
def Delivers {σ : Type} (ctx : HostFuncCtx σ) : Prop :=
  ∀ vs argv out s s', vs.map Val.ty = ctx.ty.params → HoldsArgs vs argv → argv ≠ [] →
    ctx.func.run vs (zeros ctx.ty) s = (⟨out, false⟩, s') → out.map Val.ty = ctx.ty.results →
    ∃ r, rawTrampoline (some ctx) argv s = some (r, s') ∧ r.exception = none ∧
      resultsIn ctx.ty.results r.argv = out

theorem delivers_of_le_one {σ : Type} {ctx : HostFuncCtx σ} (hone : ctx.ty.results.length ≤ 1) :
    Delivers ctx := by
  intro vs argv out s s' htys hargs hslot hrun hout
  have hpanic : (ctx.func.run vs (zeros ctx.ty) s).1.panicked = false := by rw [hrun]
  cases out with
  | nil =>
    have hres : ctx.ty.results = [] := hout.symm
    refine ⟨⟨argv, some vs, none⟩, ?_, rfl, by rw [hres]; rfl⟩
    rw [rawTrampoline_of_nil htys hargs hpanic hres, hrun]
  | cons v out =>
    refine ⟨_, rawTrampoline_of_cons htys hargs hrun hslot, rfl, ?_⟩
    -- At most one result, so slot 0 is the whole of it.
    have hnil : out = [] := by
      rw [← hout, List.length_map, List.length_cons] at hone
      exact List.eq_nil_of_length_eq_zero (by omega)
    subst hnil
    rw [← hout]
    exact congrArg (fun u => [u]) (fromRawSlot_of_agrees v (by cases v <;> rfl))

/-- Loading a module adds one block to the heap. -/
theorem newModule_heap {F : Type} {link : Linking} {usizeBits : Nat} {c : Process F} {e : Engine}
    {bytes : List UInt8} {imports : List Import} {mo : Module}
    (h : (Module.new link usizeBits c e bytes (.ok imports)).2 = .ok mo) :
    (Module.new link usizeBits c e bytes (.ok imports)).1.heap = c.heap.push (.bytes bytes) := by
  unfold Module.new at h ⊢
  simp only at h ⊢
  split at h
  · rfl
  · rfl
  · cases h

/-- A module that is loaded next gets this import linked to a context of the function. -/
def LinkedNext {F : Type} (link : Linking) (usizeBits : Nat) (c : Process F) (imp : Import)
    (ty : FuncType) (func : F) : Prop :=
  ∀ e bytes imports mo, (Module.new link usizeBits c e bytes (.ok imports)).2 = .ok mo →
    ∀ k : Nat, imports[k]? = some imp →
      let c' := (Module.new link usizeBits c e bytes (.ok imports)).1
      ∃ addr, (c'.importsOf mo)[k]? = some ⟨imp, some addr⟩ ∧
        c'.heap.get? addr = some (.context ty func)

/-- `define_func` refuses the function and registers nothing, or the function can be used: the
next module gets it linked, and all its results are delivered. -/
def DefinedUsable {σ : Type} (link : Linking) (usizeBits : Nat) (c : Process (HostFunc σ))
    (l : Linker) (module name : Name) (ty : FuncType) (func : HostFunc σ) (registerOk : Bool) :
    Prop :=
  let r := l.defineFunc c module name ty func registerOk
  (∃ err, r.2 = .error err ∧ r.1.registry = c.registry ∧ r.1.states = c.states) ∨
    (r.2 = .ok () ∧ LinkedNext link usizeBits r.1 ⟨module, name, ty.importType⟩ ty func ∧
      Delivers ⟨ty, func⟩)

section

variable {F : Type} {c : Process F} {V : Multiset Owned} {accepts : Matcher} {link : Linking}
  {usizeBits : Nat}

/-- The symbol that was registered last is taken first. -/
theorem resolve_defined (hreads : ReadsSignatures accepts) (hnewest : LinksNewest accepts link)
    {ptr : Nat} {s : LinkerState} {module name : Name} {ty : FuncType} {func : F}
    (hv : Shows (defined c ptr s module name ty func) (entryAt c.heap.next)
      ⟨module, name, ty, func⟩)
    (hone : ty.results.length ≤ 1) :
    ((defined c ptr s module name ty func).resolve link ⟨module, name, ty.importType⟩).attachment
      = some (entryAt c.heap.next).context := by
  have haccept := (accepts_signatureCString hreads ty ty.importType).mpr ⟨rfl, hone⟩
  have hpick := fun symbols : List (SymbolView × Nat) => pick_newest hnewest Prod.fst
    (⟨module, name, ty.signatureCString⟩, (entryAt c.heap.next).context) symbols
    ⟨module, name, ty.importType⟩ ⟨rfl, rfl⟩ haccept
  unfold Process.resolve Process.symbols
  rw [defined_registry, List.filterMap_cons_some hv.symbolAt]
  exact congrArg (Option.map Prod.snd) (hpick _)

/-- An import with several results is never linked. -/
theorem resolve_of_several (hreads : ReadsSignatures accepts) (hlink : LinksAccepted accepts link)
    (h : Inv c V) (imp : Import) (hres : 1 < imp.ty.results.length) :
    (c.resolve link imp).attachment = none := by
  cases hattach : (c.resolve link imp).attachment with
  | none => rfl
  | some addr =>
    obtain ⟨ptr, n, v, -, -, -, hpick⟩ := h.resolve_shows hattach
    obtain ⟨hty, hone⟩ := (accepts_signatureCString hreads v.ty imp.ty).mp
      (accepts_of_pick hlink hpick)
    rw [hty, FuncType.importType, List.length_map] at hres
    omega

/-- A module that was just loaded has its imports resolved in the state before. -/
theorem newModule_import (h : Inv c V) {e : Engine} {bytes : List UInt8} {imports : List Import}
    {mo : Module} (hmo : (Module.new link usizeBits c e bytes (.ok imports)).2 = .ok mo) {k : Nat}
    {imp : Import} (hk : imports[k]? = some imp) :
    ((Module.new link usizeBits c e bytes (.ok imports)).1.importsOf mo)[k]?
      = some (c.resolve link imp) := by
  obtain ⟨imports', heq, himports, -⟩ := newModule_ok hmo
  cases heq
  rw [himports, List.getElem?_map, hk, Option.map_some, h.resolve_alloc]

/-- A `define_func` that is accepted: the function can be used exactly when its type has at most
one result. -/
theorem linkedNext_iff (hreads : ReadsSignatures accepts) (hlink : LinksAccepted accepts link)
    (hnewest : LinksNewest accepts link) (usizeBits : Nat) (h : Inv c V) {l : Linker}
    (hl : l.state ∈ stateRefsOf V) {module name : Name} {ty : FuncType} {func : F}
    {registerOk : Bool}
    {b : RcBox LinkerState} (hb : c.states.get? l.state = some b)
    (hdef : l.defineFunc c module name ty func registerOk
      = (defined c l.state b.val module name ty func, .ok ())) :
    LinkedNext link usizeBits (defined c l.state b.val module name ty func)
      ⟨module, name, ty.importType⟩ ty func ↔ ty.results.length ≤ 1 := by
  have hinv := h.defineFunc hl module name ty func registerOk
  rw [hdef] at hinv
  constructor
  · -- A module of no bytes that imports nothing else shows that the import is not linked.
    intro hlinked
    refine Nat.not_lt.mp fun hseveral => ?_
    obtain ⟨addr, himport, -⟩ := hlinked ⟨0⟩ [] [⟨module, name, ty.importType⟩] _
      (by simp [Module.new, parseMemoryType]; rfl) 0 rfl
    rw [newModule_import hinv (by simp [Module.new, parseMemoryType]) rfl,
      Option.some.injEq] at himport
    have hnone := resolve_of_several hreads hlink hinv ⟨module, name, ty.importType⟩
      (by simpa [FuncType.importType] using hseveral)
    rw [himport] at hnone
    cases hnone
  · intro hone e bytes imports mo hmo k hk
    have hmem : entryAt c.heap.next
        ∈ entriesOf (defined c l.state b.val module name ty func) l.state := by
      rw [entriesOf_defined c hb, if_pos rfl]
      exact List.mem_append_right _ (List.mem_singleton_self _)
    have hv := shows_defined c (hinv.entry_ok hmem)
    have hresolve := resolve_defined hreads hnewest hv hone
    refine ⟨(entryAt c.heap.next).context, ?_, ?_⟩
    · rw [newModule_import hinv hmo hk, ← hresolve]
      rfl
    · rw [newModule_heap hmo]
      exact Arena.get?_push_of_some _ hv.context

end

/-- For every state of every run, every live linker and every definition: the definition is
refused and registers nothing, or the next module gets the function linked and its results are
delivered, exactly when it is refused (a name has a NUL, or WAMR does not register it) or the type
has at most one result. The matcher reads signature strings, an import is linked only to a symbol
that it accepts, and the newest symbol of its names comes first. -/
theorem defined_usable_iff {σ : Type} (accepts : Matcher) (hreads : ReadsSignatures accepts)
    (link : Linking) (hlink : LinksAccepted accepts link) (hnewest : LinksNewest accepts link)
    (usizeBits : Nat) (ops : List (Op (HostFunc σ))) (w : World (HostFunc σ))
    (h : run (World.step link usizeBits) World.init ops = some w) (l : Nat) (li : Linker)
    (hl : w.linkers.get? l = some li) (module name : Name) (ty : FuncType) (func : HostFunc σ)
    (registerOk : Bool) :
    DefinedUsable link usizeBits w.proc li module name ty func registerOk ↔
      (0 ∈ module ∨ 0 ∈ name ∨ registerOk = false) ∨ ty.results.length ≤ 1 := by
  have hinv := inv_run h
  have hptr := mem_stateRefsOf_valuesOf.mpr (Or.inl ⟨l, li, hl, rfl⟩)
  unfold DefinedUsable
  rcases defineFunc_cases hinv hptr module name ty func registerOk with
    ⟨err, hwhy, hdef, -⟩ | ⟨b, hm, hn, hok, hb, hdef⟩
  · have herr : (li.defineFunc w.proc module name ty func registerOk).2 = .error err := by rw [hdef]
    exact iff_of_true (Or.inl ⟨err, herr, defineFunc_error hinv hptr herr⟩) (Or.inl hwhy)
  · have hlinked := linkedNext_iff hreads hlink hnewest usizeBits hinv hptr hb hdef
    have hwhy : ¬ (0 ∈ module ∨ 0 ∈ name ∨ registerOk = false) := by simp [hm, hn, hok]
    rw [hdef]
    constructor
    · rintro (⟨err, herr, -⟩ | ⟨-, hnext, -⟩)
      · cases herr
      · exact Or.inr (hlinked.mp hnext)
    · rintro (hbad | hone)
      · exact absurd hbad hwhy
      · exact Or.inr ⟨rfl, hlinked.mpr hone, delivers_of_le_one hone⟩

/-- A linker, and nothing defined on it. -/
def linkerRun : List (Op (HostFunc Unit)) := [.engineNew true, .linkerNew 0]

theorem defined_usable_linkerRun :
    ∃ w li, run (World.step wamrLink 64) World.init linkerRun = some w ∧
      w.linkers.get? 0 = some li ∧
      DefinedUsable wamrLink 64 w.proc li [0x6d] [0x66] ⟨[.i32], [.f32]⟩ returnsZeros true := by
  obtain ⟨w, hw⟩ := Option.isSome_iff_exists.mp
    (show (run (World.step wamrLink 64) World.init linkerRun).isSome by rfl)
  have hlinker : (run (World.step wamrLink 64) World.init linkerRun).bind (·.linkers.get? 0)
      = some ⟨0⟩ := rfl
  rw [hw, Option.bind_some] at hlinker
  exact ⟨w, ⟨0⟩, hw, hlinker, (defined_usable_iff acceptsSignature acceptsSignature_reads wamrLink
    (newestNamed_accepted _) (newestNamed_newest _) 64 linkerRun w hw 0 ⟨0⟩ hlinker _ _ _ _ _).mpr
      (Or.inr (by decide))⟩

/-- A function of two results is accepted, and the import of exactly its type stays unlinked in a
module that is loaded next. -/
theorem defined_unlinkable :
    ∃ w, run (World.step wamrLink 64) World.init linkerRun = some w ∧
      let r := (⟨0⟩ : Linker).defineFunc w.proc [0x6d] [0x66] ⟨[], [.i32, .i32]⟩ returnsZeros true
      r.2 = .ok () ∧
        (r.1.resolve wamrLink ⟨[0x6d], [0x66], ⟨[], [.i32, .i32]⟩⟩).attachment = none ∧
        ¬ DefinedUsable wamrLink 64 w.proc ⟨0⟩ [0x6d] [0x66] ⟨[], [.i32, .i32]⟩ returnsZeros
          true := by
  obtain ⟨w, hw⟩ := Option.isSome_iff_exists.mp
    (show (run (World.step wamrLink 64) World.init linkerRun).isSome by rfl)
  have hlinker : (run (World.step wamrLink 64) World.init linkerRun).bind (·.linkers.get? 0)
      = some ⟨0⟩ := rfl
  rw [hw, Option.bind_some] at hlinker
  have hptr := mem_stateRefsOf_valuesOf.mpr (Or.inl ⟨0, ⟨0⟩, hlinker, rfl⟩)
  have haccepted : LinksAccepted acceptsSignature wamrLink := newestNamed_accepted _
  refine ⟨w, hw, ?_⟩
  rcases defineFunc_cases (inv_run hw) hptr [0x6d] [0x66] ⟨[], [.i32, .i32]⟩ returnsZeros true with
    ⟨err, hwhy, -, -⟩ | ⟨b, -, -, -, hb, hdef⟩
  · exact absurd hwhy (by decide)
  · have hinv := (inv_run hw).defineFunc hptr [0x6d] [0x66] ⟨[], [.i32, .i32]⟩ returnsZeros true
    have hlinked := linkedNext_iff acceptsSignature_reads haccepted (newestNamed_newest _) 64
      (inv_run hw) hptr hb hdef
    refine ⟨by rw [hdef],
      resolve_of_several acceptsSignature_reads haccepted hinv _ (by decide), ?_⟩
    rintro (⟨err, herr, -⟩ | ⟨-, hnext, -⟩)
    · rw [hdef] at herr
      cases herr
    · rw [hdef] at hnext
      exact absurd (hlinked.mp hnext) (by decide)

end Wamrx.Proofs
