import Wamrx.Proofs.Codecs
import Wamrx.Trampoline

/-!
# `Wamrx.Proofs.TrampolineEffects`: what the trampoline does to the slots

Slot 0 is the first argument and the place of the result. `HoldsArgs vs argv` says that the slots
hold the arguments `vs`, and the three rules for `rawTrampoline` say what is in the slots after a
closure that panicked, that has no result, and that has one.

* `trampoline_effect`: the slots and the exception, for every closure and every `argv`.
* `host_result_typed_iff`: the trampoline lets a result of another type into Wasm exactly when
  the closure leaves one.
* `host_result_reinterpreted`: a float under an integer signature.
-/

set_option autoImplicit false

namespace Wamrx.Proofs

/-! ### Arguments in slots -/

/-- The slots hold the arguments, one slot for each. What follows them is arbitrary. -/
inductive HoldsArgs : List Val → List (BitVec 64) → Prop where
  | nil (behind : List (BitVec 64)) : HoldsArgs [] behind
  | cons (v : Val) (vs : List Val) (slot : BitVec 64) (argv : List (BitVec 64)) :
      Agrees v.ty slot v.toRawSlot → HoldsArgs vs argv → HoldsArgs (v :: vs) (slot :: argv)

/-- The trampoline decodes exactly the arguments that the slots hold. -/
theorem decodeParams_of_holds {vs : List Val} {argv : List (BitVec 64)}
    (h : HoldsArgs vs argv) : decodeParams (vs.map Val.ty) argv = some vs := by
  induction h with
  | nil behind => rfl
  | cons v vs slot argv hslot _ ih =>
    simp only [List.map_cons, decodeParams]
    rw [ih, fromRawSlot_of_agrees v hslot]
    rfl

/-- A decoded slot holds the value it was decoded to. -/
theorem agrees_fromRawSlot (ty : ValType) (slot : BitVec 64) :
    Agrees ty slot (Val.fromRawSlot ty slot).toRawSlot := by
  cases ty with
  | i32 => exact (setWidth_setWidth_low (slot.setWidth 32)).symm
  | i64 => rfl
  | f32 => exact (setWidth_setWidth_low (slot.setWidth 32)).symm
  | f64 => rfl

theorem ty_fromRawSlot (ty : ValType) (slot : BitVec 64) : (Val.fromRawSlot ty slot).ty = ty := by
  cases ty <;> rfl

/-- Any slots hold some arguments of the declared types, when there are enough of them. -/
theorem exists_holdsArgs (tys : List ValType) (argv : List (BitVec 64))
    (h : tys.length ≤ argv.length) : ∃ vs, vs.map Val.ty = tys ∧ HoldsArgs vs argv := by
  induction tys generalizing argv with
  | nil => exact ⟨[], rfl, .nil argv⟩
  | cons ty tys ih =>
    cases argv with
    | nil => simp at h
    | cons slot argv =>
      obtain ⟨vs, htys, hvs⟩ := ih argv (by simpa using h)
      have hty := ty_fromRawSlot ty slot
      refine ⟨Val.fromRawSlot ty slot :: vs, by rw [List.map_cons, hty, htys], ?_⟩
      exact .cons _ _ _ _ (by rw [hty]; exact agrees_fromRawSlot ty slot) hvs

/-! ### The trampoline -/

/-- The zeros of the declared results, which the closure finds in its slice. -/
def zeros (ty : FuncType) : List Val := ty.results.map ValType.defaultValue

theorem ty_zeros (ty : FuncType) : (zeros ty).map Val.ty = ty.results := by
  have hty : Val.ty ∘ ValType.defaultValue = id := funext fun t => by cases t <;> rfl
  rw [zeros, List.map_map, hty, List.map_id]

variable {σ : Type} {ctx : HostFuncCtx σ} {vs : List Val} {argv : List (BitVec 64)} {s s' : σ}

/-- A closure that panics leaves the slots alone, whatever it wrote before. -/
theorem rawTrampoline_of_panic (htys : vs.map Val.ty = ctx.ty.params) (hargs : HoldsArgs vs argv)
    (hpanic : (ctx.func.run vs (zeros ctx.ty) s).1.panicked = true) :
    rawTrampoline (some ctx) argv s = some (⟨argv, some vs, some hostFunctionPanicked⟩,
      (ctx.func.run vs (zeros ctx.ty) s).2) := by
  have hdecode := decodeParams_of_holds hargs
  rw [htys] at hdecode
  simp only [rawTrampoline, hdecode, Option.bind_eq_bind, Option.bind_some]
  exact if_pos hpanic

/-- A closure without results leaves the slots alone. -/
theorem rawTrampoline_of_nil (htys : vs.map Val.ty = ctx.ty.params) (hargs : HoldsArgs vs argv)
    (hpanic : (ctx.func.run vs (zeros ctx.ty) s).1.panicked = false) (hres : ctx.ty.results = []) :
    rawTrampoline (some ctx) argv s
      = some (⟨argv, some vs, none⟩, (ctx.func.run vs (zeros ctx.ty) s).2) := by
  have hdecode := decodeParams_of_holds hargs
  rw [htys] at hdecode
  have hout : (ctx.func.run vs (zeros ctx.ty) s).1.results = [] := by
    apply List.eq_nil_of_length_eq_zero
    rw [ctx.func.length_results, zeros, hres]
    rfl
  simp only [rawTrampoline, hdecode, Option.bind_eq_bind, Option.bind_some]
  rw [show ctx.ty.results.map ValType.defaultValue = zeros ctx.ty from rfl,
    if_neg (by simp [hpanic]), hout]
  rfl

/-- A closure with results: slot 0 gets the first one, of whatever type it is. -/
theorem rawTrampoline_of_cons (htys : vs.map Val.ty = ctx.ty.params) (hargs : HoldsArgs vs argv)
    {v : Val} {out : List Val} (hrun : ctx.func.run vs (zeros ctx.ty) s = (⟨v :: out, false⟩, s'))
    (hslot : argv ≠ []) :
    rawTrampoline (some ctx) argv s
      = some (⟨v.toRawSlot :: argv.tail, some vs, none⟩, s') := by
  have hdecode := decodeParams_of_holds hargs
  rw [htys] at hdecode
  cases argv with
  | nil => exact absurd rfl hslot
  | cons slot argv =>
    simp only [rawTrampoline, hdecode, Option.bind_eq_bind, Option.bind_some]
    rw [show ctx.ty.results.map ValType.defaultValue = zeros ctx.ty from rfl, hrun]
    rfl

/-- What a closure of a declared result leaves in the slice, when it returns. -/
theorem exists_head_results (vs : List Val) {t : ValType} (hres : ctx.ty.results = [t]) :
    ∃ v, (ctx.func.run vs (zeros ctx.ty) s).1.results = [v] := by
  apply List.length_eq_one_iff.mp
  rw [ctx.func.length_results, zeros, hres]
  rfl

/-- The effect of the trampoline on the slots and on the exception of the calling instance, when
the closure was called with `vs` in the state `s`. -/
structure TrampolineEffect (ctx : HostFuncCtx σ) (vs : List Val) (argv : List (BitVec 64)) (s : σ)
    (r : TrampolineRun) : Prop where
  called : r.called = some vs
  panicked : (ctx.func.run vs (zeros ctx.ty) s).1.panicked = true →
    r.argv = argv ∧ r.exception = some hostFunctionPanicked
  returned : (ctx.func.run vs (zeros ctx.ty) s).1.panicked = false →
    r.exception = none ∧ r.argv.length = argv.length ∧ ∀ i, i ≠ 0 → r.argv[i]? = argv[i]?
  no_result : (ctx.func.run vs (zeros ctx.ty) s).1.panicked = false → ctx.ty.results = [] →
    r.argv = argv
  /-- Slot 0 encodes what is finally in `results[0]`. -/
  result : (ctx.func.run vs (zeros ctx.ty) s).1.panicked = false → ∀ t, ctx.ty.results = [t] →
    ∃ v, (ctx.func.run vs (zeros ctx.ty) s).1.results = [v] ∧ r.argv[0]? = some v.toRawSlot
  /-- A closure that never wrote its result returns the zero of the declared type. -/
  unwritten : (ctx.func.run vs (zeros ctx.ty) s).1.panicked = false → ∀ t, ctx.ty.results = [t] →
    (ctx.func.run vs (zeros ctx.ty) s).1.results = zeros ctx.ty →
    r.argv[0]? = some t.defaultValue.toRawSlot

/-- The three rules, put together for one result at most. -/
theorem effect_of_holds (htys : vs.map Val.ty = ctx.ty.params) (hargs : HoldsArgs vs argv)
    (hone : ctx.ty.results.length ≤ 1) (hslot : ctx.ty.results ≠ [] → argv ≠ []) :
    ∃ r, rawTrampoline (some ctx) argv s = some (r, (ctx.func.run vs (zeros ctx.ty) s).2) ∧
      TrampolineEffect ctx vs argv s r := by
  cases hpanic : (ctx.func.run vs (zeros ctx.ty) s).1.panicked with
  | true =>
    refine ⟨_, rawTrampoline_of_panic htys hargs hpanic, rfl, fun _ => ⟨rfl, rfl⟩, ?_, ?_, ?_, ?_⟩
    all_goals
      intro h
      rw [hpanic] at h
      cases h
  | false =>
    have hnot : ∀ {P : Prop}, (ctx.func.run vs (zeros ctx.ty) s).1.panicked = true → P := by
      intro P h
      rw [hpanic] at h
      cases h
    cases hres : ctx.ty.results with
    | nil =>
      refine ⟨_, rawTrampoline_of_nil htys hargs hpanic hres, rfl, hnot,
        fun _ => ⟨rfl, rfl, fun _ _ => rfl⟩, fun _ _ => rfl, ?_, ?_⟩
      all_goals
        intro _ t ht
        rw [hres] at ht
        cases ht
    | cons t ts =>
      have hts : ts = [] := by
        rw [hres, List.length_cons] at hone
        exact List.eq_nil_of_length_eq_zero (by omega)
      rw [hts] at hres
      obtain ⟨v, hv⟩ := exists_head_results vs hres
      have hrun : ctx.func.run vs (zeros ctx.ty) s
          = (⟨[v], false⟩, (ctx.func.run vs (zeros ctx.ty) s).2) := by
        rw [← hv, ← hpanic]
      have hne := hslot (by simp [hres])
      refine ⟨_, rawTrampoline_of_cons htys hargs hrun hne, rfl, hnot, fun _ => ⟨rfl, ?_, ?_⟩,
        fun _ hnil => ?_, fun _ t' _ => ⟨v, hv, rfl⟩, fun _ t' ht' hzero => ?_⟩
      · have := List.length_pos_iff.mpr hne
        rw [List.length_cons, List.length_tail]
        omega
      · -- Only slot 0 is written.
        intro i hi
        obtain ⟨i, rfl⟩ := Nat.exists_eq_succ_of_ne_zero hi
        simp
      · rw [hres] at hnil
        cases hnil
      · rw [hres] at ht'
        cases ht'
        rw [hv, zeros, hres] at hzero
        cases hzero
        rfl

/-- For every context of one result at most, every `argv` with a slot for each parameter (and one
for the result), every closure and every state: the closure is called once, with one argument of the
declared type for each parameter and a slice of one zero for each result. The trampoline does not
unwind, it leaves the state to the closure, and the slots and the exception are as
`TrampolineEffect` says. -/
theorem trampoline_effect {σ : Type} (ctx : HostFuncCtx σ) (argv : List (BitVec 64)) (s : σ)
    (hone : ctx.ty.results.length ≤ 1) (hparams : ctx.ty.params.length ≤ argv.length)
    (hslot : ctx.ty.results ≠ [] → argv ≠ []) :
    ∃ vs r, vs.map Val.ty = ctx.ty.params ∧ HoldsArgs vs argv ∧
      (zeros ctx.ty).map Val.ty = ctx.ty.results ∧
      rawTrampoline (some ctx) argv s = some (r, (ctx.func.run vs (zeros ctx.ty) s).2) ∧
      TrampolineEffect ctx vs argv s r := by
  obtain ⟨vs, htys, hargs⟩ := exists_holdsArgs ctx.ty.params argv hparams
  obtain ⟨r, hr, heffect⟩ := effect_of_holds htys hargs hone hslot
  exact ⟨vs, r, htys, hargs, ty_zeros ctx.ty, hr, heffect⟩

/-- A host function of an `f64` and an `i32` that writes its result and then panics on a negative
second argument. Its state counts the calls. -/
def writesThenPanics : HostFuncCtx Nat where
  ty := ⟨[.f64, .i32], [.i64]⟩
  func :=
    { run := fun params results n =>
        (⟨results.map fun _ => .i64 7, decide (params[1]? = some (.i32 (-1)))⟩, n + 1)
      length_results := fun _ _ _ => List.length_map _ }

/-- The panic comes after the write, and the slots are as they were. -/
theorem trampoline_effect_writesThenPanics :
    ∃ r, rawTrampoline (some writesThenPanics) [1, 0xffffffff, 5] 2 = some (r, 3) ∧
      r.argv = [1, 0xffffffff, 5] ∧ r.exception = some hostFunctionPanicked := by
  obtain ⟨vs, r, htys, hargs, -, hr, heffect⟩ := trampoline_effect writesThenPanics
    [1, 0xffffffff, 5] 2 (by decide) (by decide) (fun _ => by decide)
  have hvs : vs = [.f64 1, .i32 (-1)] := by
    have hdecode := decodeParams_of_holds hargs
    rw [htys] at hdecode
    exact (Option.some.inj hdecode).symm
  subst hvs
  exact ⟨r, hr, heffect.panicked rfl⟩

/-! ### Results of the wrong type -/

/-- What Wasm is promised about a result of the type `t`, when the closure left `out` behind. -/
structure ResultTyped (t : ValType) (out : HostRun) (r : TrampolineRun) : Prop where
  /-- Without an exception, slot 0 encodes a value of the declared type. -/
  returned : r.exception = none →
    ∃ v, out.results.head? = some v ∧ v.ty = t ∧ r.argv.head? = some v.toRawSlot
  /-- A value of another type makes the call fail. -/
  refused : ∀ v, out.results.head? = some v → v.ty ≠ t → r.exception ≠ none

/-- The closure, called with `vs`, panics or leaves values of the declared types. -/
def LeavesDeclared (ctx : HostFuncCtx σ) (vs : List Val) (s : σ) : Prop :=
  (ctx.func.run vs (zeros ctx.ty) s).1.panicked = true ∨
    (ctx.func.run vs (zeros ctx.ty) s).1.results.map Val.ty = ctx.ty.results

/-- For every type with one result, every closure, every state and all arguments: the result that
Wasm gets is of the declared type, or the call fails, exactly when the closure panics or leaves a
value of the declared type. -/
theorem host_result_typed_iff {σ : Type} (ctx : HostFuncCtx σ) (s : σ) (t : ValType)
    (hres : ctx.ty.results = [t]) (vs : List Val) (argv : List (BitVec 64))
    (htys : vs.map Val.ty = ctx.ty.params) (hargs : HoldsArgs vs argv) (hslot : argv ≠ []) :
    ∃ r, rawTrampoline (some ctx) argv s = some (r, (ctx.func.run vs (zeros ctx.ty) s).2) ∧
      (ResultTyped t (ctx.func.run vs (zeros ctx.ty) s).1 r ↔ LeavesDeclared ctx vs s) := by
  obtain ⟨r, hr, heffect⟩ := effect_of_holds htys hargs (by simp [hres]) (fun _ => hslot)
  refine ⟨r, hr, ?_⟩
  cases hpanic : (ctx.func.run vs (zeros ctx.ty) s).1.panicked with
  | true =>
    have hexc := (heffect.panicked hpanic).2
    refine iff_of_true ⟨fun hnone => ?_, fun _ _ _ => by simp [hexc]⟩ (Or.inl hpanic)
    rw [hexc] at hnone
    cases hnone
  | false =>
    obtain ⟨hexc, -, -⟩ := heffect.returned hpanic
    obtain ⟨v, hv, hslot0⟩ := heffect.result hpanic t hres
    have hdeclared : LeavesDeclared ctx vs s ↔ v.ty = t := by
      simp [LeavesDeclared, hpanic, hv, hres]
    rw [hdeclared]
    constructor
    · -- Nothing but the type of the value can go wrong: there is no exception to hide it.
      intro htyped
      refine Decidable.byContradiction fun hne => ?_
      exact htyped.refused v (by rw [hv]; rfl) hne hexc
    · intro hty
      refine ⟨fun _ => ⟨v, by rw [hv]; rfl, hty, ?_⟩, fun u hu hne => ?_⟩
      · rw [List.head?_eq_getElem?, hslot0]
      · rw [hv] at hu
        cases hu
        exact absurd hty hne

/-- A host function that is declared to return an `i32` and leaves what it gets. -/
def returnsArgument (t : ValType) : HostFuncCtx Unit where
  ty := ⟨[t], [.i32]⟩
  func :=
    { run := fun params results s => (⟨results.map fun zero => params[0]?.getD zero, false⟩, s)
      length_results := fun _ _ _ => List.length_map _ }

theorem host_result_typed_returnsArgument :
    ∃ r, rawTrampoline (some (returnsArgument .i32)) [5] () = some (r, ()) ∧
      ResultTyped .i32 ⟨[.i32 5], false⟩ r := by
  obtain ⟨r, hr, hiff⟩ := host_result_typed_iff (returnsArgument .i32) () .i32 rfl [.i32 5] [5] rfl
    (.cons _ _ _ _ rfl (.nil _)) (by decide)
  exact ⟨r, hr, hiff.mpr (Or.inr rfl)⟩

/-- The closure leaves the float 1.0 under an integer signature. There is no exception, and Wasm
reads the bits of the float as an integer. -/
theorem host_result_reinterpreted :
    (returnsArgument .f32).func.run [.f32 0x3f800000] (zeros (returnsArgument .f32).ty) ()
        = (⟨[.f32 0x3f800000], false⟩, ()) ∧
      rawTrampoline (some (returnsArgument .f32)) [0x3f800000] ()
        = some (⟨[0x3f800000], some [.f32 0x3f800000], none⟩, ()) ∧
      Val.fromRawSlot .i32 0x3f800000 = .i32 1065353216 ∧
      ¬ ResultTyped .i32 ⟨[.f32 0x3f800000], false⟩
        ⟨[0x3f800000], some [.f32 0x3f800000], none⟩ := by
  refine ⟨rfl, rfl, rfl, fun htyped => ?_⟩
  obtain ⟨v, hv, hty, -⟩ := htyped.returned rfl
  cases hv
  cases hty

end Wamrx.Proofs
