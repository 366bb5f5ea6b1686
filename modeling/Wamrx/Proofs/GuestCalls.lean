import Wamrx.Proofs.CallChecks
import Wamrx.Proofs.GuestRuns
import Wamrx.Proofs.TrampolineEffects

/-!
# `Wamrx.Proofs.GuestCalls`: calls of host functions mean what they say

* `holdsArgs_argSlots`: the arguments, as a whole list, through both layouts.
* `callImport_of_panic`, `callImport_of_return`: one call of an import. The closure gets the
  arguments, and the function goes on with what the closure left.
* `run_eq_eval`: an execution with slots ends like the direct evaluation, and calls the same
  closures with the same values in the same order.
* `callBody_eq`: the codecs of `wasm_val_t` around an execution.
* `guest_call`: a whole `Func::call`.

What WAMR leaves to chance is universally quantified in all of them, so none of it reaches the
closures or the caller.
-/

set_option autoImplicit false

namespace Wamrx.Proofs

variable {σ : Type} {slot : ExceptionSlot σ}

/-- The function passes arguments of the declared types, whatever values of the declared types it
gets back, and it ends with results of its own types. Validation ensures that. -/
inductive WellTyped (h : Hosts σ) (results : List ValType) : Guest → Prop where
  | ret (values : List Val) : values.map Val.ty = results → WellTyped h results (.ret values)
  | trap (text : Name) : WellTyped h results (.trap text)
  | callHost (k : Nat) (args : List Val) (next : Option Val → Guest) :
      args.map Val.ty = (h k).ty.params →
      (∀ v, v.map Val.ty = (h k).ty.results.head? → WellTyped h results (next v)) →
      WellTyped h results (.callHost k args next)

/-! ### Values of the declared types -/

theorem ty_asType (v : Val) (ty : ValType) : (v.asType ty).ty = ty := ty_fromRawSlot ty _

/-- A value of the declared type is read as it is. -/
theorem asType_ty (v : Val) : v.asType v.ty = v :=
  fromRawSlot_of_agrees v (by cases v.ty <;> rfl)

/-- What the function gets from a closure has the declared type, also when the closure left
another one. -/
theorem ty_received (ty : FuncType) {results : List Val}
    (hlen : results.length = ty.results.length) :
    (ty.received results).map Val.ty = ty.results.head? := by
  unfold FuncType.received
  cases hty : ty.results with
  | nil => rfl
  | cons t ts =>
    cases results with
    | nil => simp [hty] at hlen
    | cons v vs => exact congrArg some (ty_asType v t)

/-- A closure that leaves values of the declared types hands over its first one. -/
theorem received_of_declared (ty : FuncType) {results : List Val}
    (h : results.map Val.ty = ty.results) : ty.received results = results.head? := by
  unfold FuncType.received
  rw [← h]
  cases results with
  | nil => rfl
  | cons v vs => exact congrArg some (asType_ty v)

/-- A closure leaves one value for each declared result. -/
theorem length_run (ctx : HostFuncCtx σ) (args : List Val) (s : σ) :
    (ctx.func.run args (zeros ctx.ty) s).1.results.length = ctx.ty.results.length := by
  rw [ctx.func.length_results, zeros, List.length_map]

/-! ### One host call -/

/-- The arguments through both layouts: the slots hold exactly the values that are passed. -/
theorem holdsArgs_argSlots (vs : List Val) (junk : Nat → BitVec 32)
    (behind : List (BitVec 64)) :
    HoldsArgs vs (argSlots (vs.map Val.ty) (vs.map Val.toWasmVal) junk ++ behind) := by
  -- Induction on the values; the junk of the tail is that of the later slots.
  induction vs generalizing junk with
  | nil => exact .nil behind
  | cons v vs ih =>
    exact .cons _ _ _ _ ((agrees_carry v.ty _ _).trans (agrees_bits_toWasmVal v)) (ih _)

section

variable {ctx : HostFuncCtx σ} {args : List Val} {t : Traced σ}

/-- A call of an import whose closure panics, with any junk in the slots. -/
theorem callImport_of_panic (slot : ExceptionSlot σ) (ctx : HostFuncCtx σ) (junk : Junk) (k : Nat)
    (hargs : args.map Val.ty = ctx.ty.params)
    (hpanic : (ctx.func.run args (zeros ctx.ty) t.state).1.panicked = true) :
    ∃ result, callImport slot ctx junk k args t = some (⟨result, some hostFunctionPanicked⟩,
      slot.traced.set hostFunctionPanicked
        ⟨(ctx.func.run args (zeros ctx.ty) t.state).2, t.calls ++ [(k, args)]⟩) := by
  have htramp := rawTrampoline_of_panic hargs
    (holdsArgs_argSlots args junk.args (junk.spare :: junk.more)) hpanic
  refine ⟨takeResult ctx.ty.results (junk.argv args), ?_⟩
  simp only [callImport, Junk.argv, htramp, Option.bind_eq_bind, Option.bind_some]
  rfl

/-- A call of an import whose closure returns. Slot 0 is read by the declared type, whatever the
closure left. -/
theorem callImport_of_return (slot : ExceptionSlot σ) (ctx : HostFuncCtx σ) (junk : Junk) (k : Nat)
    (hargs : args.map Val.ty = ctx.ty.params)
    (hreturn : (ctx.func.run args (zeros ctx.ty) t.state).1.panicked = false) :
    callImport slot ctx junk k args t
      = some (⟨ctx.ty.received (ctx.func.run args (zeros ctx.ty) t.state).1.results, none⟩,
          ⟨(ctx.func.run args (zeros ctx.ty) t.state).2, t.calls ++ [(k, args)]⟩) := by
  have hholds := holdsArgs_argSlots args junk.args (junk.spare :: junk.more)
  have hlen := length_run ctx args t.state
  cases hout : (ctx.func.run args (zeros ctx.ty) t.state).1.results with
  | nil =>
    have hres : ctx.ty.results = [] := List.eq_nil_of_length_eq_zero (by rw [← hlen, hout]; rfl)
    simp only [callImport, Junk.argv, rawTrampoline_of_nil hargs hholds hreturn hres,
      Option.bind_eq_bind, Option.bind_some, hres, takeResult, FuncType.received]
    rfl
  | cons v out =>
    have hrun : ctx.func.run args (zeros ctx.ty) t.state
        = (⟨v :: out, false⟩, (ctx.func.run args (zeros ctx.ty) t.state).2) := by
      rw [← hout, ← hreturn]
    simp only [callImport, Junk.argv, rawTrampoline_of_cons hargs hholds hrun (by simp),
      Option.bind_eq_bind, Option.bind_some]
    unfold takeResult FuncType.received
    cases ctx.ty.results <;> rfl

/-- The exception that a call of an import raises is the one in the slot. -/
theorem slot_of_callImport {junk : Junk} {k : Nat} {r : HostReturn × Traced σ}
    (h : callImport slot ctx junk k args t = some r) (text : Name)
    (hraised : r.1.raised = some text) :
    slot.traced.get r.2 = some (storedException text) := by
  simp only [callImport, Option.bind_eq_bind, Option.bind_eq_some_iff] at h
  obtain ⟨⟨run, s⟩, -, h⟩ := h
  cases h
  simp only at hraised
  simp only [hraised]
  exact slot.get_set text s

end

/-! ### Whole executions -/

/-- A direct call of a closure. -/
theorem eval_callHost (h : Hosts σ) (k : Nat) (args : List Val) (next : Option Val → Guest)
    (t : Traced σ) :
    (Guest.callHost k args next).eval slot h t =
      let outcome := (h k).func.run args (zeros (h k).ty) t.state
      let t : Traced σ := ⟨outcome.2, t.calls ++ [(k, args)]⟩
      if outcome.1.panicked then
        (.raised hostFunctionPanicked, slot.traced.set hostFunctionPanicked t)
      else if (slot.get outcome.2).isSome then (.stopped, t)
      else (next ((h k).ty.received outcome.1.results)).eval slot h t := rfl

/-- WAMR executes a function as it is meant, whatever is in the slot. -/
theorem run_eq_eval (slot : ExceptionSlot σ) (h : Hosts σ) (junk : Nat → Junk)
    {tys : List ValType} {g : Guest} (hg : WellTyped h tys g) (t : Traced σ) :
    g.run slot.traced (fun k args t => callImport slot (h k) (junk t.calls.length) k args t) t
      = some (g.eval slot h t) := by
  -- Induction on the derivation: the calls and the state move along.
  induction hg generalizing t with
  | ret values _ => rfl
  | trap text => rfl
  | callHost k args next hargs _ ih =>
    rw [run_callHost, eval_callHost]
    cases hpanic : ((h k).func.run args (zeros (h k).ty) t.state).1.panicked with
    | true =>
      obtain ⟨result, hcall⟩ :=
        callImport_of_panic slot (h k) (junk t.calls.length) k hargs hpanic
      rw [hcall, Option.bind_some, slot.traced.get_set]
      simp only [Guest.stop, Option.isSome_some, hpanic, if_true]
    | false =>
      rw [callImport_of_return slot (h k) (junk t.calls.length) k hargs hpanic, Option.bind_some,
        ih _ (ty_received (h k).ty (length_run (h k) args t.state))]
      simp only [ExceptionSlot.traced, Guest.stop, hpanic, Bool.false_eq_true, if_false]
      exact (apply_ite some _ _ _).symm

/-- An execution that returns ends with values of the declared types. -/
theorem WellTyped.eval_returned {h : Hosts σ} {tys : List ValType} {g : Guest}
    (hg : WellTyped h tys g) (t : Traced σ) {values : List Val}
    (hret : (g.eval slot h t).1 = .returned values) : values.map Val.ty = tys := by
  induction hg generalizing t with
  | ret out htys =>
    cases hret
    exact htys
  | trap text => cases hret
  | callHost k args next _ _ ih =>
    rw [eval_callHost] at hret
    simp only at hret
    split at hret
    · cases hret
    · split at hret
      · cases hret
      · exact ih _ (ty_received (h k).ty (length_run (h k) args t.state)) _ hret

/-! ### Whole calls -/

/-- The tagged results decode to the results, whatever the other halves of the words are. -/
theorem fromWasmVal_taggedResults (values : List Val) (junk : Nat → BitVec 32) :
    (taggedResults values junk).map Val.fromWasmVal = values := by
  induction values generalizing junk with
  | nil => rfl
  | cons v vs ih =>
    rw [taggedResults, List.map_cons, ih, fromWasmVal_of_agrees v (agrees_carry v.ty _ _)]

/-- What the caller gets at the end of an execution: the results in front of the untouched rest of
the buffer, or the exception that is in the slot. -/
def callerSees (exception : Option Name) (ending : GuestEnd) (results : List Val) : CallOutcome :=
  match exception, ending with
  | none, .returned values => (.ok (), values ++ results.drop values.length)
  | _, _ => (.error (.trap (cstrPtrToString exception)), results)

/-- A whole `Func::call`, from what the execution of the function does. -/
theorem callBody_eq {σ : Type} {slot : ExceptionSlot σ}
    {host : Nat → List Val → σ → Option (HostReturn × σ)} (resultJunk : Nat → BitVec 32)
    (inst : Nat) {ty : FuncType} (hcount : ty.results.length < 2 ^ 32) {body : List Val → Guest}
    {vs results : List Val} (hparams : vs.map Val.ty = ty.params)
    (hbuf : ty.results.length ≤ results.length) {s s' : σ} {ending : GuestEnd}
    (hrun : (body vs).run slot host s = some (ending, s')) (hleaves : Leaves ending (slot.get s'))
    (htys : ∀ values, ending = .returned values → values.map Val.ty = ty.results) :
    callBody slot host resultJunk inst ty body vs results s
      = (callerSees (slot.get s') ending results, s') := by
  have hn : (ty.handle inst).lenResults.toNat = ty.results.length :=
    UInt32.toNat_ofNat_of_lt' hcount
  have hargs : readArgs ty.params (vs.map Val.toWasmVal) = vs := by
    rw [← hparams]
    exact readArgs_toWasmVal vs
  have hlen : UInt32.ofNat vs.length = (ty.handle inst).lenParams :=
    congrArg UInt32.ofNat (by rw [← hparams, List.length_map])
  -- The function gets the arguments of the call.
  let exec := fun args => (body (readArgs ty.params args)).run slot host
  have hexec : exec (vs.map Val.toWasmVal) s = some (ending, s') := by
    show (body (readArgs ty.params (vs.map Val.toWasmVal))).run slot host s = _
    rw [hargs, hrun]
  rcases invoke_of_runs slot (ty.handle inst) exec resultJunk (hn.symm ▸ hbuf) hlen hexec hleaves
    with ⟨values, rfl, hslot, hcall⟩ | ⟨text, hslot, hcall⟩
  · have hvalues := fromWasmVal_taggedResults values resultJunk
    have hnum : values.length = ty.results.length := by rw [← htys values rfl, List.length_map]
    have htagged : (taggedResults values resultJunk).length = values.length := by
      rw [← congrArg List.length hvalues, List.length_map]
    rw [callBody, hcall, storeResults_eq results _ (by omega), hvalues, htagged, hslot]
    rfl
  · rw [callBody, hcall, hslot]
    rfl

/-- The end of an execution, as the slot shows it. -/
theorem leaves_eval (slot : ExceptionSlot σ) (h : Hosts σ) {tys : List ValType} {g : Guest}
    (hg : WellTyped h tys g) (t : Traced σ) :
    Leaves (g.eval slot h t).1 (slot.get (g.eval slot h t).2.state) :=
  leaves_run slot.traced (fun _ _ _ _ hr => slot_of_callImport hr)
    (run_eq_eval slot h (fun _ => ⟨fun _ => 0, 0, []⟩) hg t)

/-- A whole `Func::call`, from the direct evaluation. -/
theorem callGuest_eq (slot : ExceptionSlot σ) (h : Hosts σ) (junk : Nat → Junk)
    (resultJunk : Nat → BitVec 32) (inst : Nat)
    {ty : FuncType} (hcount : ty.results.length < 2 ^ 32) {body : List Val → Guest}
    {vs results : List Val} (hparams : vs.map Val.ty = ty.params)
    (hbody : WellTyped h ty.results (body vs)) (hbuf : ty.results.length ≤ results.length)
    (t : Traced σ) :
    callGuest slot h junk resultJunk inst ty body vs results t
      = (callerSees (slot.get ((body vs).eval slot h t).2.state) ((body vs).eval slot h t).1
            results, ((body vs).eval slot h t).2) :=
  callBody_eq resultJunk inst hcount hparams hbuf (run_eq_eval slot h junk hbody t)
    (leaves_eval slot h hbody t) fun _ => hbody.eval_returned t

/-- A call of an exported function means what the function and the closures say, with any number
of host calls that depend on each other, and any exception in the slot before. The function gets the
arguments of the call, and each closure gets exactly what the function passes. The function goes on
with what a closure left, if that has the declared type, and if the slot is empty when the closure
comes back. The caller gets exactly what the function returns if the slot is empty at the end, and
otherwise an untouched buffer and the exception in the slot: that of the panic or the trap that
ended the execution, or the one that it was stopped for. Nothing depends on what WAMR leaves to
chance. -/
theorem guest_call {σ : Type} (slot : ExceptionSlot σ) (h : Hosts σ) (junk : Nat → Junk)
    (resultJunk : Nat → BitVec 32) (inst : Nat) (ty : FuncType)
    (hcount : ty.results.length < 2 ^ 32) (body : List Val → Guest) (vs results : List Val)
    (hparams : vs.map Val.ty = ty.params) (hbody : WellTyped h ty.results (body vs))
    (hbuf : ty.results.length ≤ results.length) (t : Traced σ) :
    let r := (body vs).eval slot h t
    callGuest slot h junk resultJunk inst ty body vs results t
        = (callerSees (slot.get r.2.state) r.1 results, r.2) ∧
      Leaves r.1 (slot.get r.2.state) ∧
      ∀ (k : Nat) (out : List Val), out.map Val.ty = (h k).ty.results →
        (h k).ty.received out = out.head? := by
  intro r
  refine ⟨?_, leaves_eval slot h hbody t, fun k out => received_of_declared (h k).ty⟩
  exact callGuest_eq slot h junk resultJunk inst hcount hparams hbody hbuf t

/-- A closure that returns how often it was called before. Its state is the count, and the exception
slot. -/
def countCalls : HostFunc (Nat × Option Name) where
  run _ results s := (⟨results.map fun _ => .i32 s.1, false⟩, (s.1 + 1, s.2))
  length_results _ _ _ := List.length_map _

/-- This closure, and one that panics on a zero. -/
def countAndCheck : Hosts (Nat × Option Name) := fun k =>
  if k = 0 then
    { ty := ⟨[], [.i32]⟩
      func := countCalls }
  else
    { ty := ⟨[.i32], []⟩
      func :=
        { run := fun params results s => (⟨results, params.head? = some (.i32 0)⟩, s)
          length_results := fun _ _ _ => rfl } }

/-- The second part of the state is the slot. -/
def secondSlot : ExceptionSlot (Nat × Option Name) where
  get s := s.2
  set text s := (s.1, some (storedException text))
  get_set _ _ := rfl

/-- Counts twice, checks the argument, and returns the argument and the second count. -/
def countsTwice : List Val → Guest := fun vs =>
  .callHost 0 [] fun _ => .callHost 0 [] fun count =>
    match vs, count with
    | [.i32 v], some (.i32 n) => .callHost 1 [.i32 v] fun _ => .ret [.i32 v, .i32 n]
    | _, _ => .trap []

theorem wellTyped_countsTwice (v : BitVec 32) :
    WellTyped countAndCheck [.i32, .i32] (countsTwice [.i32 v]) := by
  refine .callHost _ _ _ rfl fun _ _ => .callHost _ _ _ rfl fun count hcount => ?_
  match count, hcount with
  | some (.i32 n), _ => exact .callHost _ _ _ rfl fun _ _ => .ret _ rfl

/-- On a fresh instance it returns. With an exception in the slot it stops behind its first host
call, and the caller gets that exception. -/
theorem guest_call_countsTwice :
    let call := callGuest secondSlot countAndCheck (fun _ => ⟨fun _ => -1, -1, []⟩) (fun _ => -1) 0
      ⟨[.i32], [.i32, .i32]⟩ countsTwice [.i32 5] [.i32 7, .i64 8, .i64 9]
    let trapped := storedException "unreachable".toUTF8.data.toList
    call ⟨(3, none), []⟩ = ((.ok (), [.i32 5, .i32 4, .i64 9]),
        ⟨(5, none), [(0, []), (0, []), (1, [.i32 5])]⟩) ∧
      call ⟨(3, some trapped), []⟩
        = ((.error (.trap "Exception: unreachable"), [.i32 7, .i64 8, .i64 9]),
            ⟨(4, some trapped), [(0, [])]⟩) := by
  intro call trapped
  have hcall := fun t => (guest_call secondSlot countAndCheck (fun _ => ⟨fun _ => -1, -1, []⟩)
    (fun _ => -1) 0 ⟨[.i32], [.i32, .i32]⟩ (by decide) countsTwice [.i32 5]
    [.i32 7, .i64 8, .i64 9] rfl (wellTyped_countsTwice 5) (by decide) t).1
  exact ⟨hcall ⟨(3, none), []⟩, hcall ⟨(3, some trapped), []⟩⟩

end Wamrx.Proofs
