import Wamrx.Proofs.GuestCalls

/-!
# `Wamrx.Proofs.BoundaryValues`: values cross the boundary unchanged

A value goes through four codecs on its way into a host function and back, and through WAMR in
between. Here an exported function forwards its parameters to a host function and returns what that
returns.

* `values_cross_boundary`: the host function gets exactly the arguments, and the caller gets
  exactly its result, unless there is an exception on the instance when the host function comes
  back.
* `values_cross_boundary_stale`: the exception of an earlier call loses the result of a later one.
-/

set_option autoImplicit false

namespace Wamrx.Proofs

variable {σ : Type} {slot : ExceptionSlot σ}

/-- At most one result is the whole list of results. -/
theorem toList_head? {α : Type} {xs : List α} (h : xs.length ≤ 1) : xs.head?.toList = xs := by
  match xs, h with
  | [], _ => rfl
  | [x], _ => rfl

/-- Forwarding is well typed, under the type of the host function. -/
theorem wellTyped_forwards {ctx : HostFuncCtx σ} {vs : List Val}
    (hparams : ctx.ty.params = vs.map Val.ty) (hone : ctx.ty.results.length ≤ 1) :
    WellTyped (fun _ => ctx) ctx.ty.results (forwards vs) := by
  refine .callHost 0 vs _ hparams.symm fun v hv => .ret _ ?_
  rw [← toList_head? hone, ← hv]
  cases v <;> rfl

/-- What forwarding means, when the host function returns values of its declared types. -/
theorem eval_forwards {ctx : HostFuncCtx σ} {vs out : List Val} {t : Traced σ} {s' : σ}
    (hone : ctx.ty.results.length ≤ 1)
    (hrun : ctx.func.run vs (zeros ctx.ty) t.state = (⟨out, false⟩, s'))
    (htys : out.map Val.ty = ctx.ty.results) :
    (forwards vs).eval slot (fun _ => ctx) t
      = (if (slot.get s').isSome then .stopped else .returned out,
          ⟨s', t.calls ++ [(0, vs)]⟩) := by
  have hout : out.length ≤ 1 := by rw [← htys, List.length_map] at hone; exact hone
  rw [forwards, eval_callHost, hrun]
  simp only [Bool.false_eq_true, if_false]
  split
  · rfl
  · rw [received_of_declared ctx.ty htys, Guest.eval, toList_head? hout]

/-- Values cross the boundary unchanged. The closure is registered under a type whose parameter
types are those of `vs` and that has at most one result. It returns normally and leaves values
of the declared types. It may use its state as it likes, and leave an exception on the instance, as
one does that makes a call itself and handles the error. Then:

1. the codecs of each side undo each other;
2. the closure was handed exactly `vs`, once;
3. the call succeeds and the caller finds exactly what the closure left, in front of the
   untouched rest of its buffer, exactly when the exception slot of the instance is empty when the
   closure has returned. -/
theorem values_cross_boundary {σ : Type} (slot : ExceptionSlot σ) (inst : Nat) (ctx : HostFuncCtx σ)
    (junk : Nat → Junk) (resultJunk : Nat → BitVec 32) (vs results out : List Val) (t : Traced σ)
    (s' : σ) (hparams : ctx.ty.params = vs.map Val.ty) (hone : ctx.ty.results.length ≤ 1)
    (hbuf : ctx.ty.results.length ≤ results.length)
    (hrun : ctx.func.run vs (zeros ctx.ty) t.state = (⟨out, false⟩, s'))
    (htys : out.map Val.ty = ctx.ty.results) :
    let r := callGuest slot (fun _ => ctx) junk resultJunk inst ctx.ty forwards vs results t
    (∀ v : Val, Val.fromWasmVal v.toWasmVal = v) ∧
      (∀ (v : Val) (word : BitVec 64), Agrees v.ty word v.toRawSlot →
        Val.fromRawSlot v.ty word = v) ∧
      r.2 = ⟨s', t.calls ++ [(0, vs)]⟩ ∧
      (r.1 = (.ok (), out ++ results.drop out.length) ↔ slot.get s' = none) := by
  refine ⟨fromWasmVal_toWasmVal, fun v _ h => fromRawSlot_of_agrees v h, ?_⟩
  have hcount : ctx.ty.results.length < 2 ^ 32 := by omega
  have hcall := callGuest_eq slot (fun _ => ctx) junk resultJunk inst hcount hparams.symm
    (wellTyped_forwards hparams hone) hbuf t
  rw [eval_forwards hone hrun htys] at hcall
  simp only [hcall, true_and]
  cases hslot : slot.get s' with
  | none => exact iff_of_true rfl rfl
  | some text => exact iff_of_false (by rintro ⟨⟩) nofun

/-- A state that is the slot, for closures that keep nothing. -/
def onlySlot : ExceptionSlot (Option Name) where
  get s := s
  set text _ := some (storedException text)
  get_set _ _ := rfl

/-- A host function of four parameters, one of each type, that returns the third. -/
def pickThird : HostFuncCtx (Option Name) where
  ty := ⟨[.i32, .f64, .f32, .i64], [.f32]⟩
  func :=
    { run := fun params results s => (⟨results.map fun zero => params.getD 2 zero, false⟩, s)
      length_results := fun _ _ _ => List.length_map _ }

/-- A negative `i32`, a negative zero, a signalling NaN and a full `i64`, through junk of all
ones: the NaN comes back bit for bit. -/
theorem values_cross_boundary_pickThird :
    let vs : List Val := [.i32 (-1), .f64 0x8000000000000000, .f32 0x7fa00001, .i64 (-2)]
    let r := callGuest onlySlot (fun _ => pickThird) (fun _ => ⟨fun _ => -1, -1, []⟩)
      (fun _ => -1) 0 pickThird.ty forwards vs [.i32 7, .i64 9] ⟨none, []⟩
    r.2.calls = [(0, vs)] ∧ r.1 = (.ok (), [.f32 0x7fa00001, .i64 9]) := by
  intro vs r
  obtain ⟨-, -, hfinal, hresult⟩ := values_cross_boundary onlySlot 0 pickThird
    (fun _ => ⟨fun _ => -1, -1, []⟩) (fun _ => -1) vs [.i32 7, .i64 9] [.f32 0x7fa00001] ⟨none, []⟩
    none rfl (by decide) (by decide) rfl rfl
  exact ⟨congrArg Traced.calls hfinal, hresult.mpr rfl⟩

/-- A host function that panics on a zero, and returns every other argument. -/
def nonZero : HostFuncCtx (Option Name) where
  ty := ⟨[.i32], [.i32]⟩
  func :=
    { run := fun params results s =>
        (⟨results.map fun zero => params.headD zero, params.head? = some (.i32 0)⟩, s)
      length_results := fun _ _ _ => List.length_map _ }

/-- The closure panics in a first call. In the second it gets its argument and returns it, but
the caller gets the exception of the first call, and nothing in its buffer. -/
theorem values_cross_boundary_stale :
    let call := fun v => callGuest onlySlot (fun _ => nonZero) (fun _ => ⟨fun _ => 0, 0, []⟩)
      (fun _ => 0) 0 nonZero.ty forwards [.i32 v] [.i32 7]
    let before := (call 0 ⟨none, []⟩).2
    before.state = some (storedException hostFunctionPanicked) ∧
      nonZero.func.run [.i32 5] (zeros nonZero.ty) before.state
        = (⟨[.i32 5], false⟩, before.state) ∧
      (call 5 before).2.calls = before.calls ++ [(0, [.i32 5])] ∧
      (call 5 before).1 = (.error (.trap "Exception: host function panicked"), [.i32 7]) :=
  ⟨rfl, rfl, rfl, rfl⟩

end Wamrx.Proofs
