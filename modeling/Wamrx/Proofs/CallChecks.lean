import Wamrx.Proofs.CallCases
import Wamrx.Proofs.Codecs
import Wamrx.TypedCall

/-!
# `Wamrx.Proofs.CallChecks`: what `Func::call` checks and what it does not

Each result below is a fact about the three exits of `call_cases`.

* `call_atomic`: only a success touches the buffer of results, and only its first slots.
* `arguments_checked_iff`: neither the number nor the types of the arguments are checked, so a
  call keeps the promise of the errors exactly when the arguments are right.
* `result_types_agree_iff`: the values have the types that `Func::ty` reports exactly when every
  result is numeric.
-/

set_option autoImplicit false

namespace Wamrx.Proofs

/-! ### The buffer of results -/

/-- `Func::call` is atomic on its buffer of results, for every function, whatever WAMR does: an
error leaves the whole buffer, a success decodes the raw results into the first slots in order and
leaves the others, and a buffer that is too short is reported without asking WAMR. -/
theorem call_atomic {σ : Type} (f : Func) (callWasmA : CallWasmA σ)
    (hraw : ∀ numResults rawResults numArgs args s,
      (callWasmA numResults rawResults numArgs args s).rawResults.length = rawResults.length)
    (getException : σ → Option Name) (params results : List Val) (s : σ) :
    let n := f.lenResults.toNat
    let r := f.call callWasmA getException params results s
    (∀ err, r.1.1 = .error err → r.1.2 = results) ∧
    (r.1.1 = .ok () → n ≤ results.length ∧ r.1.2.length = results.length ∧
      (∀ i, i < n → ∃ raw, (answer f callWasmA params s).rawResults[i]? = some raw ∧
        r.1.2[i]? = some (Val.fromWasmVal raw)) ∧
      ∀ i, n ≤ i → r.1.2[i]? = results[i]?) ∧
    (results.length < n → r = ((.error (.signatureMismatch n results.length), results), s)) := by
  intro n r
  rcases call_cases f callWasmA getException params results s with
    ⟨hshort, hcall⟩ | ⟨hlen, -, hcall⟩ | ⟨hlen, -, hcall⟩
  · refine ⟨fun err _ => ?_, fun hok => ?_, fun _ => hcall⟩
    · simp only [r, hcall]
    · simp only [r, hcall] at hok
      cases hok
  · refine ⟨fun err _ => ?_, fun hok => ?_, fun hshort => absurd hshort (Nat.not_lt.mpr hlen)⟩
    · simp only [r, hcall]
    · simp only [r, hcall] at hok
      cases hok
  · have hn : (answer f callWasmA params s).rawResults.length = n := by
      rw [answer, hraw, List.length_replicate]
    obtain ⟨hlength, hfirst, hrest⟩ := storeResults_spec (Nat.le_trans (Nat.le_of_eq hn) hlen)
    rw [hn] at hfirst hrest
    refine ⟨fun err herr => ?_, fun _ => ?_, fun hshort => absurd hshort (Nat.not_lt.mpr hlen)⟩
    · simp only [r, hcall] at herr
      cases herr
    · simp only [r, hcall]
      exact ⟨hlen, hlength, hfirst, hrest⟩

/-- WAMR writes the first raw result, and fails or not. -/
def writesFirst : CallWasmA Bool := fun _ rawResults _ _ ok =>
  ⟨ok, rawResults.set 0 ⟨0, 7⟩, ok⟩

/-- A failure behind the first raw result: the buffer is as it was. -/
theorem call_atomic_writesFirst :
    let r := (⟨0, 0, 2⟩ : Func).call writesFirst (fun _ => none) [] [.f32 1, .i64 2, .i32 3] false
    r.1.1 = .error (.trap "") ∧ r.1.2 = [.f32 1, .i64 2, .i32 3] := by
  intro r
  have herr : r.1.1 = .error (.trap "") := rfl
  exact ⟨herr, (call_atomic ⟨0, 0, 2⟩ writesFirst (fun _ _ _ _ _ => List.length_set) (fun _ => none)
    [] [.f32 1, .i64 2, .i32 3] false).1 _ herr⟩

/-! ### The types of the results -/

/-- The kind tag of a numeric type is decoded to the type, by both decoders. -/
theorem ty_fromWasmVal_iff (raw : WasmVal) :
    (Val.fromWasmVal raw).ty = (ValType.fromValkind raw.kind).getD .i32 ↔
      (ValType.fromValkind raw.kind).isSome = true := by
  unfold Val.fromWasmVal ValType.fromValkind
  simp only
  by_cases h₀ : raw.kind.toUInt32 = wasmI32
  · simp [h₀, Val.ty]
  by_cases h₁ : raw.kind.toUInt32 = wasmI64
  · simp [h₁, Val.ty, wasmI32, wasmI64]
  by_cases h₂ : raw.kind.toUInt32 = wasmF32
  · simp [h₂, Val.ty, wasmI32, wasmI64, wasmF32]
  -- The last test is made by one of the two decoders only.
  by_cases h₃ : raw.kind.toUInt32 = wasmF64
  · simp [h₃, Val.ty, wasmI32, wasmI64, wasmF32, wasmF64]
  · simp [h₀, h₁, h₂, h₃, Val.ty]

/-- One slot of the buffer: the decoded value has the type that `Func::ty` reports exactly when the
kind is numeric, because both decoders look at the same tag. -/
theorem slot_type_iff {kinds : FuncKinds} {results : List Val} {raw : List WasmVal}
    (htags : raw.map WasmVal.kind = kinds.results)
    (hlen : kinds.results.length ≤ results.length) {i : Nat} (hi : i < kinds.results.length) :
    (storeResults results raw)[i]?.map Val.ty = (Func.ty kinds).results[i]? ↔
      ∀ k, kinds.results[i]? = some k → (ValType.fromValkind k).isSome = true := by
  have hraw : raw.length = kinds.results.length := by rw [← htags, List.length_map]
  have hi' : i < raw.length := by omega
  have hk : kinds.results[i]? = some raw[i].kind := by
    rw [← htags, List.getElem?_map, List.getElem?_eq_getElem hi']
    rfl
  rw [storeResults_getElem? (by omega), if_pos hi', List.getElem?_eq_getElem hi']
  simp only [Func.ty, List.getElem?_map, hk, Option.map_some, Option.some.injEq, forall_eq']
  exact ty_fromWasmVal_iff raw[i]

/-- For every function, of any kinds, and every call that returns `Ok`: the values it returns have
the types that `Func::ty` reports exactly when all result kinds are numeric. -/
theorem result_types_agree_iff {σ : Type} (kinds : FuncKinds) (inst : Nat)
    (callWasmA : CallWasmA σ)
    (htag : ∀ numResults rawResults numArgs args s,
      (callWasmA numResults rawResults numArgs args s).ok = true →
        (callWasmA numResults rawResults numArgs args s).rawResults.map WasmVal.kind
          = kinds.results)
    (getException : σ → Option Name) (params results : List Val) (s : σ)
    (hok : ((kinds.func inst).call callWasmA getException params results s).1.1 = .ok ()) :
    (∀ i, i < kinds.results.length →
      (((kinds.func inst).call callWasmA getException params results s).1.2[i]?).map Val.ty
        = (Func.ty kinds).results[i]?) ↔
      ∀ k ∈ kinds.results, (ValType.fromValkind k).isSome = true := by
  rcases call_cases (kinds.func inst) callWasmA getException params results s with
    ⟨-, hcall⟩ | ⟨-, -, hcall⟩ | ⟨hlen, hans, hcall⟩
  · rw [hcall] at hok
    cases hok
  · rw [hcall] at hok
    cases hok
  have htags : (answer (kinds.func inst) callWasmA params s).rawResults.map WasmVal.kind
      = kinds.results := htag _ _ _ _ _ hans
  have hn : (kinds.func inst).lenResults.toNat = kinds.results.length :=
    UInt32.toNat_ofNat_of_lt' kinds.results_lt
  rw [hn] at hlen
  rw [hcall]
  constructor
  · intro h k hk
    obtain ⟨i, hi, rfl⟩ := List.mem_iff_getElem.mp hk
    exact (slot_type_iff htags hlen hi).mp (h i hi) _ (List.getElem?_eq_getElem hi)
  · intro h i hi
    exact (slot_type_iff htags hlen hi).mpr fun k hk => h k (List.mem_of_getElem? hk)

/-- WAMR returns one value for each of the kinds, with this word in the union. -/
def returnsTagged (kinds : List ValKind) (bits : BitVec 64) : CallWasmA Unit :=
  fun _ _ _ _ s => ⟨true, kinds.map fun k => ⟨k, bits⟩, s⟩

theorem returnsTagged_tags (kinds : List ValKind) (bits : BitVec 64) (numResults : UInt32)
    (rawResults : List WasmVal) (numArgs : UInt32) (args : List WasmVal) (s : Unit) :
    (returnsTagged kinds bits numResults rawResults numArgs args s).rawResults.map WasmVal.kind
      = kinds := by
  show (kinds.map _).map WasmVal.kind = kinds
  rw [List.map_map]
  exact List.map_id kinds

/-- A function of an `f64` and an `i32` result. -/
def numericKinds : FuncKinds := ⟨[], [3, 0], by decide, by decide⟩

theorem result_types_agree_numericKinds :
    let out := ((numericKinds.func 0).call (returnsTagged [3, 0] 7) (fun _ => none) []
      [.i64 0, .i64 0] ()).1.2
    out[0]?.map Val.ty = (Func.ty numericKinds).results[0]? ∧
      out[1]?.map Val.ty = (Func.ty numericKinds).results[1]? := by
  have hagree := (result_types_agree_iff numericKinds 0 (returnsTagged [3, 0] 7)
    (fun _ _ _ _ _ _ => returnsTagged_tags _ _ _ _ _ _ _) (fun _ => none) [] [.i64 0, .i64 0] ()
    rfl).mpr
      (List.forall_mem_cons.mpr ⟨rfl, List.forall_mem_cons.mpr ⟨rfl, fun _ h => nomatch h⟩⟩)
  exact ⟨hagree 0 (by decide), hagree 1 (by decide)⟩

/-- A function whose result is an `externref`: the kind is not one of the four. -/
def referenceKinds : FuncKinds := ⟨[], [128], by decide, by decide⟩

/-- `Func::ty` reports an `i32`, and the call returns an `f64`. -/
theorem result_types_disagree :
    ValType.fromValkind 128 = none ∧ (Func.ty referenceKinds).results = [.i32] ∧
      ((referenceKinds.func 0).call (returnsTagged [128] 7) (fun _ => none) [] [.i64 0] ()).1
        = (.ok (), [.f64 7]) :=
  ⟨rfl, rfl, rfl⟩

/-! ### The arguments -/

/-- The declared types read back what `to_wasm_val` wrote, when they are the types of the
values. -/
theorem readArgs_toWasmVal (vs : List Val) :
    readArgs (vs.map Val.ty) (vs.map Val.toWasmVal) = vs := by
  induction vs with
  | nil => rfl
  | cons v vs ih =>
    have hv : v.toWasmVal.readAs v.ty = v := by
      cases v with
      | i32 v => exact congrArg Val.i32 (setWidth_append_low _ v)
      | i64 v => rfl
      | f32 v => exact congrArg Val.f32 (setWidth_append_low _ v)
      | f64 v => rfl
    simp only [List.map_cons, readArgs]
    rw [hv, ih]

/-- What the errors promise of the arguments of a call of a function of the parameter types
`tys`. -/
structure ArgsChecked {σ : Type} (tys : List ValType) (params results : List Val) (s : Logged σ)
    (r : CallOutcome × Logged σ) : Prop where
  /-- A wrong number is a `SignatureMismatch`. Nothing is run or written. -/
  count : params.length ≠ tys.length →
    r = ((.error (.signatureMismatch tys.length params.length), results), s)
  /-- A wrong type is a `TypeMismatch` for one of the positions. Nothing is run or written. -/
  types : params.length = tys.length → params.map Val.ty ≠ tys →
    ∃ (i : Nat) (t : ValType) (v : Val), tys[i]? = some t ∧ params[i]? = some v ∧ v.ty ≠ t ∧
      r = ((.error (.typeMismatch t v.ty), results), s)
  /-- The function is only run on values of exactly its parameter types. -/
  runs : r.2.runs = s.runs ∨ (r.2.runs = s.runs ++ [params] ∧ params.map Val.ty = tys)

theorem callByType_reads {σ : Type} (tys : List ValType)
    (body : List WasmVal → List Val → σ → WasmCall σ) : ReadsByType tys (callByType tys body) where
  refused _ _ _ _ _ hcount := by
    rw [callByType, if_pos hcount]
    exact ⟨rfl, rfl⟩
  run _ _ _ _ _ hcount := by rw [callByType, if_neg (not_not_intro hcount)]

/-- Arguments of the declared types: the function is run on exactly them. -/
theorem runs_of_types {σ : Type} {tys : List ValType} {callWasmA : CallWasmA (Logged σ)}
    (hreads : ReadsByType tys callWasmA) (inst : Nat) (lenResults : UInt32) {params : List Val}
    (s : Logged σ) (htypes : params.map Val.ty = tys) :
    (answer (⟨inst, UInt32.ofNat tys.length, lenResults⟩ : Func) callWasmA params s).state.runs
      = s.runs ++ [params] := by
  subst htypes
  have hrun := hreads.run (UInt32.ofNat lenResults.toNat)
    (List.replicate lenResults.toNat WasmVal.zeroed) (UInt32.ofNat params.length)
    (params.map Val.toWasmVal) s (by rw [List.length_map])
  rw [readArgs_toWasmVal] at hrun
  exact hrun

/-- For every function of numeric parameters, all arguments and every buffer that is long enough:
the call keeps what the errors promise exactly when the arguments are right, in number and in
their types. -/
theorem arguments_checked_iff {σ : Type} (tys : List ValType) (inst : Nat) (lenResults : UInt32)
    (callWasmA : CallWasmA (Logged σ)) (hreads : ReadsByType tys callWasmA)
    (getException : Logged σ → Option Name) (params results : List Val) (s : Logged σ)
    (hbuf : lenResults.toNat ≤ results.length) :
    ArgsChecked tys params results s
        ((⟨inst, UInt32.ofNat tys.length, lenResults⟩ : Func).call callWasmA getException params
          results s) ↔
      params.map Val.ty = tys := by
  -- With a buffer that is long enough, a call ends in `Ok` or in a trap, and not in a mismatch.
  obtain ⟨outcome, htrap, hcall⟩ : ∃ outcome : CallOutcome,
      (outcome.1 = .ok () ∨ ∃ msg, outcome.1 = .error (.trap msg)) ∧
      (⟨inst, UInt32.ofNat tys.length, lenResults⟩ : Func).call callWasmA getException params
          results s
        = (outcome, (answer (⟨inst, UInt32.ofNat tys.length, lenResults⟩ : Func)
            callWasmA params s).state) := by
    rcases call_cases (⟨inst, UInt32.ofNat tys.length, lenResults⟩ : Func) callWasmA getException
        params results s with
      ⟨hshort, -⟩ | ⟨-, -, hcall⟩ | ⟨-, -, hcall⟩
    · exact absurd hshort (Nat.not_lt.mpr hbuf)
    · exact ⟨_, Or.inr ⟨_, rfl⟩, hcall⟩
    · exact ⟨_, Or.inl rfl, hcall⟩
  rw [hcall]
  constructor
  · intro hchecked
    refine Decidable.byContradiction fun htypes => ?_
    by_cases hlen : params.length = tys.length
    · obtain ⟨_, _, _, -, -, -, hr⟩ := hchecked.types hlen htypes
      obtain ⟨rfl, -⟩ := Prod.mk.inj hr
      rcases htrap with htrap | ⟨msg, htrap⟩ <;> cases htrap
    · obtain ⟨rfl, -⟩ := Prod.mk.inj (hchecked.count hlen)
      rcases htrap with htrap | ⟨msg, htrap⟩ <;> cases htrap
  · intro htypes
    refine ⟨fun hlen => ?_, fun _ hne => absurd htypes hne, Or.inr ⟨?_, htypes⟩⟩
    · exact absurd (by rw [← htypes, List.length_map]) hlen
    · exact runs_of_types hreads inst lenResults s htypes

/-- A function that adds nothing to WAMR's state and returns nothing. -/
def returnsNothing : List WasmVal → List Val → Unit → WasmCall Unit :=
  fun rawResults _ s => ⟨true, rawResults, s⟩

theorem arguments_checked_right :
    ArgsChecked [.i32, .f64] [.i32 1, .f64 2] [] ⟨(), []⟩
      ((⟨0, 2, 0⟩ : Func).call (callByType [.i32, .f64] returnsNothing) (fun _ => none)
        [.i32 1, .f64 2] [] ⟨(), []⟩) :=
  (arguments_checked_iff [.i32, .f64] 0 0 (callByType [.i32, .f64] returnsNothing)
    (callByType_reads _ _) (fun _ => none) [.i32 1, .f64 2] [] ⟨(), []⟩ (by decide)).mpr rfl

/-- A missing argument is reported as a trap without a text. A float for an integer is not
reported: the function is run on the bits of the float. -/
theorem arguments_unchecked :
    (⟨0, 1, 0⟩ : Func).call (callByType [.i32] returnsNothing) (fun _ => none) [] [] ⟨(), []⟩
        = ((.error (.trap ""), []), ⟨(), []⟩) ∧
      (⟨0, 1, 0⟩ : Func).call (callByType [.i32] returnsNothing) (fun _ => none)
          [.f32 0x3f800000] [] ⟨(), []⟩
        = ((.ok (), []), ⟨(), [[.i32 1065353216]]⟩) ∧
      ¬ ArgsChecked [.i32] [] [] ⟨(), []⟩ (((.error (.trap ""), []), ⟨(), []⟩) :
        CallOutcome × Logged Unit) ∧
      ¬ ArgsChecked [.i32] [.f32 0x3f800000] [] ⟨(), []⟩ (((.ok (), []),
        ⟨(), [[.i32 1065353216]]⟩) : CallOutcome × Logged Unit) := by
  refine ⟨rfl, rfl, fun h => ?_, fun h => ?_⟩
  · have := h.count (by decide)
    cases this
  · obtain ⟨_, _, _, -, -, -, hr⟩ := h.types rfl (by decide)
    cases hr

end Wamrx.Proofs
