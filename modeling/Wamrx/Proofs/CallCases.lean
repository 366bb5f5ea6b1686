import Wamrx.FuncCall

/-!
# `Wamrx.Proofs.CallCases`: the exits of `Func::call`

`call_cases` lists the exits: a buffer that is too short, WAMR's failure, and WAMR's success. What
WAMR does is a parameter, and `answer` is what it answers in the call. `storeResults_spec` is
the buffer of results after a success.
-/

set_option autoImplicit false

namespace Wamrx.Proofs

/-! ### The exits of a call -/

section

variable {σ : Type} (f : Func) (callWasmA : CallWasmA σ) (getException : σ → Option Name)
  (params results : List Val) (s : σ)

/-- What WAMR answers to the call, if it is asked. -/
def answer : WasmCall σ :=
  callWasmA (UInt32.ofNat f.lenResults.toNat) (List.replicate f.lenResults.toNat WasmVal.zeroed)
    (UInt32.ofNat params.length) (params.map Val.toWasmVal) s

/-- The exits of `Func::call`. -/
theorem call_cases :
    (results.length < f.lenResults.toNat ∧ f.call callWasmA getException params results s
      = ((.error (.signatureMismatch f.lenResults.toNat results.length), results), s)) ∨
    (f.lenResults.toNat ≤ results.length ∧ (answer f callWasmA params s).ok = false ∧
      f.call callWasmA getException params results s
        = ((.error (.trap (cstrPtrToString (getException (answer f callWasmA params s).state))),
            results), (answer f callWasmA params s).state)) ∨
    (f.lenResults.toNat ≤ results.length ∧ (answer f callWasmA params s).ok = true ∧
      f.call callWasmA getException params results s
        = ((.ok (), storeResults results (answer f callWasmA params s).rawResults),
            (answer f callWasmA params s).state)) := by
  unfold Func.call
  simp only [List.length_map]
  by_cases hshort : results.length < f.lenResults.toNat
  · exact Or.inl ⟨hshort, if_pos hshort⟩
  · rw [if_neg hshort]
    cases hok : (answer f callWasmA params s).ok with
    | false => exact Or.inr (Or.inl ⟨Nat.not_lt.mp hshort, rfl, if_neg (by simp [← hok, answer])⟩)
    | true => exact Or.inr (Or.inr ⟨Nat.not_lt.mp hshort, rfl, if_pos hok⟩)

end

/-! ### The buffer of results -/

/-- Storing raw results: the decoded results, and the rest of the buffer as it was. -/
theorem storeResults_eq (results : List Val) (raw : List WasmVal)
    (h : raw.length ≤ results.length) :
    storeResults results raw = raw.map Val.fromWasmVal ++ results.drop raw.length := by
  induction raw generalizing results with
  | nil => cases results <;> rfl
  | cons r raw ih =>
    cases results with
    | nil => simp at h
    | cons v results =>
      simp only [storeResults, List.map_cons, List.cons_append, List.length_cons,
        List.drop_succ_cons]
      rw [ih results (by simpa using h)]

/-- The slots of the buffer after raw results were stored. -/
theorem storeResults_getElem? {results : List Val} {raw : List WasmVal}
    (h : raw.length ≤ results.length) (i : Nat) :
    (storeResults results raw)[i]? =
      if i < raw.length then raw[i]?.map Val.fromWasmVal else results[i]? := by
  rw [storeResults_eq results raw h, List.getElem?_append, List.length_map]
  split
  · rw [List.getElem?_map]
  · rw [List.getElem?_drop]
    congr 1
    omega

/-- The buffer after raw results were stored: it has its length, the first slots are the decoded
results in order, and the others are as they were. -/
theorem storeResults_spec {results : List Val} {raw : List WasmVal}
    (h : raw.length ≤ results.length) :
    (storeResults results raw).length = results.length ∧
      (∀ i, i < raw.length → ∃ r, raw[i]? = some r ∧
        (storeResults results raw)[i]? = some (Val.fromWasmVal r)) ∧
      ∀ i, raw.length ≤ i → (storeResults results raw)[i]? = results[i]? := by
  refine ⟨?_, fun i hi => ?_, fun i hi => ?_⟩
  · rw [storeResults_eq results raw h, List.length_append, List.length_map, List.length_drop]
    omega
  · refine ⟨raw[i], List.getElem?_eq_getElem hi, ?_⟩
    rw [storeResults_getElem? h, if_pos hi, List.getElem?_eq_getElem hi]
    rfl
  · rw [storeResults_getElem? h, if_neg (Nat.not_lt.mpr hi)]

end Wamrx.Proofs
