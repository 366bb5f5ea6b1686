import Wamrx.Guest
import Wamrx.Proofs.CallCases
import Wamrx.Support.Run

/-!
# `Wamrx.Proofs.GuestRuns`: rules for executions and calls

What a call of an import keeps, an execution keeps, and so does a `Func::call` around it. Each rule
here is for every function and for any host functions.

* `guest_inv`, `invoke_inv`: invariants.
* `guest_agree`, `invoke_agree`: from two states that are related, the same ends.
* `leaves_run`: an execution that does not return leaves the exception slot full.
* `invoke_of_short`, `invoke_of_count_ne`, `invoke_of_runs`: the exits of a call.
-/

set_option autoImplicit false

namespace Wamrx.Proofs

open Support

variable {σ : Type} {slot : ExceptionSlot σ}
  {host : Nat → List Val → σ → Option (HostReturn × σ)}

/-- A host call: WAMR goes on if the slot is empty when it comes back. -/
theorem run_callHost (k : Nat) (args : List Val) (next : Option Val → Guest) (s : σ) :
    (Guest.callHost k args next).run slot host s = (host k args s).bind fun r =>
      if (slot.get r.2).isSome then some (Guest.stop r.1.raised, r.2)
      else (next r.1.result).run slot host r.2 := rfl

/-! ### Executions -/

/-- What the host functions and the exceptions keep, an execution keeps. -/
theorem guest_inv (I : σ → Prop) (hset : ∀ text s, I s → I (slot.set text s))
    (hhost : ∀ k args s r, I s → host k args s = some r → I r.2) {g : Guest} {s : σ}
    {r : GuestEnd × σ} (hs : I s) (hrun : g.run slot host s = some r) : I r.2 := by
  induction g generalizing s with
  | ret values => cases hrun; exact hs
  | trap text => cases hrun; exact hset text s hs
  | callHost k args next ih =>
    rw [run_callHost, Option.bind_eq_some_iff] at hrun
    obtain ⟨m, hm, hrun⟩ := hrun
    have hI := hhost k args s m hs hm
    split at hrun
    · cases hrun
      exact hI
    · exact ih _ hI hrun

/-- Two states with the same slot stay related, and the execution ends the same way in both. -/
theorem guest_agree (slot : ExceptionSlot σ) (host : Nat → List Val → σ → Option (HostReturn × σ))
    (R : σ → σ → Prop) (hget : ∀ s t, R s t → slot.get s = slot.get t)
    (hset : ∀ text s t, R s t → R (slot.set text s) (slot.set text t))
    (hhost : ∀ k args s t, R s t →
      Option.Rel (fun a b => a.1 = b.1 ∧ R a.2 b.2) (host k args s) (host k args t))
    (g : Guest) {s t : σ} (hst : R s t) :
    Option.Rel (fun a b => a.1 = b.1 ∧ R a.2 b.2) (g.run slot host s) (g.run slot host t) := by
  induction g generalizing s t with
  | ret values => exact .some ⟨rfl, hst⟩
  | trap text => exact .some ⟨rfl, hset text s t hst⟩
  | callHost k args next ih =>
    rw [run_callHost, run_callHost]
    refine optionRel_bind (hhost k args s t hst) ?_
    rintro ⟨r, s'⟩ ⟨r', t'⟩ ⟨hr, hst'⟩
    cases hr
    simp only [hget s' t' hst']
    split
    · exact .some ⟨rfl, hst'⟩
    · exact ih _ hst'

/-- What an end says about the slot. -/
def Leaves : GuestEnd → Option Name → Prop
  | .returned _, _ => True
  | .raised text, exception => exception = some (storedException text)
  | .stopped, exception => exception.isSome

/-- An exception of the execution's own is the last one in the slot, and an execution that is
stopped leaves the exception that it was stopped for. -/
theorem leaves_run (slot : ExceptionSlot σ) (hhost : ∀ k args s r, host k args s = some r →
      ∀ text, r.1.raised = some text → slot.get r.2 = some (storedException text))
    {g : Guest} {s : σ} {r : GuestEnd × σ} (hrun : g.run slot host s = some r) :
    Leaves r.1 (slot.get r.2) := by
  induction g generalizing s with
  | ret values => cases hrun; trivial
  | trap text => cases hrun; exact slot.get_set text s
  | callHost k args next ih =>
    rw [run_callHost, Option.bind_eq_some_iff] at hrun
    obtain ⟨m, hm, hrun⟩ := hrun
    split at hrun
    · rename_i hfull
      cases hrun
      cases hraised : m.1.raised with
      | none => exact hfull
      | some text => exact hhost k args s m hm text hraised
    · exact ih _ hrun

/-! ### Calls -/

variable {f : Func} {exec : List WasmVal → σ → Option (GuestEnd × σ)} {junk : Nat → BitVec 32}

/-- WAMR's answer to a call, from the end of the execution. -/
theorem callFunction_eq (slot : ExceptionSlot σ) (f : Func)
    (exec : List WasmVal → σ → Option (GuestEnd × σ)) (junk : Nat → BitVec 32)
    (raw args : List WasmVal) {s s' : σ} {ending : GuestEnd}
    (hexec : exec args s = some (ending, s')) :
    let r := callFunction slot f exec junk f.lenResults raw f.lenParams args s
    r.ok = (slot.get s').isNone ∧ r.state = s' ∧
      ∀ values, ending = .returned values → r.rawResults = taggedResults values junk := by
  simp only [callFunction, hexec, ne_eq, not_true_eq_false, or_self, if_false]
  cases ending with
  | returned values => exact ⟨rfl, rfl, fun values' h => by cases h; rfl⟩
  | raised text => exact ⟨rfl, rfl, nofun⟩
  | stopped => exact ⟨rfl, rfl, nofun⟩

/-- A call with a short buffer returns before it reaches WAMR. -/
theorem invoke_of_short (slot : ExceptionSlot σ) (f : Func)
    (exec : List WasmVal → σ → Option (GuestEnd × σ)) (junk : Nat → BitVec 32)
    (params : List Val) {results : List Val} (s : σ)
    (hshort : results.length < f.lenResults.toNat) :
    f.invoke slot exec junk params results s
      = ((.error (.signatureMismatch f.lenResults.toNat results.length), results), s) :=
  if_pos hshort

/-- A call with a wrong argument count: WAMR refuses it without running the function, and the text
is whatever is in the slot. -/
theorem invoke_of_count_ne (slot : ExceptionSlot σ) (f : Func)
    (exec : List WasmVal → σ → Option (GuestEnd × σ)) (junk : Nat → BitVec 32)
    {params results : List Val} (s : σ) (hlen : f.lenResults.toNat ≤ results.length)
    (hcount : UInt32.ofNat params.length ≠ f.lenParams) :
    f.invoke slot exec junk params results s
      = ((.error (.trap (cstrPtrToString (slot.get s))), results), s) := by
  have hans : answer f (callFunction slot f exec junk) params s
      = ⟨false, List.replicate f.lenResults.toNat WasmVal.zeroed, s⟩ := if_pos (Or.inl hcount)
  rcases call_cases f (callFunction slot f exec junk) slot.get params results s with
    ⟨hshort, -⟩ | ⟨-, -, hcall⟩ | ⟨-, hok, -⟩
  · omega
  · rw [Func.invoke, hcall, hans]
  · rw [hans] at hok
    cases hok

/-- A call that runs its function. Its results are stored if the function returns and the slot is
empty, and otherwise the call reports what is in the slot. -/
theorem invoke_of_runs (slot : ExceptionSlot σ) (f : Func)
    (exec : List WasmVal → σ → Option (GuestEnd × σ)) (junk : Nat → BitVec 32)
    {params results : List Val} {s s' : σ} {ending : GuestEnd}
    (hlen : f.lenResults.toNat ≤ results.length)
    (hcount : UInt32.ofNat params.length = f.lenParams)
    (hexec : exec (params.map Val.toWasmVal) s = some (ending, s'))
    (hleaves : Leaves ending (slot.get s')) :
    (∃ values, ending = .returned values ∧ slot.get s' = none ∧
      f.invoke slot exec junk params results s
        = ((.ok (), storeResults results (taggedResults values junk)), s')) ∨
    (∃ text, slot.get s' = some text ∧ f.invoke slot exec junk params results s
        = ((.error (.trap (cstrPtrToString (some text))), results), s')) := by
  have hans : answer f (callFunction slot f exec junk) params s
      = callFunction slot f exec junk f.lenResults
          (List.replicate f.lenResults.toNat WasmVal.zeroed) f.lenParams
          (params.map Val.toWasmVal) s := by
    rw [answer, UInt32.ofNat_toNat, hcount]
  obtain ⟨hok, hstate, hraw⟩ := callFunction_eq slot f exec junk
    (List.replicate f.lenResults.toNat WasmVal.zeroed) (params.map Val.toWasmVal) hexec
  rw [← hans] at hok hstate hraw
  rcases call_cases f (callFunction slot f exec junk) slot.get params results s with
    ⟨hshort, -⟩ | ⟨-, hno, hcall⟩ | ⟨-, hyes, hcall⟩
  · omega
  · rw [hok, Option.isNone_eq_false_iff, Option.isSome_iff_exists] at hno
    obtain ⟨text, htext⟩ := hno
    exact Or.inr ⟨text, htext, by rw [Func.invoke, hcall, hstate, htext]⟩
  · rw [hok, Option.isNone_iff_eq_none] at hyes
    cases ending with
    | returned values =>
      exact Or.inl ⟨values, rfl, hyes, by rw [Func.invoke, hcall, hstate, hraw values rfl]⟩
    -- An execution that does not return has left an exception.
    | raised text => cases hyes.symm.trans hleaves
    | stopped => rw [hyes] at hleaves; cases hleaves

/-- What the execution keeps, the call keeps: `Func::call` changes nothing itself. -/
theorem invoke_inv (I : σ → Prop)
    (hexec : ∀ args s r, I s → exec args s = some r → I r.2) (params results : List Val) {s : σ}
    (hs : I s) : I (f.invoke slot exec junk params results s).2 := by
  have hw : ∀ n raw m args, I (callFunction slot f exec junk n raw m args s).state := by
    intro n raw m args
    unfold callFunction
    split
    · exact hs
    · cases hr : exec args s with
      | none => exact hs
      | some r =>
        have hI := hexec args s r hs hr
        obtain ⟨ending, s'⟩ := r
        cases ending <;> exact hI
  rcases call_cases f (callFunction slot f exec junk) slot.get params results s with
    ⟨-, hcall⟩ | ⟨-, -, hcall⟩ | ⟨-, -, hcall⟩ <;> rw [Func.invoke, hcall]
  · exact hs
  · exact hw _ _ _ _
  · exact hw _ _ _ _

/-- If the execution ends the same way from two related states, so does the call. -/
theorem invoke_agree (slot : ExceptionSlot σ) (f : Func) (junk : Nat → BitVec 32)
    (R : σ → σ → Prop) (hget : ∀ s t, R s t → slot.get s = slot.get t)
    (hexec : ∀ args s t, R s t →
      Option.Rel (fun a b => a.1 = b.1 ∧ R a.2 b.2) (exec args s) (exec args t))
    (params results : List Val) {s t : σ} (hst : R s t) :
    (f.invoke slot exec junk params results s).1 = (f.invoke slot exec junk params results t).1 ∧
      R (f.invoke slot exec junk params results s).2
        (f.invoke slot exec junk params results t).2 := by
  -- What WAMR answers is made from the end of the execution and from the slot behind it.
  have hans : ∀ n raw m args, let r := callFunction slot f exec junk n raw m args
      (r s).ok = (r t).ok ∧ (r s).rawResults = (r t).rawResults ∧ R (r s).state (r t).state := by
    intro n raw m args
    simp only [callFunction]
    split
    · exact ⟨rfl, rfl, hst⟩
    · generalize hs : exec args s = a, ht : exec args t = b
      have hab := hexec args s t hst
      rw [hs, ht] at hab
      cases hab with
      | none => exact ⟨rfl, rfl, hst⟩
      | some h =>
        obtain ⟨hend, hR⟩ := h
        rename_i a b
        obtain ⟨ending, s'⟩ := a
        obtain ⟨ending', t'⟩ := b
        cases hend
        have hslot : slot.get s' = slot.get t' := hget s' t' hR
        cases ending <;> exact ⟨congrArg Option.isNone hslot, rfl, hR⟩
  simp only [Func.invoke, Func.call]
  split
  · exact ⟨rfl, hst⟩
  · obtain ⟨hok, hraw, hstate⟩ := hans (UInt32.ofNat f.lenResults.toNat)
      (List.replicate f.lenResults.toNat WasmVal.zeroed)
      (UInt32.ofNat (params.map Val.toWasmVal).length) (params.map Val.toWasmVal)
    rw [hok, hraw]
    split
    · exact ⟨rfl, hstate⟩
    · exact ⟨by rw [hget _ _ hstate], hstate⟩

end Wamrx.Proofs
