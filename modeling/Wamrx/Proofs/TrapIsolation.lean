import Wamrx.Proofs.CallOutcomes
import Wamrx.Support.Run

/-!
# `Wamrx.Proofs.TrapIsolation`: traps stay on their side

WAMR writes an exception into the slot of one instance, and a host function may call into other
instances. So a trap may spread along nested calls, and nowhere else. What the functions and the
host functions of each call do is given, the same in every history.

`Within P` says that a host function makes nested calls into the instances in `P` only.
`trap_isolation` splits the instances into two sides: when no call crosses, the outcomes on one
side are the same as if the calls on the other side had never been made.
-/

set_option autoImplicit false

namespace Wamrx.Proofs

open Support

/-- All calls that the host function makes, at any depth, are on instances in `P`. -/
inductive Within (P : Nat → Prop) : HostCode → Prop where
  | leave (result : Option Val) : Within P (.leave result)
  | panic : Within P .panic
  | call (f : Func) (params results : List Val) (body : Guest) (hosts : List HostCall → HostCode)
      (junk : Nat → BitVec 32) (next : CallOutcome → HostCode) :
      P f.inst → (∀ calls, Within P (hosts calls)) → (∀ outcome, Within P (next outcome)) →
      Within P (.call f params results body hosts junk next)

/-- A call from outside that stays within `P`. -/
def CallWithin (P : Nat → Prop) (c : Call) : Prop :=
  P c.func.inst ∧ ∀ calls, Within P (c.hosts calls)

/-- The two states have the same slots for the instances in `P`. -/
def AgreeOn (P : Nat → Prop) (s t : ExnState) : Prop := ∀ i, P i → s.slots i = t.slots i

variable {P : Nat → Prop} {s t : ExnState}

/-- The same exception in both states. -/
theorem AgreeOn.raise (inst : Nat) (text : Name) (h : AgreeOn P s t) :
    AgreeOn P (s.raise inst text) (t.raise inst text) := by
  intro i hi
  simp only [ExnState.raise, Function.update_apply]
  split
  · rfl
  · exact h i hi

/-- An exception on the other side. -/
theorem AgreeOn.raise_apart {inst : Nat} (hinst : ¬ P inst) (text : Name) (h : AgreeOn P s t) :
    AgreeOn P (s.raise inst text) t := by
  intro i hi
  have hne : i ≠ inst := fun heq => hinst (heq ▸ hi)
  exact (Function.update_of_ne hne _ _).trans (h i hi)

/-! ### Calls on the same side -/

/-- Executions end the same way from states that agree, if the host functions do the same. -/
theorem execute_agree {inst : Nat} (hinst : P inst)
    {host : List HostCall → ExnState → HostReturn × ExnState}
    (hhost : ∀ calls s t, AgreeOn P s t →
      (host calls s).1 = (host calls t).1 ∧ AgreeOn P (host calls s).2 (host calls t).2)
    (body : Guest) (hst : AgreeOn P s t) :
    Option.Rel (fun a b => a.1 = b.1 ∧ AgreeOn P a.2 b.2)
      (body.execute inst host s) (body.execute inst host t) := by
  -- The host calls of the two executions are the same, so the host functions are.
  let R : Traced ExnState → Traced ExnState → Prop :=
    fun t t' => AgreeOn P t.state t'.state ∧ t.calls = t'.calls
  have hrun := guest_agree (ExnState.slot inst).traced (hostStep host) R
    (fun _ _ h => h.1 inst hinst) (fun text _ _ h => ⟨h.1.raise inst text, h.2⟩)
    (fun k args t t' h => by
      obtain ⟨hagree, hcalls⟩ := h
      obtain ⟨hr, hR⟩ := hhost (t.calls ++ [(k, args)]) _ _ hagree
      refine .some ⟨?_, ?_, ?_⟩
      · rw [← hcalls]; exact hr
      · rw [← hcalls]; exact hR
      · rw [← hcalls])
    body (s := ⟨s, []⟩) (t := ⟨t, []⟩) ⟨hst, rfl⟩
  unfold Guest.execute
  rcases optionRel_cases hrun with ⟨hs, ht⟩ | ⟨a, b, hs, ht, hend, hR⟩
  · rw [hs, ht]
    exact .none
  · rw [hs, ht]
    exact .some ⟨hend, hR.1⟩

/-- A host function within `P` does the same from states that agree on `P`. -/
theorem hostCode_agree {code : HostCode} (hcode : Within P code) {inst : Nat} (hinst : P inst)
    (hst : AgreeOn P s t) : (code.run inst s).1 = (code.run inst t).1 ∧
      AgreeOn P (code.run inst s).2 (code.run inst t).2 := by
  induction hcode generalizing inst s t with
  | leave result => exact ⟨rfl, hst⟩
  | panic => exact ⟨rfl, hst.raise inst _⟩
  | call f params results body hosts junk next hf _ _ ihHosts ihNext =>
    obtain ⟨houtcome, hstate⟩ := invoke_agree (ExnState.slot f.inst) f junk (AgreeOn P)
      (fun _ _ h => h f.inst hf)
      (fun _ _ _ => execute_agree hf (fun calls _ _ h => ihHosts calls hf h) body) params results
      hst
    simp only [HostCode.run]
    rw [houtcome]
    exact ihNext _ hinst hstate

/-- A call within `P` has the same outcome. -/
theorem perform_agree {c : Call} (hc : CallWithin P c) (hst : AgreeOn P s t) :
    (c.perform s).1 = (c.perform t).1 ∧ AgreeOn P (c.perform s).2 (c.perform t).2 := by
  obtain ⟨hinst, hhosts⟩ := hc
  exact invoke_agree _ c.func c.junk (AgreeOn P) (fun _ _ h => h c.func.inst hinst)
    (fun _ _ _ => execute_agree hinst
      (fun calls _ _ h => hostCode_agree (hhosts calls) hinst h) c.body)
    c.params c.results hst

/-! ### Calls on the other side -/

/-- A host function on the other side of `P` changes no slot of `P`. -/
theorem hostCode_apart {code : HostCode} (hcode : Within (fun i => ¬ P i) code) {inst : Nat}
    (hinst : ¬ P inst) (hst : AgreeOn P s t) : AgreeOn P (code.run inst s).2 t := by
  induction hcode generalizing inst s with
  | leave result => exact hst
  | panic => exact hst.raise_apart hinst _
  | call f params results body hosts junk next hf _ _ ihHosts ihNext =>
    refine ihNext _ hinst (invoke_inv (AgreeOn P · t) ?_ params results hst)
    exact fun _ _ _ => execute_inv (AgreeOn P · t) (fun text _ h => h.raise_apart hf text)
      fun calls _ h => ihHosts calls hf h

/-- Nor does a call from outside. -/
theorem perform_apart {c : Call} (hc : CallWithin (fun i => ¬ P i) c) (hst : AgreeOn P s t) :
    AgreeOn P (c.perform s).2 t := by
  obtain ⟨hinst, hhosts⟩ := hc
  refine invoke_inv (AgreeOn P · t) ?_ c.params c.results hst
  exact fun _ _ _ => execute_inv (AgreeOn P · t) (fun text _ h => h.raise_apart hinst text)
    fun calls _ h => hostCode_apart (hhosts calls) hinst h

/-! ### Histories -/

/-- The outcomes of the calls on instances in `P`, in a history of calls. -/
def outcomesOn (P : Nat → Prop) [DecidablePred P] (calls : List Call) : List CallOutcome :=
  outputs (fun s c => Call.perform c s) (fun c => P c.func.inst) ExnState.init calls

/-- Split the instances into two sides, and take any history of calls that stay on their sides, the
calls nested in host functions included. What the function of each call and its host functions do
is given. The calls on one side have the same outcomes as in the history without the calls on the
other side: no trap and no panic gets across, and no earlier exception. -/
theorem trap_isolation (P : Nat → Prop) [DecidablePred P] (calls : List Call)
    (hcalls : ∀ c ∈ calls, CallWithin P c ∨ CallWithin (fun i => ¬ P i) c) :
    outcomesOn P calls = outcomesOn P (calls.filter fun c => P c.func.inst) := by
  refine outputs_filter (AgreeOn P) ?_ ?_ (fun _ _ => rfl) hcalls
  · intro s t c hP hc hst
    rcases hc with hin | hout
    · exact perform_agree hin hst
    · exact absurd hP hout.1
  · intro s t c hP hc hst
    rcases hc with hin | hout
    · exact absurd hin.1 hP
    · exact perform_apart hout hst

/-- A call on instance 0 whose host function calls into instance 2, where that traps. The host
function handles the error. -/
def spreads : Call where
  func := ⟨0, 0, 0⟩
  params := []
  results := []
  body := .callHost 0 [] fun _ => .ret []
  hosts := fun _ => .call ⟨2, 0, 0⟩ [] [] (.trap "unreachable".toUTF8.data.toList)
    (fun _ => .leave none) (fun _ => 0) fun _ => .leave none
  junk := fun _ => 0

/-- A call on instance 1 that returns, and one on instance 2. -/
def onOne : Call := plainCall 1 (.ret [])
def onTwo : Call := plainCall 2 (.ret [])

/-- Instance 2 keeps the exception, and instance 1 has none. -/
theorem trap_isolation_spreads :
    outcomesOn (· = 1) [spreads, onOne, onTwo, onOne] = outcomesOn (· = 1) [onOne, onOne] ∧
      outcomesOn (· = 1) [onOne, onOne] = [(.ok (), []), (.ok (), [])] ∧
      outcomesOn (· = 2) [spreads, onOne, onTwo, onOne]
        = [(.error (.trap "Exception: unreachable"), [])] := by
  refine ⟨trap_isolation (· = 1) [spreads, onOne, onTwo, onOne] ?_, rfl, rfl⟩
  intro c hc
  simp only [List.mem_cons, List.not_mem_nil, or_false] at hc
  rcases hc with rfl | rfl | rfl | rfl
  · exact Or.inr ⟨by decide, fun _ => .call _ _ _ _ _ _ _ (by decide) (fun _ => .leave _)
      fun _ => .leave _⟩
  · exact Or.inl ⟨rfl, fun _ => .leave _⟩
  · exact Or.inr ⟨by decide, fun _ => .leave _⟩
  · exact Or.inl ⟨rfl, fun _ => .leave _⟩

end Wamrx.Proofs
