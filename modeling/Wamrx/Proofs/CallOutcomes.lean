import Wamrx.CallHistory
import Wamrx.Proofs.GuestRuns

/-!
# `Wamrx.Proofs.CallOutcomes`: what the outcome of a call depends on

The exception slot of an instance holds the last exception raised on it, and it is never
cleared. So a call that goes well fails all the same once an earlier call has trapped, and a call
that uses a host function does not even get behind it.

* `slotsInv_history`: a slot is written exactly when an exception was raised on its instance.
* `call_outcome_iff`: the outcome of a call is its own exactly when the call meets
  `CallCondition`.
* `call_outcome_stale`: a call that fails with the trap of the call before it.
-/

set_option autoImplicit false

namespace Wamrx.Proofs

/-! ### Executions on the slots -/

section

variable {inst : Nat} {host : List HostCall → ExnState → HostReturn × ExnState} {body : Guest}
  {s : ExnState} {r : GuestEnd × ExnState}

/-- An execution is always defined: its host functions are. -/
theorem exists_execute (inst : Nat) (host : List HostCall → ExnState → HostReturn × ExnState)
    (body : Guest) (s : ExnState) : ∃ r, body.execute inst host s = some r := by
  have hrun : ∀ t, ∃ r, body.run (ExnState.slot inst).traced (hostStep host) t = some r := by
    induction body with
    | ret values => exact fun t => ⟨_, rfl⟩
    | trap text => exact fun t => ⟨_, rfl⟩
    | callHost k args next ih =>
      intro t
      rw [run_callHost, hostStep, Option.bind_some]
      split
      · exact ⟨_, rfl⟩
      · exact ih _ _
  obtain ⟨r, hr⟩ := hrun ⟨s, []⟩
  exact ⟨(r.1, r.2.state), by rw [Guest.execute, hr]; rfl⟩

/-- What the host functions and the exceptions keep, an execution keeps. -/
theorem execute_inv (I : ExnState → Prop) (hraise : ∀ text s, I s → I (s.raise inst text))
    (hhost : ∀ calls s, I s → I (host calls s).2) (hs : I s)
    (hexec : body.execute inst host s = some r) : I r.2 := by
  obtain ⟨r', hrun, rfl⟩ := Option.map_eq_some_iff.mp hexec
  refine guest_inv (fun t : Traced ExnState => I t.state) (fun text t => hraise text t.state) ?_ hs
    hrun
  rintro k args t _ ht ⟨⟩
  exact hhost _ _ ht

/-- The slot at the end of an execution. -/
theorem leaves_execute (hhost : ∀ calls s text, (host calls s).1.raised = some text →
      (host calls s).2.slots inst = some (storedException text))
    (hexec : body.execute inst host s = some r) : Leaves r.1 (r.2.slots inst) := by
  obtain ⟨r', hrun, rfl⟩ := Option.map_eq_some_iff.mp hexec
  refine leaves_run (ExnState.slot inst).traced ?_ hrun
  rintro k args t _ ⟨⟩ text hraised
  exact hhost _ _ text hraised

end

/-! ### The slots -/

/-- A slot is empty exactly when no exception was raised on its instance. -/
def SlotsInv (s : ExnState) : Prop :=
  ∀ inst, s.slots inst = none ↔ ∀ text, (inst, text) ∉ s.raised

theorem slotsInv_init : SlotsInv ExnState.init := by
  intro inst
  simp [ExnState.init]

/-- Raising an exception fills the slot of its instance. -/
theorem slotsInv_raise (inst : Nat) (text : Name) {s : ExnState} (h : SlotsInv s) :
    SlotsInv (s.raise inst text) := by
  intro i
  simp only [ExnState.raise]
  by_cases hi : i = inst
  · subst hi
    rw [Function.update_self]
    exact iff_of_false (by simp) fun hall => hall text (by simp)
  · rw [Function.update_of_ne hi, h i]
    simp [hi]

/-- Every host function keeps the invariant, by induction on what it does. -/
theorem slotsInv_hostCode (code : HostCode) :
    ∀ inst s, SlotsInv s → SlotsInv (code.run inst s).2 := by
  induction code with
  | leave result => exact fun _ _ h => h
  | panic => exact fun inst _ h => slotsInv_raise inst _ h
  | call f params results body hosts junk next ihHosts ihNext =>
    intro inst s h
    refine ihNext _ inst _ (invoke_inv SlotsInv ?_ params results h)
    exact fun _ _ _ => execute_inv SlotsInv (fun text _ => slotsInv_raise f.inst text)
      fun calls => ihHosts calls f.inst

theorem slotsInv_execute (c : Call) {s : ExnState} {r : GuestEnd × ExnState} (h : SlotsInv s) :
    c.execute s = some r → SlotsInv r.2 :=
  execute_inv SlotsInv (fun text _ => slotsInv_raise c.func.inst text)
    (fun calls => slotsInv_hostCode (c.hosts calls) c.func.inst) h

theorem slotsInv_perform (c : Call) {s : ExnState} (h : SlotsInv s) :
    SlotsInv (c.perform s).2 :=
  invoke_inv SlotsInv (fun _ _ _ hs => slotsInv_execute c hs) c.params c.results h

/-- After every history of calls, the slots tell on which instances exceptions were raised. -/
theorem slotsInv_history (calls : List Call) : SlotsInv (history calls) := by
  -- Generalised over the start, because the fold moves it.
  have hfold : ∀ s, SlotsInv s → SlotsInv (calls.foldl (fun s c => (c.perform s).2) s) := by
    induction calls with
    | nil => exact fun _ h => h
    | cons c calls ih => exact fun s h => ih _ (slotsInv_perform c h)
  exact hfold _ slotsInv_init

/-- An exception that a host function raises is the last one in the slot of the caller: what its
own calls left there is overwritten. -/
theorem slot_of_hostCode (code : HostCode) {inst : Nat} {s : ExnState} {text : Name} :
    (code.run inst s).1.raised = some text →
      (code.run inst s).2.slots inst = some (storedException text) := by
  induction code generalizing s with
  | leave result => intro h; cases h
  | panic =>
    intro h
    cases h
    exact ExnState.slots_raise _ _ _
  | call f params results body hosts junk next _ ihNext => exact fun h => ihNext _ h

/-! ### The outcome of one call -/

/-- The call reaches WAMR, and WAMR finds the right number of arguments. `args.len() as u32`
is what it compares. -/
def Runs (c : Call) : Prop :=
  c.func.lenResults.toNat ≤ c.results.length ∧
    UInt32.ofNat c.params.length = c.func.lenParams

instance (c : Call) : Decidable (Runs c) := inferInstanceAs (Decidable (_ ∧ _))

/-- How the call's own execution ends, if the function is run. -/
def ending (c : Call) (s : ExnState) : Option GuestEnd :=
  if Runs c then (c.execute s).map Prod.fst else none

/-- The outcome of the call is its own: results if its execution returns, and a trap only with the
exception that its execution raised. -/
structure OutcomeOwn (c : Call) (s : ExnState) : Prop where
  returns : ∀ values, ending c s = some (.returned values) →
    (c.perform s).1 = (.ok (), storeResults c.results (taggedResults values c.junk))
  traps : ∀ msg, (c.perform s).1.1 = .error (.trap msg) →
    ∃ text, ending c s = some (.raised text) ∧ msg = cstrPtrToString (some (storedException text))

/-- The exceptions raised on the instance of the call until its function ends, by earlier calls
and by the calls nested in this one. -/
def raisedBefore (c : Call) (s : ExnState) : List Name :=
  (c.execute s).elim [] fun r => (r.2.raised.filter (·.1 = c.func.inst)).map Prod.snd

/-- The condition on a call: its buffer is too short, so that it never reaches WAMR, or its
argument count is right and either its execution gets as far as an exception of its own or none was
ever raised on its instance. -/
def CallCondition (c : Call) (s : ExnState) : Prop :=
  c.results.length < c.func.lenResults.toNat ∨
    (UInt32.ofNat c.params.length = c.func.lenParams ∧
      ((∃ text, (c.execute s).map Prod.fst = some (.raised text)) ∨ raisedBefore c s = []))

/-- A call that runs its function, exit by exit. -/
theorem perform_of_runs {c : Call} {s s' : ExnState} {e : GuestEnd} (h : Runs c)
    (hexec : c.execute s = some (e, s')) :
    (∃ values, e = .returned values ∧ s'.slots c.func.inst = none ∧ c.perform s
      = ((.ok (), storeResults c.results (taggedResults values c.junk)), s')) ∨
    (∃ text, s'.slots c.func.inst = some text ∧ c.perform s
      = ((.error (.trap (cstrPtrToString (some text))), c.results), s')) :=
  invoke_of_runs (ExnState.slot c.func.inst) c.func (fun _ => c.execute) c.junk h.1 h.2 hexec
    (leaves_execute (fun calls _ _ => slot_of_hostCode (c.hosts calls)) hexec)

/-- The slot at the end of the execution is empty exactly when nothing was raised before. -/
theorem slot_eq_none_iff {c : Call} {s s' : ExnState} {e : GuestEnd} (h : SlotsInv s)
    (hexec : c.execute s = some (e, s')) :
    s'.slots c.func.inst = none ↔ raisedBefore c s = [] := by
  rw [slotsInv_execute c h hexec c.func.inst, raisedBefore, hexec, Option.elim_some,
    List.map_eq_nil_iff, List.filter_eq_nil_iff]
  constructor
  · rintro hnone ⟨inst, text⟩ hmem
    simp only [decide_eq_true_eq]
    rintro rfl
    exact hnone text hmem
  · intro hall text hmem
    exact hall _ hmem (by simp)

/-! ### The outcome, exit by exit -/

/-- A call with a short buffer returns before it reaches WAMR. -/
theorem outcomeOwn_of_short {c : Call} (s : ExnState)
    (h : c.results.length < c.func.lenResults.toNat) : OutcomeOwn c s := by
  have hends : ending c s = none := if_neg fun hr => absurd hr.1 (Nat.not_le.mpr h)
  constructor
  · intro values hr
    rw [hends] at hr
    cases hr
  · intro msg hm
    rw [Call.perform, invoke_of_short _ _ _ _ _ s h] at hm
    cases hm

/-- WAMR refuses a wrong argument count without running the function, and the bindings report a
trap. -/
theorem not_outcomeOwn_of_count_ne {c : Call} (s : ExnState)
    (hlen : c.func.lenResults.toNat ≤ c.results.length)
    (hcount : UInt32.ofNat c.params.length ≠ c.func.lenParams) : ¬ OutcomeOwn c s := by
  intro hown
  have hends : ending c s = none := if_neg fun hr => hcount hr.2
  have hperf := invoke_of_count_ne (ExnState.slot c.func.inst) c.func (fun _ => c.execute) c.junk s
    hlen hcount
  obtain ⟨text, htext, -⟩ := hown.traps _ (congrArg (fun r => r.1.1) hperf)
  rw [hends] at htext
  cases htext

/-- When the function runs, the outcome is its own if it raises an exception, which is then the last
one in the slot, or if the slot is empty at the end. Otherwise the slot holds an exception of
somebody else. The function has returned and its results are lost, or WAMR has stopped it behind a
host call. -/
theorem outcomeOwn_iff_of_runs {c : Call} {s s' : ExnState} {e : GuestEnd} (h : Runs c)
    (hexec : c.execute s = some (e, s')) :
    OutcomeOwn c s ↔ (∃ text, e = .raised text) ∨ s'.slots c.func.inst = none := by
  have hends : ending c s = some e := by rw [ending, if_pos h, hexec]; rfl
  rcases perform_of_runs h hexec with ⟨values, rfl, hslot, hperf⟩ | ⟨text, hslot, hperf⟩
  · refine iff_of_true ⟨fun values' hr => ?_, fun msg hm => ?_⟩ (Or.inr hslot)
    · rw [hends] at hr
      cases hr
      rw [hperf]
    · rw [hperf] at hm
      cases hm
  · cases e with
    | returned values =>
      refine iff_of_false (fun hown => ?_) (by simp [hslot])
      have hreturns := hown.returns values hends
      rw [hperf] at hreturns
      cases hreturns
    | raised text' =>
      -- The last exception in the slot is the one that ended the execution.
      have hlast : s'.slots c.func.inst = some (storedException text') :=
        leaves_execute (fun calls _ _ => slot_of_hostCode (c.hosts calls)) hexec
      refine iff_of_true ⟨fun values hr => ?_, fun msg hm => ?_⟩ (Or.inl ⟨text', rfl⟩)
      · rw [hends] at hr
        cases hr
      · rw [hperf, ← hslot, hlast] at hm
        cases hm
        exact ⟨text', hends, rfl⟩
    | stopped =>
      refine iff_of_false (fun hown => ?_) (by simp [hslot])
      obtain ⟨text', hraised, -⟩ := hown.traps _ (congrArg (fun r => r.1.1) hperf)
      rw [hends] at hraised
      cases hraised

/-- The outcome of a call is its own exactly when the call meets the condition, in every state
in which the slots are right. -/
theorem outcomeOwn_iff {c : Call} {s : ExnState} (h : SlotsInv s) :
    OutcomeOwn c s ↔ CallCondition c s := by
  by_cases hshort : c.results.length < c.func.lenResults.toNat
  · exact iff_of_true (outcomeOwn_of_short s hshort) (Or.inl hshort)
  have hlen : c.func.lenResults.toNat ≤ c.results.length := Nat.not_lt.mp hshort
  by_cases hcount : UInt32.ofNat c.params.length = c.func.lenParams
  · obtain ⟨⟨e, s'⟩, hexec⟩ := exists_execute c.func.inst
      (fun calls => (c.hosts calls).run c.func.inst) c.body s
    rw [outcomeOwn_iff_of_runs ⟨hlen, hcount⟩ hexec, slot_eq_none_iff h hexec, CallCondition,
      show c.execute s = some (e, s') from hexec]
    simp only [hshort, hcount, false_or, true_and, Option.map_some, Option.some.injEq]
  · refine iff_of_false (not_outcomeOwn_of_count_ne s hlen hcount) ?_
    rintro (hlt | ⟨hc, -⟩)
    · exact hshort hlt
    · exact hcount hc

/-- For every history of calls and every next call, the outcome of the call is its own exactly
when the call meets `CallCondition`. -/
theorem call_outcome_iff (calls : List Call) (c : Call) :
    OutcomeOwn c (history calls) ↔ CallCondition c (history calls) :=
  outcomeOwn_iff (slotsInv_history calls)

/-- A call without parameters and results, of a function that calls no host function. -/
def plainCall (inst : Nat) (body : Guest) : Call :=
  ⟨⟨inst, 0, 0⟩, [], [], body, fun _ => .leave none, fun _ => 0⟩

/-- A function that traps, and one that returns. -/
def trapCall : Call := plainCall 0 (.trap "unreachable".toUTF8.data.toList)
def fineCall : Call := plainCall 0 (.ret [])

-- A function that calls a host function first does not come to its own trap.
example : ending (plainCall 0 (.callHost 0 [] fun _ => .trap [])) (history [trapCall])
    = some .stopped := rfl

/-- The second call returns normally, but it reports the trap of the first one. -/
theorem call_outcome_stale :
    ending fineCall (history [trapCall]) = some (.returned []) ∧
      (fineCall.perform (history [trapCall])).1
        = (.error (.trap "Exception: unreachable"), []) ∧
      ¬ OutcomeOwn fineCall (history [trapCall]) := by
  refine ⟨rfl, rfl, ?_⟩
  intro h
  have := h.returns [] rfl
  exact absurd this (by rintro ⟨⟩)

end Wamrx.Proofs
