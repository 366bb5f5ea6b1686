import Mathlib.Data.List.Basic

/-!
# `Support.Run`: finite runs of a partial step function

A system is a step function `step : S → O → Option S`. `none` says that the operation is not
possible in the state. `run step s ops` performs the operations in order.

* `run_inv`: a property that every step preserves holds at the end of every run.
* `AllStates` and `AllSteps` speak about the states a run passes through and about its steps
  (the operation, and the state before it). `allStates_iff_allSteps` turns "every state is
  good" into "every step meets the condition", when the condition says exactly which steps
  lead from a good state to a good state.
* `run_filter_sim`: a simulation between a run and the same run without some operations.
* `run_rel`: two systems that stay related, and that can always do the same operations.
* `attempt` performs the operations that are possible, and passes over the others.
* `run_measure`: operations that take one off a measure are as many as the measure goes down.
* `run_perm`: operations that commute lead to the same state in every order.
* `run_last_write`: a part of the state that some operations write holds what was written last.
* `outputs_filter`: operations that an observer does not notice can be left out of a run, and the
  outputs of the others stay the same.
-/

set_option autoImplicit false

namespace Support

variable {S T O : Type}

/-- The state after the operations, `none` when one of them is not possible. -/
def run (step : S → O → Option S) (s : S) (ops : List O) : Option S := ops.foldlM step s

theorem run_cons (step : S → O → Option S) (s : S) (o : O) (ops : List O) :
    run step s (o :: ops) = (step s o).bind fun s' => run step s' ops := rfl

theorem run_append (step : S → O → Option S) (s : S) (pre post : List O) :
    run step s (pre ++ post) = (run step s pre).bind fun s' => run step s' post := by
  simp [run]

/-- A run of one more operation is a run and a step. -/
theorem run_cons_eq_some {step : S → O → Option S} {s s' : S} {o : O} {ops : List O} :
    run step s (o :: ops) = some s' ↔ ∃ m, step s o = some m ∧ run step m ops = some s' := by
  rw [run_cons, Option.bind_eq_some_iff]

theorem run_append_eq_some {step : S → O → Option S} {s s' : S} {pre post : List O} :
    run step s (pre ++ post) = some s' ↔
      ∃ m, run step s pre = some m ∧ run step m post = some s' := by
  rw [run_append, Option.bind_eq_some_iff]

/-- What every step preserves, every run preserves. -/
theorem run_inv {step : S → O → Option S} (I : S → Prop)
    (hstep : ∀ s o s', I s → step s o = some s' → I s') {s s' : S} {ops : List O}
    (hs : I s) (h : run step s ops = some s') : I s' := by
  -- The start state is generalised: the invariant moves along with it.
  induction ops generalizing s with
  | nil => cases h; exact hs
  | cons o ops ih =>
    obtain ⟨m, hm, hrun⟩ := run_cons_eq_some.mp h
    exact ih (hstep s o m hs hm) hrun

/-! ### Properties of all states and of all steps of a run -/

/-- Every state that the run passes through satisfies `Q`, the first and the last included. -/
def AllStates (step : S → O → Option S) (Q : S → Prop) (s : S) (ops : List O) : Prop :=
  ∀ pre post m, ops = pre ++ post → run step s pre = some m → Q m

/-- Every step of the run satisfies `P`, read in the state before the step. -/
def AllSteps (step : S → O → Option S) (P : S → O → Prop) (s : S) (ops : List O) : Prop :=
  ∀ pre o post m, ops = pre ++ o :: post → run step s pre = some m → P m o

theorem allStates_nil {step : S → O → Option S} {Q : S → Prop} {s : S} :
    AllStates step Q s [] ↔ Q s := by
  constructor
  · intro h
    exact h [] [] s rfl rfl
  · intro h pre post m hsplit hrun
    obtain ⟨rfl, rfl⟩ := List.append_eq_nil_iff.mp hsplit.symm
    cases hrun
    exact h

theorem allStates_cons {step : S → O → Option S} {Q : S → Prop} {s m : S} {o : O}
    {ops : List O} (hm : step s o = some m) :
    AllStates step Q s (o :: ops) ↔ Q s ∧ AllStates step Q m ops := by
  constructor
  · intro h
    refine ⟨h [] (o :: ops) s rfl rfl, ?_⟩
    intro pre post m' hsplit hrun
    exact h (o :: pre) post m' (by rw [hsplit]; rfl)
      (run_cons_eq_some.mpr ⟨m, hm, hrun⟩)
  · rintro ⟨hs, h⟩ pre post m' hsplit hrun
    cases pre with
    | nil => cases hrun; exact hs
    | cons o' pre =>
      obtain ⟨rfl, rfl⟩ := List.cons.inj hsplit
      obtain ⟨k, hk, hrun⟩ := run_cons_eq_some.mp hrun
      rw [hm] at hk
      cases hk
      exact h pre post m' rfl hrun

theorem allSteps_nil {step : S → O → Option S} {P : S → O → Prop} {s : S} :
    AllSteps step P s [] := by
  intro pre o post m hsplit
  exact absurd hsplit (by simp)

theorem allSteps_cons {step : S → O → Option S} {P : S → O → Prop} {s m : S} {o : O}
    {ops : List O} (hm : step s o = some m) :
    AllSteps step P s (o :: ops) ↔ P s o ∧ AllSteps step P m ops := by
  constructor
  · intro h
    refine ⟨h [] o ops s rfl rfl, ?_⟩
    intro pre o' post m' hsplit hrun
    exact h (o :: pre) o' post m' (by rw [hsplit]; rfl)
      (run_cons_eq_some.mpr ⟨m, hm, hrun⟩)
  · rintro ⟨hs, h⟩ pre o' post m' hsplit hrun
    cases pre with
    | nil =>
      obtain ⟨rfl, rfl⟩ := List.cons.inj hsplit
      cases hrun
      exact hs
    | cons o'' pre =>
      obtain ⟨rfl, rfl⟩ := List.cons.inj hsplit
      obtain ⟨k, hk, hrun⟩ := run_cons_eq_some.mp hrun
      rw [hm] at hk
      cases hk
      exact h pre o' post m' rfl hrun

/-- Suppose that, from a good state with the invariant, a step leads to a good state exactly
when it meets the condition `P`. Then all states of a run are good exactly when all its steps
meet `P`. -/
theorem allStates_iff_allSteps {step : S → O → Option S} {I Q : S → Prop} {P : S → O → Prop}
    (hI : ∀ s o s', I s → step s o = some s' → I s')
    (hQP : ∀ s o s', I s → Q s → step s o = some s' → (Q s' ↔ P s o))
    {s s' : S} {ops : List O} (his : I s) (hqs : Q s) (hrun : run step s ops = some s') :
    AllStates step Q s ops ↔ AllSteps step P s ops := by
  induction ops generalizing s with
  | nil => exact ⟨fun _ => allSteps_nil, fun _ => allStates_nil.mpr hqs⟩
  | cons o ops ih =>
    obtain ⟨m, hm, hrun⟩ := run_cons_eq_some.mp hrun
    -- The state after the first step is the one that `P` speaks about.
    have him := hI s o m his hm
    have hiff := hQP s o m his hqs hm
    rw [allStates_cons hm, allSteps_cons hm]
    constructor
    · rintro ⟨-, h⟩
      have hqm : Q m := h [] ops m rfl rfl
      exact ⟨hiff.mp hqm, (ih him hqm hrun).mp h⟩
    · rintro ⟨hp, h⟩
      exact ⟨hqs, (ih him (hiff.mpr hp) hrun).mpr h⟩

/-! ### Leaving operations out -/

/-- A relation between the run and the run without the operations that `keep` rejects. A kept
operation is followed on both sides, a rejected one on the left side alone. Then the shorter
run is possible, and its last state is related to the last state of the full run. -/
theorem run_filter_sim {step : S → O → Option S} {step' : T → O → Option T}
    (R : S → T → Prop) (keep : O → Bool)
    (hkeep : ∀ s t o s', R s t → keep o = true → step s o = some s' →
      ∃ t', step' t o = some t' ∧ R s' t')
    (hskip : ∀ s t o s', R s t → keep o = false → step s o = some s' → R s' t)
    {s s' : S} {t : T} {ops : List O} (hst : R s t) (h : run step s ops = some s') :
    ∃ t', run step' t (ops.filter keep) = some t' ∧ R s' t' := by
  induction ops generalizing s t with
  | nil => cases h; exact ⟨t, rfl, hst⟩
  | cons o ops ih =>
    obtain ⟨m, hm, hrun⟩ := run_cons_eq_some.mp h
    -- The right side takes the step, or it waits.
    cases hk : keep o with
    | true =>
      obtain ⟨t', ht', hmt⟩ := hkeep s t o m hst hk hm
      obtain ⟨t'', hrun', hR⟩ := ih hmt hrun
      rw [List.filter_cons_of_pos hk]
      exact ⟨t'', run_cons_eq_some.mpr ⟨t', ht', hrun'⟩, hR⟩
    | false =>
      rw [List.filter_cons_of_neg (by simp [hk])]
      exact ih (hskip s t o m hst hk hm) hrun

/-! ### Two systems side by side -/

/-- A weaker relation of two optional values. -/
theorem optionRel_imp {R R' : S → T → Prop} (h : ∀ s t, R s t → R' s t) {a : Option S}
    {b : Option T} (hab : Option.Rel R a b) : Option.Rel R' a b := by
  cases hab with
  | none => exact .none
  | some hR => exact .some (h _ _ hR)

theorem optionRel_some {R : S → T → Prop} {s : S} {b : Option T} (h : Option.Rel R (some s) b) :
    ∃ t, b = some t ∧ R s t := by
  cases h with
  | some hR => exact ⟨_, rfl, hR⟩

/-- There is no value on either side, or there are related ones. -/
theorem optionRel_cases {R : S → T → Prop} {a : Option S} {b : Option T} (h : Option.Rel R a b) :
    (a = none ∧ b = none) ∨ ∃ s t, a = some s ∧ b = some t ∧ R s t := by
  cases h with
  | none => exact Or.inl ⟨rfl, rfl⟩
  | some hR => exact Or.inr ⟨_, _, rfl, rfl, hR⟩

/-- Two optional values that are related to the same third one. -/
theorem optionRel_common {U : Type} {R : S → U → Prop} {R' : T → U → Prop} {Q : S → T → Prop}
    (h : ∀ s t u, R s u → R' t u → Q s t) {a : Option S} {b : Option T} {c : Option U}
    (hac : Option.Rel R a c) (hbc : Option.Rel R' b c) : Option.Rel Q a b := by
  cases hac with
  | none => cases hbc; exact .none
  | some hR =>
    cases hbc with
    | some hR' => exact .some (h _ _ _ hR hR')

/-- Two optional values one after the other. -/
theorem optionRel_comp {U : Type} {R : S → T → Prop} {R' : T → U → Prop} {Q : S → U → Prop}
    (h : ∀ s t u, R s t → R' t u → Q s u) {a : Option S} {b : Option T} {c : Option U}
    (hab : Option.Rel R a b) (hbc : Option.Rel R' b c) : Option.Rel Q a c := by
  cases hab with
  | none => cases hbc; exact .none
  | some hR =>
    cases hbc with
    | some hR' => exact .some (h _ _ _ hR hR')

/-- Related values, handed to related functions. -/
theorem optionRel_bind {S' T' : Type} {R : S → T → Prop} {Q : S' → T' → Prop} {a : Option S}
    {b : Option T} (hab : Option.Rel R a b) {f : S → Option S'} {g : T → Option T'}
    (h : ∀ s t, R s t → Option.Rel Q (f s) (g t)) : Option.Rel Q (a.bind f) (b.bind g) := by
  cases hab with
  | none => exact .none
  | some hR => exact h _ _ hR

/-- One value, handed to related functions. -/
theorem optionRel_map {A : Type} {R : S → T → Prop} (a : Option A) {f : A → S} {g : A → T}
    (h : ∀ x, R (f x) (g x)) : Option.Rel R (a.map f) (a.map g) := by
  cases a with
  | none => exact .none
  | some x => exact .some (h x)

theorem optionRel_getD {R : S → T → Prop} {a : Option S} {b : Option T} (hab : Option.Rel R a b)
    {s : S} {t : T} (hst : R s t) : R (a.getD s) (b.getD t) := by
  cases hab with
  | none => exact hst
  | some hR => exact hR

/-- From related states, the two systems can do the same operations, and end in related states. So
the same runs are possible. -/
theorem run_rel {step : S → O → Option S} {step' : T → O → Option T} (R : S → T → Prop)
    (hstep : ∀ s t o, R s t → Option.Rel R (step s o) (step' t o)) {s : S} {t : T}
    (hst : R s t) (ops : List O) : Option.Rel R (run step s ops) (run step' t ops) := by
  induction ops generalizing s t with
  | nil => exact .some hst
  | cons o ops ih =>
    rw [run_cons, run_cons]
    exact optionRel_bind (hstep s t o hst) fun _ _ hR => ih hR

/-! ### Attempts -/

/-- The state after those of the operations that are possible. -/
def attempt (step : S → O → Option S) (s : S) (ops : List O) : S :=
  ops.foldl (fun s o => (step s o).getD s) s

theorem attempt_cons (step : S → O → Option S) (s : S) (o : O) (ops : List O) :
    attempt step s (o :: ops) = attempt step ((step s o).getD s) ops := rfl

theorem attempt_append (step : S → O → Option S) (s : S) (pre post : List O) :
    attempt step s (pre ++ post) = attempt step (attempt step s pre) post := List.foldl_append

/-- What every step with an operation of the kind preserves, an attempt at them preserves. -/
theorem attempt_inv {step : S → O → Option S} (I : S → Prop) {P : O → Prop}
    (hstep : ∀ s o s', I s → P o → step s o = some s' → I s') {s : S} (hs : I s) {ops : List O}
    (hops : ∀ o ∈ ops, P o) : I (attempt step s ops) := by
  induction ops generalizing s with
  | nil => exact hs
  | cons o ops ih =>
    obtain ⟨ho, hrest⟩ := List.forall_mem_cons.mp hops
    rw [attempt_cons]
    refine ih ?_ hrest
    cases hm : step s o with
    | none => exact hs
    | some m => exact hstep s o m hs ho hm

/-- Related systems pass over the same operations, and stay related. -/
theorem attempt_rel {step : S → O → Option S} {step' : T → O → Option T} (R : S → T → Prop)
    (hstep : ∀ s t o, R s t → Option.Rel R (step s o) (step' t o)) {s : S} {t : T}
    (hst : R s t) (ops : List O) : R (attempt step s ops) (attempt step' t ops) := by
  induction ops generalizing s t with
  | nil => exact hst
  | cons o ops ih =>
    rw [attempt_cons, attempt_cons]
    exact ih (optionRel_getD (hstep s t o hst) hst)

/-! ### Operations in another order -/

/-- Operations that satisfy `P` commute in every state with the invariant, where one may also make
the other impossible. Then a list of such operations leads to the same state in every order. -/
theorem run_perm {step : S → O → Option S} {I : S → Prop} {P : O → Prop}
    (hI : ∀ s o s', I s → P o → step s o = some s' → I s')
    (hcomm : ∀ s a b, I s → P a → P b →
      (step s a).bind (step · b) = (step s b).bind (step · a))
    {ops ops' : List O} (hperm : ops.Perm ops') {s : S} (hs : I s) (hops : ∀ o ∈ ops, P o) :
    run step s ops = run step s ops' := by
  induction hperm generalizing s with
  | nil => rfl
  | cons o _ ih =>
    rw [run_cons, run_cons]
    cases ho : step s o with
    | none => rfl
    | some m =>
      obtain ⟨hPo, hrest⟩ := List.forall_mem_cons.mp hops
      exact ih (hI s o m hs hPo ho) hrest
  | swap a b ops =>
    obtain ⟨hPb, hPa, -⟩ := by simpa only [List.forall_mem_cons] using hops
    have hswap := hcomm s b a hs hPb hPa
    simp only [run_cons, ← Option.bind_assoc]
    rw [hswap]
  | trans hperm _ ih₁ ih₂ =>
    exact (ih₁ hs hops).trans (ih₂ hs fun o ho => hops o (hperm.mem_iff.mpr ho))

/-! ### Long runs -/

/-- Operations that are possible in every good state, and lead to a good state, make up a run that
is possible. -/
theorem run_possible {step : S → O → Option S} {I : S → Prop} {P : O → Prop}
    (hstep : ∀ s o, I s → P o → ∃ s', step s o = some s' ∧ I s') {s : S} {ops : List O}
    (hs : I s) (hops : ∀ o ∈ ops, P o) : ∃ s', run step s ops = some s' ∧ I s' := by
  induction ops generalizing s with
  | nil => exact ⟨s, rfl, hs⟩
  | cons o ops ih =>
    obtain ⟨m, hm, him⟩ := hstep s o hs (hops o List.mem_cons_self)
    obtain ⟨s', hs', his'⟩ := ih him fun o' ho' => hops o' (List.mem_cons_of_mem o ho')
    exact ⟨s', run_cons_eq_some.mpr ⟨m, hm, hs'⟩, his'⟩

/-- Operations that take one off a measure: a run has as many of them as the measure went down. -/
theorem run_measure {step : S → O → Option S} {I : S → Prop} {P : O → Prop} (measure : S → Nat)
    (hI : ∀ s o s', I s → step s o = some s' → I s')
    (hstep : ∀ s o s', I s → P o → step s o = some s' → measure s' + 1 = measure s) {s s' : S}
    {ops : List O} (hs : I s) (hops : ∀ o ∈ ops, P o) (hrun : run step s ops = some s') :
    ops.length + measure s' = measure s := by
  induction ops generalizing s with
  | nil => cases hrun; exact Nat.zero_add _
  | cons o ops ih =>
    obtain ⟨m, hm, hrun⟩ := run_cons_eq_some.mp hrun
    obtain ⟨ho, hops⟩ := List.forall_mem_cons.mp hops
    have hone := hstep s o m hs ho hm
    have hrest := ih (hI s o m hs hm) hops hrun
    rw [List.length_cons]
    omega

/-! ### The last write -/

/-- What the last of the operations that write something has written. -/
def lastWrite {α : Type} (writes : O → Option α) (ops : List O) : Option α :=
  ops.reverse.findSome? writes

theorem lastWrite_cons {α : Type} (writes : O → Option α) (o : O) (ops : List O) :
    lastWrite writes (o :: ops) = (lastWrite writes ops).or (writes o) := by
  rw [lastWrite, List.reverse_cons, List.findSome?_append]
  congr 1
  cases h : writes o <;> simp [h]

/-- Nothing was written when no operation writes. -/
theorem lastWrite_eq_none {α : Type} {writes : O → Option α} {ops : List O}
    (h : ∀ o ∈ ops, writes o = none) : lastWrite writes ops = none := by
  rw [lastWrite, List.findSome?_eq_none_iff]
  intro o ho
  exact h o (List.mem_reverse.mp ho)

theorem lastWrite_map {α β : Type} (f : α → β) (writes : O → Option α) (ops : List O) :
    lastWrite (fun o => (writes o).map f) ops = (lastWrite writes ops).map f := by
  induction ops with
  | nil => rfl
  | cons o ops ih =>
    rw [lastWrite_cons, lastWrite_cons, ih]
    cases lastWrite writes ops <;> rfl

/-- Each operation writes its value into a part of the state, or leaves it alone. After a run, the
part holds the last value that was written, or what it held before. -/
theorem run_last_write {α : Type} {step : S → O → Option S} {I : S → Prop} {P : O → Prop}
    {get : S → α} {writes : O → Option α}
    (hI : ∀ s o s', I s → P o → step s o = some s' → I s')
    (hget : ∀ s o s', I s → P o → step s o = some s' → get s' = (writes o).getD (get s))
    {s s' : S} {ops : List O} (hs : I s) (hops : ∀ o ∈ ops, P o)
    (hrun : run step s ops = some s') : get s' = (lastWrite writes ops).getD (get s) := by
  induction ops generalizing s with
  | nil => cases hrun; rfl
  | cons o ops ih =>
    obtain ⟨m, hm, hrun⟩ := run_cons_eq_some.mp hrun
    have ho := hops o List.mem_cons_self
    -- The rest of the run starts from what the first operation left.
    rw [ih (hI s o m hs ho hm) (fun o' ho' => hops o' (List.mem_cons_of_mem o ho')) hrun,
      hget s o m hs ho hm, lastWrite_cons]
    cases lastWrite writes ops <;> rfl

/-! ### Outputs -/

/-- The outputs of the operations that meet `P`, in a run of a total step function. -/
def outputs {Y : Type} (step : S → O → Y × S) (P : O → Prop) [DecidablePred P] :
    S → List O → List Y
  | _, [] => []
  | s, o :: ops =>
    if P o then (step s o).1 :: outputs step P (step s o).2 ops else outputs step P (step s o).2 ops

/-- From states that an observer can not tell apart, an operation that meets `P` has one output.
The other operations change nothing for the observer, so they can be left out. -/
theorem outputs_filter {Y : Type} {step : S → O → Y × S} {P Q : O → Prop} [DecidablePred P]
    (E : S → S → Prop)
    (hsee : ∀ s t o, P o → Q o → E s t → (step s o).1 = (step t o).1 ∧ E (step s o).2 (step t o).2)
    (hhide : ∀ s t o, ¬ P o → Q o → E s t → E (step s o).2 t) {s t : S} {ops : List O}
    (hst : E s t) (hops : ∀ o ∈ ops, Q o) :
    outputs step P s ops = outputs step P t (ops.filter fun o => P o) := by
  induction ops generalizing s t with
  | nil => rfl
  | cons o ops ih =>
    obtain ⟨ho, hops⟩ := List.forall_mem_cons.mp hops
    by_cases hP : P o
    · obtain ⟨hout, hE⟩ := hsee s t o hP ho hst
      rw [List.filter_cons_of_pos (by simpa using hP), outputs, outputs, if_pos hP, if_pos hP, hout,
        ih hE hops]
    · rw [List.filter_cons_of_neg (by simpa using hP), outputs, if_neg hP]
      exact ih (hhide s t o hP ho hst) hops

end Support
