import Wamrx.Proofs.SessionRefinement

/-!
# `Wamrx.Proofs.SessionRuns`: what holds over whole runs of the API

* `dispatch_stable`: an import never changes from one closure to another. It stays unlinked, or it
  calls the same closure until that is gone, and dangles from then on.
* `single_linker_safe`: in a run with one linker, no import ever dangles.
* `drops_any_order`: values can be dropped in any order, and nothing that the user sees afterwards
  depends on it.

The first one goes through the later states of a run (`Follows`), the other two through sessions.
-/

set_option autoImplicit false

namespace Wamrx.Proofs

open Support

variable {F : Type} {link : Linking} {usizeBits : Nat} {w w' : World F} {s s' : Session F}

/-! ### Imports over time -/

theorem step_instances_later (w : World F) (op : Op F) (w' : World F)
    (hs : w.step link usizeBits op = some w') : w.instances.Later w'.instances := by
  cases step_iff.mp hs with
  | engineNew _ | engineClone _ _ _ | engineDrop _ _ _ | linkerNew _ _ _
  | defineFunc _ _ _ _ _ _ _ _ | linkerDrop _ _ _ | moduleNew _ _ _ _ _ _
  | moduleDrop _ _ _ | call _ _ _ => exact .refl _
  | instantiate l m result li mo hl hm =>
    cases result with
    | ok => exact Arena.later_push _ _
    | instantiateFailed errBuf => exact Arena.later_skip _
    | execEnvFailed => exact Arena.later_skip _
  | instanceDrop i ins hi => exact Arena.later_erase _ _

/-- An instance keeps its number as long as it lives, and no number is used twice. -/
theorem run_instances_later {ops : List (Op F)}
    (hrun : run (World.step link usizeBits) w ops = some w') : w.instances.Later w'.instances :=
  run_inv (fun m : World F => w.instances.Later m.instances)
    (fun m op m' hlater hs => hlater.trans (step_instances_later m op m' hs)) (.refl _) hrun

/-- What an import calls in a later state. -/
theorem dispatchImport_later {c c' : Process F} (h : Follows c c') {b : BoundImport}
    (hold : ∀ addr, b.attachment = some addr → addr < c.heap.next) :
    c'.dispatchImport b = c.dispatchImport b ∨
      (∃ func, c.dispatchImport b = .closure func) ∧ c'.dispatchImport b = .dangling := by
  unfold Process.dispatchImport
  cases hb : b.attachment with
  | none => exact Or.inl rfl
  | some addr =>
    have hlt := hold addr hb
    simp only
    cases hcell' : c'.heap.get? addr with
    | some cell => rw [h.heap.get?_old addr cell hlt hcell']; exact Or.inl rfl
    | none =>
      -- The block is gone: what was there decides what is new.
      cases hcell : c.heap.get? addr with
      | none => exact Or.inl rfl
      | some cell =>
        cases cell with
        | context ty func => exact Or.inr ⟨⟨func, rfl⟩, rfl⟩
        | cstring _ | symbols _ | bytes _ | entries => exact Or.inl rfl

/-- As long as an instance lives, each of its imports does the same, except that the closure it
calls may be freed. It is never replaced by another one, an import that was unlinked at load is
never linked, and one that dangles stays so. -/
theorem dispatch_stable (link : Linking) (usizeBits : Nat) (pre post : List (Op F)) (w w' : World F)
    (hpre : run (World.step link usizeBits) World.init pre = some w)
    (hpost : run (World.step link usizeBits) w post = some w') (i k : Nat) (d : Dispatch F)
    (hd : w.dispatch i k = some d) (hlive : (w'.instances.get? i).isSome = true) :
    w'.dispatch i k = some d ∨
      (∃ func, d = .closure func) ∧ w'.dispatch i k = some .dangling := by
  have h := inv_run hpre
  have hf := run_follows h hpost
  have h' := run_inv (fun w : World F => Inv w.proc (valuesOf w)) inv_step h hpost
  simp only [World.dispatch, Option.bind_eq_bind, Option.bind_eq_some_iff, Option.pure_def,
    Option.some.injEq] at hd
  obtain ⟨ins, hi, b, hb, rfl⟩ := hd
  obtain ⟨ins', hi'⟩ := Option.isSome_iff_exists.mp hlive
  obtain rfl : ins = ins' := by
    have := (run_instances_later hpost).get?_old i ins' (Arena.lt_next_of_get? hi) hi'
    exact Option.some.inj (hi.symm.trans this)
  have hbound := (bindingInv_run hpre).bound ins.module (Or.inr ⟨i, ins, hi, rfl⟩) b
    (List.mem_of_getElem? hb)
  have hdispatch' : w'.dispatch i k = some (w'.proc.dispatchImport b) := by
    simp [World.dispatch, hi', importsOf_eq hf (h.instance_loaded hi) (h'.instance_loaded hi'), hb]
  rw [hdispatch']
  exact (dispatchImport_later hf hbound).imp
    (congrArg some) (And.imp_right (congrArg some))

/-- An instance of a second linker has an import that the first linker defined, and one that the
second linker defined. -/
def borrowedImport : List (Op Nat) :=
  [.engineNew true, .linkerNew 0, .linkerNew 0, .defineFunc 0 [0x6d] [0x66] ⟨[], []⟩ 0 true,
    .defineFunc 1 [0x6d] [0x67] ⟨[], []⟩ 1 true,
    .moduleNew 0 [] (.ok [⟨[0x6d], [0x66], ⟨[], []⟩⟩, ⟨[0x6d], [0x67], ⟨[], []⟩⟩]),
    .instantiate 1 0 .ok]

/-- The first linker goes, and other definitions under the same names come. -/
def lentLinkerGone : List (Op Nat) :=
  [.linkerDrop 0, .defineFunc 1 [0x6d] [0x66] ⟨[], []⟩ 2 true,
    .defineFunc 1 [0x6d] [0x67] ⟨[], []⟩ 3 true, .moduleNew 0 [] (.ok [])]

/-- The state that the first run reaches. -/
def borrowed : World Nat :=
  (run (World.step wamrLink 64) World.init borrowedImport).get (by decide)

/-- The first import dangles afterwards, and the second one calls what it called. -/
theorem dispatch_stable_borrowedImport :
    ∃ w', run (World.step wamrLink 64) borrowed lentLinkerGone = some w' ∧
      (w'.dispatch 0 0 = some (.closure 0) ∨
        (∃ func, Dispatch.closure 0 = .closure func) ∧ w'.dispatch 0 0 = some .dangling) ∧
      w'.dispatch 0 0 = some .dangling ∧ w'.dispatch 0 1 = some (.closure 1) := by
  let w' := (run (World.step wamrLink 64) borrowed lentLinkerGone).get (by decide)
  have hrun : run (World.step wamrLink 64) borrowed lentLinkerGone = some w' :=
    (Option.some_get _).symm
  exact ⟨w', hrun, dispatch_stable wamrLink 64 borrowedImport lentLinkerGone borrowed w'
    (Option.some_get _).symm hrun 0 0 (.closure 0) (by decide) (by decide), by decide, by decide⟩

/-! ### One linker -/

/-- The operation makes a linker. -/
def makesLinker : Op F → Bool
  | .linkerNew _ => true
  | .engineNew _ | .engineClone _ | .engineDrop _ | .defineFunc .. | .linkerDrop _ | .moduleNew ..
  | .moduleDrop _ | .instantiate .. | .call _ | .instanceDrop _ => false

/-- Linkers are numbered one by one. -/
theorem linkers_next_le {ops : List (Op F)}
    (hrun : run (World.step link usizeBits) w ops = some w') :
    w'.linkers.next ≤ w.linkers.next + ops.countP makesLinker := by
  induction ops generalizing w with
  | nil => cases hrun; simp
  | cons op ops ih =>
    obtain ⟨m, hm, hrun⟩ := run_cons_eq_some.mp hrun
    have hle := ih hrun
    have hstep : m.linkers.next = w.linkers.next + if makesLinker op then 1 else 0 := by
      cases step_iff.mp hm with
      | linkerNew e en he => exact Arena.next_push _ _
      | linkerDrop l li hl => exact Arena.next_erase _ _
      | engineNew _ | engineClone _ _ _ | engineDrop _ _ _ | defineFunc _ _ _ _ _ _ _ _
      | moduleNew _ _ _ _ _ _ | moduleDrop _ _ _ | instantiate _ _ _ _ _ _ _ | call _ _ _
      | instanceDrop _ _ _ => rfl
    rw [List.countP_cons]
    omega

theorem SameTarget.linker_lt {c : Process F} {b : BoundImport} {b' : Binding F}
    (h : SameTarget c s b b') {d : Definition F} (hd : b'.definition = some d) :
    d.linker < s.linkers.next := by
  cases h with
  | unlinked imp => cases hd
  | linked imp addr d' hdes =>
    cases hd
    exact hdes.linker_old

/-- The linkers of the session's instances and of their imports were made before. -/
theorem Refines.linker_lt (h : Refines w s) {i : Nat} {ins : SessionInstance F}
    (hi : s.instances.get? i = some ins) : ins.linker < s.linkers.next ∧
      ∀ b ∈ ins.bindings, ∀ d, b.definition = some d → d.linker < s.linkers.next := by
  obtain ⟨ins', hi', hlinker, hsame⟩ := h.instances.of_right hi
  constructor
  · obtain ⟨st, hst⟩ := h.inv.instance_live hi'
    obtain ⟨k, hk⟩ := Rc.deref?_eq_some.mp hst
    rw [hlinker, ← h.states_next]
    exact Arena.lt_next_of_get? hk
  · intro b hb d hd
    obtain ⟨j, hlt, rfl⟩ := List.mem_iff_getElem.mp hb
    exact ((List.forall₂_iff_get.mp hsame).2 j (hsame.length_eq.symm ▸ hlt) hlt).linker_lt hd

/-- In a run that makes one linker, no import of an instance ever dangles: the instance itself
keeps the linker's definitions. -/
theorem single_linker_safe (link : Linking) (usizeBits : Nat) (ops : List (Op F)) (w : World F)
    (hone : ops.countP makesLinker ≤ 1)
    (h : run (World.step link usizeBits) World.init ops = some w) (i k : Nat) :
    w.dispatch i k ≠ some .dangling := by
  obtain ⟨s, -, hR⟩ := session_of_run h
  have hnext : s.linkers.next ≤ 1 := by
    have hle := linkers_next_le h
    rw [hR.linkers.next_eq]
    have hzero : (World.init : World F).linkers.next = 0 := rfl
    omega
  rw [hR.dispatch, Session.dispatch]
  cases hi : s.instances.get? i with
  | none => simp
  | some ins =>
    obtain ⟨hins, hbindings⟩ := hR.linker_lt hi
    simp only [Option.bind_eq_bind, Option.bind_some, Option.pure_def]
    cases hk : ins.bindings[k]? with
    | none => simp
    | some b =>
      rw [Option.bind_some, Session.dispatchBinding]
      cases hd : b.definition with
      | none => simp
      | some d =>
        -- There is one linker, so it is the instance's and the definition's.
        have hlt := hbindings b (List.mem_of_getElem? hk) d hd
        have hsame : ins.linker = d.linker := by omega
        have hholds : s.holds d.linker = true := by
          rw [Session.holds, Bool.or_eq_true]
          exact Or.inr (Arena.any_iff.mpr ⟨i, ins, hi, beq_iff_eq.mpr hsame⟩)
        simp [hholds]

/-- A linker is dropped before the instances that it made, and one of them is called. -/
def twoInstancesRun : List (Op Nat) :=
  [.engineNew true, .linkerNew 0, .defineFunc 0 [0x6d] [0x66] ⟨[], []⟩ 5 true,
    .moduleNew 0 [] (.ok [⟨[0x6d], [0x66], ⟨[], []⟩⟩]), .instantiate 0 0 .ok,
    .moduleNew 0 [] (.ok []), .instantiate 0 1 .ok, .linkerDrop 0, .instanceDrop 1, .call 0]

theorem single_linker_safe_twoInstancesRun :
    ∃ w, run (World.step wamrLink 64) World.init twoInstancesRun = some w ∧
      w.dispatch 0 0 ≠ some .dangling := by
  obtain ⟨w, hw⟩ := Option.isSome_iff_exists.mp
    (show (run (World.step wamrLink 64) World.init twoInstancesRun).isSome by decide)
  exact ⟨w, hw, single_linker_safe wamrLink 64 twoInstancesRun w (by decide) hw 0 0⟩

/-! ### The order of drops -/

/-- The operation drops a value. -/
def isDrop : Op F → Bool
  | .engineDrop _ | .linkerDrop _ | .moduleDrop _ | .instanceDrop _ => true
  | .engineNew _ | .engineClone _ | .linkerNew _ | .defineFunc .. | .moduleNew .. | .instantiate ..
  | .call _ => false

/-- Two lookups that do not depend on each other. -/
theorem lookups_comm {α β γ : Type} (a : Option α) (b : Option β) (f : α → β → γ) :
    (a.bind fun x => b.map fun y => f x y) = b.bind fun y => a.map fun x => f x y := by
  cases a <;> cases b <;> rfl

/-- Two drops can be done in either order, or in none. -/
theorem drop_comm (s : Session F) (a b : Op F) (ha : isDrop a = true) (hb : isDrop b = true) :
    (s.step link usizeBits a).bind (·.step link usizeBits b)
      = (s.step link usizeBits b).bind (·.step link usizeBits a) := by
  -- Drops of one kind take two keys of one table, drops of two kinds work on two tables.
  cases a with
  | engineDrop e =>
    cases b with
    | engineDrop e' =>
      simp only [Session.step, Option.bind_map, Function.comp_def]
      exact s.engines.take_map_comm e e' _
    | linkerDrop _ | moduleDrop _ | instanceDrop _ =>
      simp only [Session.step, Option.bind_map, Function.comp_def]
      exact lookups_comm _ _ _
    | _ => cases hb
  | linkerDrop l =>
    cases b with
    | linkerDrop l' =>
      simp only [Session.step, Option.bind_map, Function.comp_def]
      exact s.linkers.take_map_comm l l' _
    | engineDrop _ | moduleDrop _ | instanceDrop _ =>
      simp only [Session.step, Option.bind_map, Function.comp_def]
      exact lookups_comm _ _ _
    | _ => cases hb
  | moduleDrop m =>
    cases b with
    | moduleDrop m' =>
      simp only [Session.step, Option.bind_map, Function.comp_def]
      exact s.modules.take_map_comm m m' _
    | engineDrop _ | linkerDrop _ | instanceDrop _ =>
      simp only [Session.step, Option.bind_map, Function.comp_def]
      exact lookups_comm _ _ _
    | _ => cases hb
  | instanceDrop i =>
    cases b with
    | instanceDrop i' =>
      simp only [Session.step, Option.bind_map, Function.comp_def]
      exact s.instances.take_map_comm i i' _
    | engineDrop _ | linkerDrop _ | moduleDrop _ =>
      simp only [Session.step, Option.bind_map, Function.comp_def]
      exact lookups_comm _ _ _
    | _ => cases hb
  | _ => cases ha

theorem drop_run_comm {drops drops' : List (Op F)} (hperm : drops.Perm drops')
    (hdrops : ∀ op ∈ drops, isDrop op = true) (s : Session F) :
    run (Session.step link usizeBits) s drops = run (Session.step link usizeBits) s drops' :=
  run_perm (I := fun _ => True) (P := fun op => isDrop op = true) (fun _ _ _ _ _ _ => trivial)
    (fun s a b _ ha hb => drop_comm s a b ha hb) hperm trivial hdrops

/-- What the user sees of two states: which values are alive, and what the imports call. -/
structure Alike (w w' : World F) : Prop where
  engines : ∀ e, (w.engines.get? e).isSome = (w'.engines.get? e).isSome
  linkers : ∀ l, (w.linkers.get? l).isSome = (w'.linkers.get? l).isSome
  modules : ∀ m, (w.modules.get? m).isSome = (w'.modules.get? m).isSome
  instances : ∀ i, (w.instances.get? i).isSome = (w'.instances.get? i).isSome
  dispatch : ∀ i k, w.dispatch i k = w'.dispatch i k

/-- Two states that agree with one session are alike. -/
theorem Agree.alike (h : Agree w s) (h' : Agree w' s) : Alike w w' where
  engines e := (h.engines e).trans (h'.engines e).symm
  linkers l := (h.linkers l).trans (h'.linkers l).symm
  modules m := (h.modules m).trans (h'.modules m).symm
  instances i := (h.instances i).trans (h'.instances i).symm
  dispatch i k := (h.dispatch i k).trans (h'.dispatch i k).symm

/-- Values that are dropped one after the other can be dropped in any order: the same operations
are possible afterwards, and they lead to states that the user can not tell apart. -/
theorem drops_any_order (link : Linking) (usizeBits : Nat) (pre drops drops' post : List (Op F))
    (hperm : drops.Perm drops') (hdrops : ∀ op ∈ drops, isDrop op = true) :
    Option.Rel Alike (run (World.step link usizeBits) World.init (pre ++ drops ++ post))
      (run (World.step link usizeBits) World.init (pre ++ drops' ++ post)) := by
  have hsession : run (Session.step link usizeBits) Session.init (pre ++ drops ++ post)
      = run (Session.step link usizeBits) (Session.init : Session F) (pre ++ drops' ++ post) := by
    simp only [run_append, drop_run_comm hperm hdrops]
  have h := refines_init.agree_run link usizeBits (pre ++ drops ++ post)
  have h' := refines_init.agree_run link usizeBits (pre ++ drops' ++ post)
  rw [← hsession] at h'
  exact optionRel_common (fun w w' s hs hs' => hs.alike hs') h h'

theorem drops_any_order_borrowedImport :
    (run (World.step wamrLink 64) World.init
        (borrowedImport ++ [.engineDrop 0, .linkerDrop 0] ++ [.call 0])).isSome = true ∧
      Option.Rel Alike
        (run (World.step wamrLink 64) World.init
          (borrowedImport ++ [.engineDrop 0, .linkerDrop 0] ++ [.call 0]))
        (run (World.step wamrLink 64) World.init
          (borrowedImport ++ [.linkerDrop 0, .engineDrop 0] ++ [.call 0])) :=
  ⟨by decide, drops_any_order wamrLink 64 borrowedImport [.engineDrop 0, .linkerDrop 0]
    [.linkerDrop 0, .engineDrop 0] [.call 0] (List.Perm.swap _ _ []) (by decide)⟩

end Wamrx.Proofs
