import Wamrx.Embedding
import Wamrx.Proofs.GuestCalls
import Wamrx.Proofs.LinkedImports
import Wamrx.Proofs.SessionRefinement

/-!
# `Wamrx.Proofs.EmbeddedCalls`: a call, from the definitions to the results

The parts meet here: what a run of the API leaves behind the imports (`Refines`), the signature
check at load (`boundTyped_run`), the slots of one host call (`callImport_of_return`) and
`Func::call` around it all (`callBody_eq`).

* `Refines.context_linked`, `Refines.context_unlinked`: what the trampoline finds.
* `run_eq_meaning`: an execution in the process does what is meant, while the host functions use
  the API.
* `embedded_call`: so does a whole `Func::call`, after any run of the API.
-/

set_option autoImplicit false

namespace Wamrx.Proofs

open Support

variable {σ : Type} {e : Embedding σ} {slot : ExceptionSlot σ} {w : World (HostFunc σ)}
  {s : Session (HostFunc σ)} {i k : Nat} {ins : SessionInstance (HostFunc σ)}

/-- Every function that is linked to the instance was defined by the linker that made it. -/
def OwnLinked (ins : SessionInstance (HostFunc σ)) : Prop :=
  ∀ b ∈ ins.bindings, ∀ d, b.definition = some d → d.linker = ins.linker

/-- The function calls imports that are declared, with arguments of their types and whatever values
of their types it gets back, and it ends with results of its own types. -/
inductive Validated (imports : List Import) (results : List ValType) : Guest → Prop where
  | ret (values : List Val) : values.map Val.ty = results → Validated imports results (.ret values)
  | trap (text : Name) : Validated imports results (.trap text)
  | callHost (k : Nat) (args : List Val) (next : Option Val → Guest) (imp : Import) :
      imports[k]? = some imp →
      args.map (fun v => v.ty.toWamr) = imp.ty.params →
      (∀ v, v.map (fun v => v.ty.toWamr) = imp.ty.results.head? →
        Validated imports results (next v)) →
      Validated imports results (.callHost k args next)

/-! ### The process behind an instance -/

/-- An instance keeps its linker alive. -/
theorem holds_of_instance (hi : s.instances.get? i = some ins) : s.holds ins.linker = true := by
  rw [Session.holds, Bool.or_eq_true]
  exact Or.inr (Arena.any_iff.mpr ⟨i, ins, hi, beq_self_eq_true _⟩)

/-- Operations that do not drop the instance leave it where it is. -/
theorem instances_step {link : Linking} {usizeBits : Nat} {s' : Session (HostFunc σ)}
    {op : Op (HostFunc σ)} (hi : s.instances.get? i = some ins) (hop : op ≠ .instanceDrop i)
    (hs : s.step link usizeBits op = some s') : s'.instances.get? i = some ins := by
  cases op with
  | engineNew initOk => cases hs; exact hi
  | engineClone e | linkerNew e =>
    obtain ⟨_, -, rfl⟩ := Option.map_eq_some_iff.mp hs
    exact hi
  | engineDrop e | linkerDrop e | moduleDrop e =>
    obtain ⟨_, -, rfl⟩ := Option.map_eq_some_iff.mp hs
    exact hi
  | defineFunc l module name ty func registerOk =>
    obtain ⟨_, -, rfl⟩ := Option.map_eq_some_iff.mp hs
    split
    · exact hi
    · exact hi
  | moduleNew e bytes loaded =>
    simp only [Session.step] at hs
    split at hs
    · obtain ⟨_, -, rfl⟩ := Option.map_eq_some_iff.mp hs
      cases loaded <;> exact hi
    · cases hs
  | instantiate l m result =>
    simp only [Session.step] at hs
    split at hs
    · cases hs
      show (if result = .ok then _ else _ : Arena _).get? i = _
      split
      · exact Arena.get?_push_of_some _ hi
      · exact (Arena.get?_skip _ _).trans hi
    · cases hs
  | call j =>
    obtain ⟨_, -, rfl⟩ := Option.map_eq_some_iff.mp hs
    exact hi
  | instanceDrop j =>
    obtain ⟨_, htake, rfl⟩ := Option.map_eq_some_iff.mp hs
    obtain ⟨_, -, rfl⟩ := Option.map_eq_some_iff.mp htake
    exact (Arena.get?_erase_of_ne fun heq => hop (congrArg Op.instanceDrop heq.symm)).trans hi

theorem instances_perform (hi : s.instances.get? i = some ins) {ops : List (Op (HostFunc σ))}
    (hops : ∀ op ∈ ops, op ≠ .instanceDrop i) :
    (s.perform e ops).instances.get? i = some ins :=
  attempt_inv (fun s : Session (HostFunc σ) => s.instances.get? i = some ins)
    (fun _ _ _ h hop hs => instances_step h hop hs) hi hops

theorem refines_perform (hR : Refines w s) (ops : List (Op (HostFunc σ))) :
    Refines (w.perform e ops) (s.perform e ops) := attempt_rel Refines refines_step hR ops

/-- An import of the instance, on both sides. -/
theorem Refines.import_of (hR : Refines w s) (hi : s.instances.get? i = some ins)
    {b' : Binding (HostFunc σ)} (hk : ins.bindings[k]? = some b') :
    ∃ (ins' : Instance) (b : BoundImport), w.instances.get? i = some ins' ∧
      (w.proc.importsOf ins'.module)[k]? = some b ∧ SameTarget w.proc s b b' := by
  obtain ⟨ins', hi', -, hsame⟩ := hR.instances.of_right hi
  obtain ⟨hlt, rfl⟩ := List.getElem?_eq_some_iff.mp hk
  have hlt' : k < (w.proc.importsOf ins'.module).length := hsame.length_eq ▸ hlt
  exact ⟨ins', _, hi', List.getElem?_eq_getElem hlt', (List.forall₂_iff_get.mp hsame).2 k hlt' hlt⟩

theorem Refines.context_unlinked (hR : Refines w s) (hi : s.instances.get? i = some ins)
    {imp : Import} (hk : ins.bindings[k]? = some ⟨imp, none⟩) :
    w.context i k = some (imp, .unlinked) := by
  obtain ⟨ins', b, hi', hb, hsame⟩ := hR.import_of hi hk
  cases hsame
  simp [World.context, hi', hb]

/-- Behind a linked import is the context of its definition, as long as that counts. -/
theorem Refines.context_linked (hR : Refines w s) (hi : s.instances.get? i = some ins)
    {imp : Import} {d : Definition (HostFunc σ)} (hk : ins.bindings[k]? = some ⟨imp, some d⟩)
    (hholds : s.holds d.linker = true) :
    w.context i k = some (imp, .closure (d.ty, d.func)) := by
  obtain ⟨ins', b, hi', hb, hsame⟩ := hR.import_of hi hk
  cases hsame with
  | linked _ addr _ hd =>
    obtain ⟨n, -, rfl, hshows⟩ := hd.counts hholds
    simp [World.context, hi', hb, hshows.context, viewOf]

/-- Linked definitions have the types of their imports. -/
theorem fits_of_run {accepts : Matcher} (hreads : ReadsSignatures accepts)
    (hlink : LinksAccepted accepts e.link) {ops : List (Op (HostFunc σ))}
    (hrun : run (World.step e.link e.usizeBits) World.init ops = some w) (hR : Refines w s)
    (hi : s.instances.get? i = some ins) (hown : OwnLinked ins) {imp : Import}
    {d : Definition (HostFunc σ)} (hk : ins.bindings[k]? = some ⟨imp, some d⟩) :
    imp.ty = d.ty.importType := by
  have hholds : s.holds d.linker = true := by
    rw [hown _ (List.mem_of_getElem? hk) d rfl]
    exact holds_of_instance hi
  obtain ⟨ins', b, hi', hb, hsame⟩ := hR.import_of hi hk
  cases hsame with
  | linked _ addr _ hd =>
    obtain ⟨n, -, rfl, hshows⟩ := hd.counts hholds
    have hbound := boundTyped_run hlink hrun ins'.module (Or.inr ⟨i, ins', hi', rfl⟩) _
      (List.mem_of_getElem? hb)
    exact ((accepts_signatureCString hreads _ _).mp ((hbound _ rfl).2 _ _ hshows.context)).1

/-! ### One host call -/

/-- The slot in the process is that of the closures. -/
theorem get_inWorld (t : Traced σ) (w : World (HostFunc σ)) :
    slot.embedded.traced.get (t.inWorld w) = slot.get t.state := rfl

/-- An exception that was set just now is in the slot. -/
theorem isSome_get_set (text : Name) (s : σ) : (slot.get (slot.set text s)).isSome = true := by
  rw [slot.get_set]
  rfl

theorem callImport_unlinked {imp : Import} (hctx : w.context i k = some (imp, .unlinked))
    (args : List Val) (t : Traced σ) :
    World.callImport e slot i k args (t.inWorld w)
      = some (⟨none, some (e.unlinkedText imp)⟩,
          (slot.traced.set (e.unlinkedText imp) t).inWorld w) := by
  simp only [World.callImport, Traced.inWorld, hctx]
  rfl

/-- The context is there before the closure and behind it. -/
theorem callImport_linked {imp imp' : Import} {d d' : FuncType × HostFunc σ} {args : List Val}
    {t t' : Traced σ} {r : HostReturn}
    (hctx : w.context i k = some (imp, .closure d))
    (hcall : callImport slot ⟨d.1, d.2⟩ (e.junk t.calls.length) k args t = some (r, t'))
    (hctx' : (w.perform e (e.uses t')).context i k = some (imp', .closure d')) :
    World.callImport e slot i k args (t.inWorld w)
      = some (r, t'.inWorld (w.perform e (e.uses t'))) := by
  simp only [World.callImport, Traced.inWorld, hctx, hcall, Option.bind_eq_bind, Option.bind_some,
    hctx']

/-- The exception that a call of an import raises is the one in the slot. -/
theorem slot_of_worldCall {args : List Val} {t : Traced (EmbeddedState σ)}
    {r : HostReturn × Traced (EmbeddedState σ)} (h : World.callImport e slot i k args t = some r)
    (text : Name) (hraised : r.1.raised = some text) :
    slot.embedded.traced.get r.2 = some (storedException text) := by
  unfold World.callImport at h
  split at h
  · cases h
    cases hraised
    exact slot.get_set _ _
  · obtain ⟨m, hm, h⟩ := Option.bind_eq_some_iff.mp h
    simp only at h
    split at h
    · cases h
      exact slot_of_callImport hm text hraised
    · cases h
  · cases h

/-! ### Whole executions -/

/-- Arguments of the types of an import are of the types of the definition. -/
theorem map_ty_of_fits {imp : Import} {ty : FuncType} (hfit : imp.ty = ty.importType)
    {args : List Val} (hargs : args.map (fun v => v.ty.toWamr) = imp.ty.params) :
    args.map Val.ty = ty.params := by
  rw [hfit] at hargs
  refine toWamr_injective.list_map ?_
  rw [List.map_map]
  exact hargs

/-- What a closure hands over has the result type of the import. -/
theorem received_fits {imp : Import} {ty : FuncType} (hfit : imp.ty = ty.importType)
    {results : List Val} (hlen : results.length = ty.results.length) :
    (ty.received results).map (fun v => v.ty.toWamr) = imp.ty.results.head? := by
  have hty := congrArg (Option.map ValType.toWamr) (ty_received ty hlen)
  rw [Option.map_map] at hty
  rw [hfit, FuncType.importType, List.head?_map, ← hty]
  rfl

/-- One host call of an import that is linked, in what is meant. -/
theorem meaning_linked {bindings : List (Binding (HostFunc σ))} {imp : Import}
    {d : Definition (HostFunc σ)} (hk : bindings[k]? = some ⟨imp, some d⟩) (args : List Val)
    (next : Option Val → Guest) (t : Traced σ) :
    (Guest.callHost k args next).meaning e slot bindings t =
      let outcome := d.func.run args (zeros d.ty) t.state
      let t : Traced σ := ⟨outcome.2, t.calls ++ [(k, args)]⟩
      if outcome.1.panicked then
        let t := slot.traced.set hostFunctionPanicked t
        ⟨.raised hostFunctionPanicked, t, e.uses t⟩
      else if (slot.get outcome.2).isSome then ⟨.stopped, t, e.uses t⟩
      else
        let m := (next (d.ty.received outcome.1.results)).meaning e slot bindings t
        ⟨m.ending, m.final, e.uses t ++ m.ops⟩ := by
  rw [Guest.meaning, hk]
  rfl

theorem meaning_unlinked {bindings : List (Binding (HostFunc σ))} {imp : Import}
    (hk : bindings[k]? = some ⟨imp, none⟩) (args : List Val) (next : Option Val → Guest)
    (t : Traced σ) : (Guest.callHost k args next).meaning e slot bindings t
      = ⟨.raised (e.unlinkedText imp), slot.traced.set (e.unlinkedText imp) t, []⟩ := by
  rw [Guest.meaning, hk]

/-- The binding of an import that is declared. -/
theorem binding_of_declared {bindings : List (Binding (HostFunc σ))} {imp : Import}
    (h : (bindings.map Binding.target)[k]? = some imp) :
    ∃ definition, bindings[k]? = some ⟨imp, definition⟩ := by
  rw [List.getElem?_map, Option.map_eq_some_iff] at h
  obtain ⟨⟨_, definition⟩, hb, rfl⟩ := h
  exact ⟨definition, hb⟩

/-- The definitions have the types of their imports. -/
def Fitting (bindings : List (Binding (HostFunc σ))) : Prop :=
  ∀ (k : Nat) (imp : Import) (d : Definition (HostFunc σ)), bindings[k]? = some ⟨imp, some d⟩ →
    imp.ty = d.ty.importType

/-- A call that returns ends with values of the declared types. -/
theorem Validated.meaning_returned {bindings : List (Binding (HostFunc σ))}
    (hfit : Fitting bindings) {tys : List ValType} {g : Guest}
    (hg : Validated (bindings.map Binding.target) tys g) (t : Traced σ) {values : List Val}
    (hret : (g.meaning e slot bindings t).ending = .returned values) :
    values.map Val.ty = tys := by
  induction hg generalizing t with
  | ret out htys =>
    cases hret
    exact htys
  | trap text => cases hret
  | callHost k args next imp himp _ _ ih =>
    obtain ⟨definition, hk⟩ := binding_of_declared himp
    cases definition with
    | none =>
      rw [meaning_unlinked hk] at hret
      cases hret
    | some d =>
      rw [meaning_linked hk] at hret
      simp only at hret
      split at hret
      · cases hret
      · split at hret
        · cases hret
        · exact ih _ (received_fits (hfit k imp d hk) (length_run ⟨d.ty, d.func⟩ args t.state)) _
            hret

/-- A function of an instance does what is meant, and the session follows the process while the
closures use the API. No closure is gone when it is called, and none is freed while it runs. -/
theorem run_eq_meaning (slot : ExceptionSlot σ) (hown : OwnLinked ins) (hfit : Fitting ins.bindings)
    (huses : ∀ t, ∀ op ∈ e.uses t, op ≠ .instanceDrop i) {tys : List ValType} {g : Guest}
    (hg : Validated (ins.bindings.map Binding.target) tys g) (t : Traced σ) (hR : Refines w s)
    (hi : s.instances.get? i = some ins) :
    let m := g.meaning e slot ins.bindings t
    g.run slot.embedded.traced (World.callImport e slot i) (t.inWorld w)
      = some (m.ending, m.final.inWorld (w.perform e m.ops)) := by
  -- The process moves along with the closures, and with it the session.
  induction hg generalizing t w s with
  | ret values _ => rfl
  | trap text => rfl
  | callHost k args next imp himp hargs _ ih =>
    obtain ⟨definition, hk⟩ := binding_of_declared himp
    rw [run_callHost]
    cases definition with
    | none =>
      rw [callImport_unlinked (hR.context_unlinked hi hk), Option.bind_some, meaning_unlinked hk]
      exact if_pos (isSome_get_set _ _)
    | some d =>
      -- The instance keeps the linker of the definition alive, before the closure and behind it.
      have hctx : ∀ {w : World (HostFunc σ)} {s : Session (HostFunc σ)}, Refines w s →
          s.instances.get? i = some ins → w.context i k = some (imp, .closure (d.ty, d.func)) := by
        intro w s hR hi
        refine hR.context_linked hi hk ?_
        rw [hown _ (List.mem_of_getElem? hk) d rfl]
        exact holds_of_instance hi
      have htys := map_ty_of_fits (hfit k imp d hk) hargs
      have hR' := fun t => refines_perform (e := e) hR (e.uses t)
      have hi' := fun t => instances_perform (e := e) hi (huses t)
      rw [meaning_linked hk]
      cases hpanic : (d.func.run args (zeros d.ty) t.state).1.panicked with
      | true =>
        obtain ⟨result, hcall⟩ := callImport_of_panic slot ⟨d.ty, d.func⟩
          (e.junk t.calls.length) k htys hpanic
        rw [callImport_linked (hctx hR hi) hcall (hctx (hR' _) (hi' _)), Option.bind_some]
        simp only [hpanic, if_true]
        exact if_pos (isSome_get_set _ _)
      | false =>
        have hcall := callImport_of_return slot ⟨d.ty, d.func⟩
          (e.junk t.calls.length) k htys hpanic
        have hrest := fun t' : Traced σ => ih _ (received_fits (hfit k imp d hk)
          (length_run ⟨d.ty, d.func⟩ args t.state)) t' (hR' t') (hi' t')
        rw [callImport_linked (hctx hR hi) hcall (hctx (hR' _) (hi' _)), Option.bind_some,
          get_inWorld]
        simp only [hpanic, Bool.false_eq_true, if_false]
        split
        · rfl
        · rw [hrest]
          simp only [World.perform, attempt_append]

/-! ### Whole calls -/

/-- What the user writes is what happens. Take any run of the API, any instance whose functions
were defined by its own linker, any function of it that passes validation, and any exception in its
slot before. A `Func::call` of it runs the closures that the session has bound to the imports, in
the order and with the values that the function says. WAMR goes on behind a closure if the slot is
empty then. The caller gets what the function returns, or the exception that is in the slot at the
end: of the panic, the trap or the unlinked import that ended the execution, or the one that it was
stopped for. The closures may use the API in any way while they run, but for dropping the instance
that is borrowed: nothing that they define or drop, not even their own linker, changes what the rest
of the call does. Afterwards the process is what the session is after the same operations. -/
theorem embedded_call {σ : Type} (slot : ExceptionSlot σ) (e : Embedding σ) (accepts : Matcher)
    (hreads : ReadsSignatures accepts) (hlink : LinksAccepted accepts e.link)
    (ops : List (Op (HostFunc σ))) (w : World (HostFunc σ)) (s : Session (HostFunc σ))
    (hrun : run (World.step e.link e.usizeBits) World.init ops = some w)
    (hsession : run (Session.step e.link e.usizeBits) Session.init ops = some s) (i : Nat)
    (ins : SessionInstance (HostFunc σ)) (hi : s.instances.get? i = some ins)
    (hown : OwnLinked ins) (huses : ∀ t, ∀ op ∈ e.uses t, op ≠ .instanceDrop i)
    (resultJunk : Nat → BitVec 32) (ty : FuncType) (hcount : ty.results.length < 2 ^ 32)
    (body : List Val → Guest) (vs results : List Val) (hparams : vs.map Val.ty = ty.params)
    (hbody : Validated (ins.bindings.map Binding.target) ty.results (body vs))
    (hbuf : ty.results.length ≤ results.length) (t : Traced σ) :
    let m := (body vs).meaning e slot ins.bindings t
    callIn e slot resultJunk i ty body vs results (t.inWorld w)
        = (callerSees (slot.get m.final.state) m.ending results,
            m.final.inWorld (w.perform e m.ops)) ∧
      Leaves m.ending (slot.get m.final.state) ∧
      Agree (w.perform e m.ops) (s.perform e m.ops) := by
  intro m
  obtain ⟨s', hs', hR⟩ := session_of_run hrun
  obtain rfl : s = s' := Option.some.inj (hsession.symm.trans hs')
  have hfit : Fitting ins.bindings :=
    fun k imp d hk => fits_of_run hreads hlink hrun hR hi hown hk
  have hexec := run_eq_meaning slot hown hfit huses hbody t hR hi
  have hleaves : Leaves m.ending (slot.get m.final.state) :=
    leaves_run slot.embedded.traced (fun _ _ _ _ hr => slot_of_worldCall hr) hexec
  refine ⟨?_, hleaves, (refines_perform hR m.ops).agree⟩
  exact callBody_eq resultJunk i hcount hparams hbuf hexec hleaves
    fun _ => hbody.meaning_returned hfit t

/-- `countCalls` is defined, and a module imports it. -/
def countingRun : List (Op (HostFunc (Nat × Option Name))) :=
  [.engineNew true, .linkerNew 0, .defineFunc 0 [0x6d] [0x66] ⟨[], [.i32]⟩ countCalls true,
    .moduleNew 0 [] (.ok [⟨[0x6d], [0x66], ⟨[], [.i32]⟩⟩]), .instantiate 0 0 .ok]

/-- When it is called first, it drops its linker and the engine. -/
def dropsItsLinker : Embedding (Nat × Option Name) where
  link := wamrLink
  usizeBits := 64
  unlinkedText := fun _ => []
  uses := fun t => if t.calls.length = 1 then [.linkerDrop 0, .engineDrop 0] else []
  junk := fun _ => ⟨fun _ => -1, -1, []⟩

/-- Calls it twice, and returns what it got. -/
def callsTwice : List Val → Guest := fun _ =>
  .callHost 0 [] fun first => .callHost 0 [] fun second => .ret (first.toList ++ second.toList)

/-- The linker is gone after the first host call, and the second one runs the closure all the same.
With an exception in the slot there is no second one. -/
theorem embedded_call_dropsItsLinker :
    ∃ w, run (World.step wamrLink 64) World.init countingRun = some w ∧
      let call := fun t : Traced (Nat × Option Name) => callIn dropsItsLinker secondSlot
        (fun _ => -1) 0 ⟨[], [.i32, .i32]⟩ callsTwice [] [.i64 7, .i64 8, .i64 9] (t.inWorld w)
      let trapped := storedException "unreachable".toUTF8.data.toList
      (call ⟨(0, none), []⟩).1 = (.ok (), [.i32 0, .i32 1, .i64 9]) ∧
        (call ⟨(0, some trapped), []⟩).1
          = (.error (.trap "Exception: unreachable"), [.i64 7, .i64 8, .i64 9]) ∧
        (call ⟨(0, some trapped), []⟩).2.calls = [(0, [])] := by
  obtain ⟨w, hw⟩ := Option.isSome_iff_exists.mp
    (show (run (World.step wamrLink 64) World.init countingRun).isSome by rfl)
  obtain ⟨s, hs⟩ := Option.isSome_iff_exists.mp
    (show (run (Session.step wamrLink 64) Session.init countingRun).isSome by rfl)
  have hlook : (run (Session.step wamrLink 64) Session.init countingRun).bind
      (fun s => s.instances.get? 0) = some ⟨0, [⟨⟨[0x6d], [0x66], ⟨[], [.i32]⟩⟩,
          some ⟨0, [0x6d], [0x66], ⟨[], [.i32]⟩, countCalls⟩⟩]⟩ := rfl
  rw [hs, Option.bind_some] at hlook
  have huses : ∀ t, ∀ op ∈ dropsItsLinker.uses t, op ≠ .instanceDrop 0 := by
    intro t op hop
    simp only [dropsItsLinker] at hop
    split at hop
    · rcases List.mem_pair.mp hop with rfl | rfl
      · nofun
      · nofun
    · cases hop
  have hbody : Validated [⟨[0x6d], [0x66], ⟨[], [.i32]⟩⟩] [.i32, .i32] (callsTwice []) := by
    refine .callHost _ _ _ _ rfl rfl fun first hfirst => .callHost _ _ _ _ rfl rfl
      fun second hsecond => .ret _ ?_
    match first, hfirst, second, hsecond with
    | some (.i32 a), _, some (.i32 b), _ => rfl
  refine ⟨w, hw, ?_⟩
  intro call trapped
  have hcall := fun t => (embedded_call secondSlot dropsItsLinker acceptsSignature
    acceptsSignature_reads (newestNamed_accepted _) countingRun w s hw hs 0 _ hlook
    (by intro b hb d hd; cases List.mem_singleton.mp hb; cases hd; rfl) huses (fun _ => -1)
    ⟨[], [.i32, .i32]⟩ (by decide) callsTwice [] [.i64 7, .i64 8, .i64 9] rfl hbody (by decide) t).1
  exact ⟨congrArg Prod.fst (hcall ⟨(0, none), []⟩),
    congrArg Prod.fst (hcall ⟨(0, some trapped), []⟩),
    congrArg (fun r => r.2.calls) (hcall ⟨(0, some trapped), []⟩)⟩

end Wamrx.Proofs
