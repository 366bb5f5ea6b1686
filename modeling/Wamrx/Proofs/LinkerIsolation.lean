import Wamrx.Proofs.Bindings

/-!
# `Wamrx.Proofs.LinkerIsolation`: a run without the other linkers

All linkers share one registry, and imports are resolved at load, in a function that is given no
linker. So an instance of the linker `L` may run closures of another linker. What holds is that
the other linkers do not matter for an import that was bound to a definition of `L`.

WAMR is assumed to take the newest symbol that matches an import (`LinksNewestMatch`). Then a load
is a search in the registry (`resolve_eq_findSome?`), and a search can be compared with the one
among the entries of `L` alone.

`purge L ops` leaves out the definitions and the drops of the other linkers. `Purged L w t`
relates the state `w` of the full run to the state `t` of the shorter one: `t` has at least the
values of `w`, the entries of `L` are the same in both up to their addresses, and where `w` is
bound to the entry number `j` of `L`, `t` is bound to the entry number `j`.
-/

set_option autoImplicit false

namespace Wamrx.Proofs

open Support

variable {F : Type} {accepts : Matcher} {link : Linking} {usizeBits : Nat} {w w' t t' : World F}
  {c c' d d' : Process F} {V V' : Multiset Owned} {L : Nat}

/-- An operation that is not a definition or the drop of another linker. -/
def keepsFor (L : Nat) : Op F → Bool
  | .defineFunc l .. | .linkerDrop l => decide (l = L)
  | .engineNew _ | .engineClone _ | .engineDrop _ | .linkerNew _ | .moduleNew .. | .moduleDrop _
  | .instantiate .. | .call _ | .instanceDrop _ => true

/-- The run without the definitions and the drops of the other linkers. -/
def purge (L : Nat) (ops : List (Op F)) : List (Op F) := ops.filter (keepsFor L)

/-! ### Entries and bindings in two states -/

/-- The entries have the same texts, the same type and the same closure. -/
def SameEntry (c d : Process F) (n n' : NativeEntry) : Prop := ∃ v, Shows c n v ∧ Shows d n' v

/-- The import is bound to the entry number `j` of the box. -/
def BoundAt (c : Process F) (L j : Nat) (b : BoundImport) : Prop :=
  ∃ n, (entriesOf c L)[j]? = some n ∧ b.attachment = some n.context

/-- Where the left import is bound to an entry of the box, so is the right one. -/
def SameBinding (L : Nat) (c d : Process F) (b b' : BoundImport) : Prop :=
  (∀ addr, b.attachment = some addr → addr < c.heap.next) ∧
    ∀ j, BoundAt c L j b → BoundAt d L j b'

/-- The two modules have the same number of imports, with the same bindings to the box. -/
def SameBindings (L : Nat) (c d : Process F) (m m' : Module) : Prop :=
  List.Forall₂ (SameBinding L c d) (c.importsOf m) (d.importsOf m')

/-- Bindings do not change, as long as the box lives. -/
theorem SameBinding.step {b b' : BoundImport} (h : SameBinding L c d b b') (hc : Follows c c')
    (hd : Follows d d') (hlive : (∃ s, Rc.deref? c'.states L = some s) →
      ∃ s, Rc.deref? d'.states L = some s) : SameBinding L c' d' b b' := by
  refine ⟨fun addr haddr => Nat.lt_of_lt_of_le (h.1 addr haddr) hc.heap.next_le, ?_⟩
  rintro j ⟨n, hn, hb⟩
  obtain ⟨s, hs, -⟩ := live_of_mem_entriesOf (List.mem_of_getElem? hn)
  obtain ⟨new, heq, hnew⟩ := hc.entries L s hs
  -- The context is an old block, so the entry is not one of the new ones.
  have hj : j < (entriesOf c L).length := by
    by_contra hge
    rw [entriesOf_eq hs, heq, List.getElem?_append_right (by omega)] at hn
    have := hnew n (List.mem_of_getElem? hn)
    have := h.1 n.context hb
    omega
  rw [entriesOf_eq hs, heq, List.getElem?_append_left hj] at hn
  obtain ⟨n', hn', hb'⟩ := h.2 j ⟨n, hn, hb⟩
  obtain ⟨s', hs'⟩ := hlive ⟨s, hs⟩
  obtain ⟨new', heq', -⟩ := hd.entries L s' hs'
  refine ⟨n', ?_, hb'⟩
  rw [entriesOf_eq hs', heq', List.getElem?_append_left (List.getElem?_eq_some_iff.mp hn').1, hn']

theorem SameBindings.step {m m' : Module} (h : SameBindings L c d m m') (hc : Follows c c')
    (hd : Follows d d') (hlive : (∃ s, Rc.deref? c'.states L = some s) →
      ∃ s, Rc.deref? d'.states L = some s)
    (hm : c'.importsOf m = c.importsOf m) (hm' : d'.importsOf m' = d.importsOf m') :
    SameBindings L c' d' m m' := by
  unfold SameBindings
  rw [hm, hm']
  exact h.imp fun _ _ hb => hb.step hc hd hlive

/-! ### Resolving in two states -/

/-- The attachment pointer of the node's symbol, if the symbol matches the import. -/
def matchNode (accepts : Matcher) (c : Process F) (imp : Import) (node : NativesNode) :
    Option Nat :=
  ((c.symbolAt node).filter fun s =>
    decide (s.1.Named imp) && accepts s.1.signature imp.ty).map Prod.snd

/-- A node of an entry that answers has the names of the import, and answers with the context. -/
theorem Shows.of_match {n : NativeEntry} {v : EntryView F} (h : Shows c n v) {imp : Import}
    {addr : Nat} (hmatch : matchNode accepts c imp n.node = some addr) :
    v.symbol.Named imp ∧ addr = n.context := by
  rw [matchNode, h.symbolAt, Option.filter_some] at hmatch
  split at hmatch
  · rename_i hmatches
    cases hmatch
    rw [Bool.and_eq_true, decide_eq_true_eq] at hmatches
    exact ⟨hmatches.1, rfl⟩
  · cases hmatch

/-- The newest match is found by a search in the registry. -/
theorem resolve_eq_findSome? (hlink : LinksNewestMatch accepts link) (c : Process F)
    (imp : Import) :
    (c.resolve link imp).attachment = c.registry.findSome? (matchNode accepts c imp) := by
  have hsearch : ∀ nodes : List NativesNode, ((nodes.filterMap c.symbolAt).find? fun s =>
      decide (s.1.Named imp) && accepts s.1.signature imp.ty).map Prod.snd
        = nodes.findSome? (matchNode accepts c imp) := by
    intro nodes
    induction nodes with
    | nil => rfl
    | cons node nodes ih =>
      rw [List.findSome?_cons, matchNode]
      cases hsym : c.symbolAt node with
      | none => rw [List.filterMap_cons_none hsym, ih]; rfl
      | some s =>
        rw [List.filterMap_cons_some hsym, List.find?_cons, Option.filter_some]
        split
        · rename_i hmatch
          rw [if_pos hmatch]
          rfl
        · rename_i hmatch
          rw [if_neg (by simp [hmatch]), ih]
          rfl
  rw [Process.resolve, pick_newestMatch hlink]
  exact hsearch c.registry

/-- The registry when no other box has entries. -/
theorem registry_eq_of_others (h : Inv d V') (hothers : ∀ ptr, ptr ≠ L → entriesOf d ptr = [])
    (hord : ((entriesOf d L).map NativeEntry.node).reverse.Sublist d.registry) :
    d.registry = ((entriesOf d L).map NativeEntry.node).reverse := by
  -- Both are in the same order, so inclusion is enough.
  refine List.Sublist.antisymm ?_ hord
  refine sublist_of_subset (List.Sublist.refl _) hord h.registry_nodup ?_
  intro node hnode
  obtain ⟨ptr, n, v, hn, rfl, -⟩ := h.entry_of_node hnode
  have hptr : ptr = L := by
    by_contra hne
    simp [hothers ptr hne] at hn
  rw [hptr] at hn
  exact List.mem_reverse.mpr (List.mem_map_of_mem hn)

/-- Only the node of the entry answers with its context. -/
theorem Inv.node_of_match (h : Inv c V) {n : NativeEntry} (hn : n ∈ entriesOf c L) {imp : Import}
    {node : NativesNode} (hnode : node ∈ c.registry)
    (hmatch : matchNode accepts c imp node = some n.context) : node = n.node := by
  obtain ⟨ptr, n', v, hn', rfl, hv⟩ := h.entry_of_node hnode
  rw [h.entry_unique hn' hn (hv.of_match hmatch).2.symm]

/-- The same entry matches the same imports. -/
theorem SameEntry.isSome_match {n n' : NativeEntry} (h : SameEntry c d n n') (imp : Import) :
    (matchNode accepts c imp n.node).isSome = (matchNode accepts d imp n'.node).isSome := by
  obtain ⟨v, hv, hv'⟩ := h
  rw [matchNode, matchNode, hv.symbolAt, hv'.symbolAt, Option.filter_some, Option.filter_some]
  split <;> rfl

/-- An import that the full registry binds to an entry of the box is bound to the same entry when
the box is alone in the registry. -/
theorem boundAt_resolve (hlink : LinksNewestMatch accepts link) (h : Inv c V) (h' : Inv d V')
    (hord : ((entriesOf c L).map NativeEntry.node).reverse.Sublist c.registry)
    (hord' : ((entriesOf d L).map NativeEntry.node).reverse.Sublist d.registry)
    (hothers : ∀ ptr, ptr ≠ L → entriesOf d ptr = [])
    (hentries : List.Forall₂ (SameEntry c d) (entriesOf c L) (entriesOf d L)) (imp : Import)
    {j : Nat} (hj : BoundAt c L j (c.resolve link imp)) : BoundAt d L j (d.resolve link imp) := by
  obtain ⟨n, hn, hb⟩ := hj
  have hmem := List.mem_of_getElem? hn
  rw [resolve_eq_findSome? hlink] at hb
  have hinj : ∀ node ∈ c.registry, matchNode accepts c imp node = some n.context →
      node = n.node := fun node hnode hmatch => h.node_of_match hmem hnode hmatch
  -- So the search among the entries of the box alone finds it as well.
  have hfirst : ((entriesOf c L).map NativeEntry.node).reverse.findSome? (matchNode accepts c imp)
      = some n.context :=
    findSome?_of_sublist hord h.registry_nodup hb
      (List.mem_reverse.mpr (List.mem_map_of_mem hmem)) hinj
  -- The search in the other registry goes through related entries.
  have hrel := List.forall₂_reverse_iff.mpr (forall₂_getElem? hentries)
  rw [← List.map_reverse, List.findSome?_map] at hfirst
  have hagree : ∀ a b, ((∃ k : Nat, (entriesOf c L)[k]? = some a ∧ (entriesOf d L)[k]? = some b) ∧
      SameEntry c d a b) → ((matchNode accepts c imp ∘ NativeEntry.node) a).isSome
        = ((matchNode accepts d imp ∘ NativeEntry.node) b).isSome :=
    fun a b hab => hab.2.isSome_match imp
  obtain ⟨a, b, addr, ⟨⟨k, hak, hbk⟩, v, hv, hv'⟩, ha, hb', hfirst'⟩ :=
    findSome?_of_forall₂ hagree hrel hfirst
  have hanode := hinj a.node (hord.subset (List.mem_reverse.mpr
    (List.mem_map_of_mem (List.mem_of_getElem? hak)))) ha
  -- So the search stopped at the same place in both boxes.
  have hnodes : ((entriesOf c L).map NativeEntry.node).Nodup :=
    List.nodup_reverse.mp (hord.nodup h.registry_nodup)
  have hkj : k = j := by
    refine (List.getElem?_inj (by simpa using (List.getElem?_eq_some_iff.mp hak).1) hnodes).mp ?_
    rw [List.getElem?_map, List.getElem?_map, hak, hn, Option.map_some, Option.map_some, hanode]
  subst hkj
  refine ⟨b, hbk, ?_⟩
  have hreg := registry_eq_of_others h' hothers hord'
  rw [← List.map_reverse] at hreg
  rw [resolve_eq_findSome? hlink, hreg, List.findSome?_map, hfirst', (hv'.of_match hb').2]

/-! ### The relation -/

/-- The instances share a box number and have the same bindings to `L`. -/
def SameInstance (L : Nat) (c d : Process F) (i i' : Instance) : Prop :=
  i'.linkerState = i.linkerState ∧ SameBindings L c d i.module i'.module

/-- The box has a pointer. -/
def Live (c : Process F) (ptr : Nat) : Prop := ∃ s, Rc.deref? c.states ptr = some s

/-- The state of a run and the state of the run without the other linkers. -/
structure Purged (L : Nat) (w t : World F) : Prop where
  inv : Inv w.proc (valuesOf w)
  inv' : Inv t.proc (valuesOf t)
  bind : BindingInv w
  bind' : BindingInv t
  engines : Arena.Sim (fun _ _ => True) w.engines t.engines
  linkers : Arena.Sim Eq w.linkers t.linkers
  modules : Arena.Sim (SameBindings L w.proc t.proc) w.modules t.modules
  instances : Arena.Sim (SameInstance L w.proc t.proc) w.instances t.instances
  /-- Only `L` defines anything in the shorter run. -/
  others : ∀ ptr, ptr ≠ L → entriesOf t.proc ptr = []
  entries : Live w.proc L →
    List.Forall₂ (SameEntry w.proc t.proc) (entriesOf w.proc L) (entriesOf t.proc L)

theorem purged_init (L : Nat) : Purged L (World.init : World F) World.init := by
  refine ⟨inv_init, inv_init, bindingInv_init, bindingInv_init, Arena.sim_empty _,
    Arena.sim_empty _, Arena.sim_empty _, Arena.sim_empty _, fun ptr _ => ?_, fun hlive => ?_⟩
  · simp [entriesOf, Rc.deref?, World.init, Process.init]
  · obtain ⟨s, hs⟩ := hlive
    simp [Rc.deref?, World.init, Process.init] at hs

/-- A box that is referenced in the full run is referenced in the shorter one. -/
theorem live_of_sims (h : Inv w.proc (valuesOf w)) (h' : Inv t.proc (valuesOf t))
    (hl : Arena.Sim Eq w.linkers t.linkers)
    (hi : Arena.Sim (fun i i' : Instance => i'.linkerState = i.linkerState) w.instances t.instances)
    {ptr : Nat} (hlive : Live w.proc ptr) : Live t.proc ptr := by
  obtain ⟨s, hs⟩ := hlive
  obtain ⟨k, hk⟩ := Rc.deref?_eq_some.mp hs
  refine h'.states.deref?_of_mem (mem_stateRefsOf_valuesOf.mpr ?_)
  rcases mem_stateRefsOf_valuesOf.mp ((h.states.live_iff ptr).mp ⟨_, hk⟩) with
    ⟨l, li, hli, rfl⟩ | ⟨i, ins, hins, rfl⟩
  -- The pointer of the full run is in the shorter one, because that drops less.
  · obtain ⟨li', hli', rfl⟩ := hl.get? l li hli
    exact Or.inl ⟨l, li, hli', rfl⟩
  · obtain ⟨ins', hins', heq⟩ := hi.get? i ins hins
    exact Or.inr ⟨i, ins', hins', heq⟩

/-- The modules were there and had the same bindings, or they are new and have them. -/
def KeptOrNew (L : Nat) (w t w' t' : World F) (m m' : Module) : Prop :=
  (Carried w m ∧ Carried t m' ∧ SameBindings L w.proc t.proc m m') ∨
    SameBindings L w'.proc t'.proc m m'

theorem Purged.kept_modules (h : Purged L w t) (w' t' : World F) :
    Arena.Sim (KeptOrNew L w t w' t') w.modules t.modules :=
  h.modules.mono fun m _ _ hx hy hP => Or.inl ⟨Or.inl ⟨m, hx⟩, Or.inl ⟨m, hy⟩, hP⟩

theorem Purged.kept_instances (h : Purged L w t) (w' t' : World F) :
    Arena.Sim (fun i i' : Instance => i'.linkerState = i.linkerState ∧
      KeptOrNew L w t w' t' i.module i'.module) w.instances t.instances :=
  h.instances.mono fun i x y hx hy hP =>
    ⟨hP.1, Or.inl ⟨Or.inr ⟨i, x, hx, rfl⟩, Or.inr ⟨i, y, hy, rfl⟩, hP.2⟩⟩

/-- Entries that are still there correspond as before. -/
theorem sameEntries_keep {es es' : List NativeEntry}
    (h : List.Forall₂ (SameEntry c d) es es') (hc : c.heap.Later c'.heap)
    (hd : d.heap.Later d'.heap) (hok : ∀ n ∈ es, EntryOk c' n) (hok' : ∀ n ∈ es', EntryOk d' n) :
    List.Forall₂ (SameEntry c' d') es es' := by
  refine (forall₂_getElem? h).imp ?_
  rintro n n' ⟨⟨j, hn, hn'⟩, v, hv, hv'⟩
  exact ⟨v, hv.keep hc (hok n (List.mem_of_getElem? hn)),
    hv'.keep hd (hok' n' (List.mem_of_getElem? hn'))⟩

/-- The entries of `L` correspond after steps that add none. -/
theorem Purged.entries_keep (h : Purged L w t) (hw : Inv w'.proc (valuesOf w'))
    (ht : Inv t'.proc (valuesOf t')) (hf : Follows w.proc w'.proc) (hf' : Follows t.proc t'.proc)
    (he : entriesOf w'.proc L = entriesOf w.proc L) (he' : entriesOf t'.proc L = entriesOf t.proc L)
    (hlive : Live w'.proc L) : List.Forall₂ (SameEntry w'.proc t'.proc) (entriesOf w'.proc L)
      (entriesOf t'.proc L) := by
  obtain ⟨s, hs⟩ := hlive
  rcases Nat.lt_or_ge L w.proc.states.next with hlt | hge
  · have hold := h.entries (hf.live L s hlt hs)
    rw [← he, ← he'] at hold
    exact sameEntries_keep hold hf.heap hf'.heap (fun _ => hw.entry_ok) fun _ => ht.entry_ok
  · -- The box is new in both runs.
    have hge' : t.proc.states.next ≤ L := by
      rw [h.bind'.states_next, h.linkers.next_eq, ← h.bind.states_next]
      exact hge
    rw [he, he', entriesOf_beyond hge, entriesOf_beyond hge']
    exact .nil

/-- The relation after a step on each side, or on the left side alone. -/
theorem Purged.next (h : Purged L w t) (hw : Inv w'.proc (valuesOf w'))
    (ht : Inv t'.proc (valuesOf t')) (hbw : BindingInv w') (hbt : BindingInv t')
    (hf : Follows w.proc w'.proc) (hf' : Follows t.proc t'.proc)
    (he : Arena.Sim (fun _ _ => True) w'.engines t'.engines)
    (hl : Arena.Sim Eq w'.linkers t'.linkers)
    (hm : Arena.Sim (KeptOrNew L w t w' t') w'.modules t'.modules)
    (hi : Arena.Sim (fun i i' : Instance => i'.linkerState = i.linkerState ∧
      KeptOrNew L w t w' t' i.module i'.module) w'.instances t'.instances)
    (hothers : ∀ ptr, ptr ≠ L → entriesOf t'.proc ptr = [])
    (hentries : Live w'.proc L → Live t'.proc L →
      List.Forall₂ (SameEntry w'.proc t'.proc) (entriesOf w'.proc L) (entriesOf t'.proc L)) :
    Purged L w' t' := by
  have hlive : Live w'.proc L → Live t'.proc L := fun hlive =>
    live_of_sims hw ht hl (hi.mono fun _ _ _ _ _ hP => hP.1) hlive
  have hcarry : ∀ {m m' : Module}, Carried w' m → Carried t' m' → KeptOrNew L w t w' t' m m' →
      SameBindings L w'.proc t'.proc m m' := by
    -- Old modules keep their bindings, and new ones come with theirs.
    rintro m m' hm hm' (⟨hold, hold', hsame⟩ | hnew)
    · exact hsame.step hf hf' hlive (importsOf_eq hf (h.inv.carried_loaded hold)
        (hw.carried_loaded hm)) (importsOf_eq hf' (h.inv'.carried_loaded hold')
        (ht.carried_loaded hm'))
    · exact hnew
  refine ⟨hw, ht, hbw, hbt, he, hl, ?_, ?_, hothers, fun hL => hentries hL (hlive hL)⟩
  · exact hm.mono fun m x y hx hy => hcarry (Or.inl ⟨m, hx⟩) (Or.inl ⟨m, hy⟩)
  · exact hi.mono fun i x y hx hy hP =>
      ⟨hP.1, hcarry (Or.inr ⟨i, x, hx, rfl⟩) (Or.inr ⟨i, y, hy, rfl⟩) hP.2⟩

/-- The relation after one quiet operation on both sides. -/
theorem Purged.quiet (h : Purged L w t) {op : Op F} (hs : w.step link usizeBits op = some w')
    (hs' : t.step link usizeBits op = some t') (hq : Quiet w.proc w'.proc)
    (hq' : Quiet t.proc t'.proc)
    (he : Arena.Sim (fun _ _ => True) w'.engines t'.engines)
    (hl : Arena.Sim Eq w'.linkers t'.linkers)
    (hm : Arena.Sim (KeptOrNew L w t w' t') w'.modules t'.modules)
    (hi : Arena.Sim (fun i i' : Instance => i'.linkerState = i.linkerState ∧
      KeptOrNew L w t w' t' i.module i'.module) w'.instances t'.instances) : Purged L w' t' := by
  have hw := inv_step w op w' h.inv hs
  have ht := inv_step t op t' h.inv' hs'
  refine h.next hw ht (bindingInv_step w op w' h.inv h.bind hs)
    (bindingInv_step t op t' h.inv' h.bind' hs') hq.follows hq'.follows he hl hm hi ?_ ?_
  · intro ptr hptr
    cases hptr' : Rc.deref? t'.proc.states ptr with
    | none => simp [entriesOf, hptr']
    | some s => rw [hq'.entriesOf_eq hptr', h.others ptr hptr]
  · rintro ⟨s, hlive⟩ ⟨s', hlive'⟩
    exact h.entries_keep hw ht hq.follows hq'.follows (hq.entriesOf_eq hlive)
      (hq'.entriesOf_eq hlive') ⟨s, hlive⟩

/-! ### Steps on both sides -/

/-- Where the left constructor returns a value, the right one returns a related one. -/
theorem sim_addResult {α β ε δ : Type} {P : α → β → Prop} {a : Arena α} {b : Arena β}
    (h : Arena.Sim P a b) {r : Except ε α} {r' : Except δ β}
    (hr : ∀ x, r = .ok x → ∃ y, r' = .ok y ∧ P x y) :
    Arena.Sim P (addResult a r) (addResult b r') := by
  cases r with
  | ok x =>
    obtain ⟨y, rfl, hP⟩ := hr x rfl
    exact h.push hP
  | error err =>
    cases r' with
    | ok y =>
      -- The number is burnt on the left and names a value on the right.
      refine h.skip_left (Arena.next_push b y) ?_
      intro i hi
      rw [addResult, Arena.get?_push, if_neg (Nat.ne_of_lt hi)]
    | error err' => exact h.skip_left (Arena.next_skip b) fun i _ => Arena.get?_skip b i

/-- While the user of the full run holds a value, so does the user of the shorter one. -/
theorem Purged.refcount_pos (h : Purged L w t) (hpos : 0 < w.proc.eng.refcount) :
    0 < t.proc.eng.refcount := by
  obtain ⟨v, hv⟩ := h.inv.refcount_pos_iff.mp hpos
  refine h.inv'.refcount_pos_iff.mpr ?_
  rcases mem_valuesOf.mp hv with
    ⟨e, en, he, -⟩ | ⟨l, li, hl, -⟩ | ⟨m, mo, hm, -⟩ | ⟨i, ins, hi, -⟩
  · obtain ⟨en', he', -⟩ := h.engines.get? e en he
    exact ⟨_, mem_valuesOf_engine he'⟩
  · obtain ⟨li', hl', -⟩ := h.linkers.get? l li hl
    exact ⟨_, mem_valuesOf.mpr (Or.inr (Or.inl ⟨l, li', hl', rfl⟩))⟩
  · obtain ⟨mo', hm', -⟩ := h.modules.get? m mo hm
    exact ⟨_, mem_valuesOf.mpr (Or.inr (Or.inr (Or.inl ⟨m, mo', hm', rfl⟩)))⟩
  · obtain ⟨ins', hi', -⟩ := h.instances.get? i ins hi
    exact ⟨_, mem_valuesOf.mpr (Or.inr (Or.inr (Or.inr ⟨i, ins', hi', rfl⟩)))⟩

/-- An engine that the full run can make, the shorter one can make too. -/
theorem Purged.newEngine_ok (h : Purged L w t) {initOk : Bool} {e : Engine}
    (he : (w.proc.newEngine initOk).2 = .ok e) : ∃ e', (t.proc.newEngine initOk).2 = .ok e' := by
  -- The shorter run fails only at a start, and then the full run would be at a start, too.
  rcases h.inv'.owns.engines.new initOk with ⟨hzero, rfl, -⟩ | ⟨st, e', hnew, -⟩
  · rcases h.inv.owns.engines.new false with ⟨-, -, herr⟩ | ⟨st, e', ⟨-, hfalse, -⟩ | ⟨hpos, -⟩, -⟩
    · simp [Process.newEngine, herr] at he
    · cases hfalse
    · have := h.refcount_pos hpos
      omega
  · refine ⟨e', ?_⟩
    rcases hnew with ⟨-, -, heq, -⟩ | ⟨-, heq, -⟩ <;> simp [Process.newEngine, heq]

/-- Whether a module loads does not depend on the state. -/
theorem newModule_isOk {e : Engine} {bytes : List UInt8} {loaded : LoadResult} {mo : Module}
    (h : (Module.new link usizeBits c e bytes loaded).2 = .ok mo) (d : Process F) (e' : Engine) :
    ∃ mo', (Module.new link usizeBits d e' bytes loaded).2 = .ok mo' := by
  unfold Module.new at h ⊢
  cases loaded with
  | error errBuf => cases h
  | ok imports =>
    simp only at h ⊢
    split at h
    · exact ⟨_, rfl⟩
    · exact ⟨_, rfl⟩
    · cases h

/-- The imports of a module are bound to the same entries of `L` in both runs. -/
theorem Purged.sameBinding_resolve (hlink : LinksNewestMatch accepts link) (h : Purged L w t)
    (cell cell' : Cell F) (imp : Import) :
    SameBinding L (w.proc.alloc cell).1 (t.proc.alloc cell').1
      ((w.proc.alloc cell).1.resolve link imp) ((t.proc.alloc cell').1.resolve link imp) := by
  have hw := h.inv.alloc cell
  have ht := h.inv'.alloc cell'
  refine ⟨hw.boundOk_resolve link imp, ?_⟩
  intro j hj
  obtain ⟨n, hn, hb⟩ := hj
  obtain ⟨s, hs, -⟩ := live_of_mem_entriesOf (List.mem_of_getElem? hn)
  refine boundAt_resolve hlink hw ht (h.bind.ordered L) (h.bind'.ordered L) h.others ?_ imp
    ⟨n, hn, hb⟩
  exact sameEntries_keep (h.entries ⟨s, hs⟩) (Arena.later_push _ _) (Arena.later_push _ _)
    (fun _ => hw.entry_ok) fun _ => ht.entry_ok

/-- A `define_func` on `L` on both sides. -/
theorem Purged.defineFunc (h : Purged L w t) {module name : Name} {ty : FuncType} {func : F}
    {registerOk : Bool}
    (hs : w.step link usizeBits (.defineFunc L module name ty func registerOk) = some w') :
    ∃ t', t.step link usizeBits (.defineFunc L module name ty func registerOk) = some t' ∧
      Purged L w' t' := by
  cases step_iff.mp hs with
  | defineFunc _ _ _ _ _ _ li hl =>
  obtain ⟨_, hl', rfl⟩ := h.linkers.get? L li hl
  have hstep : t.step link usizeBits (.defineFunc L module name ty func registerOk) = some _ :=
    step_iff.mpr (.defineFunc L module name ty func registerOk li hl')
  refine ⟨_, hstep, ?_⟩
  have hptr := mem_stateRefsOf_valuesOf.mpr (Or.inl ⟨L, li, hl, rfl⟩)
  have hptr' := mem_stateRefsOf_valuesOf.mpr (Or.inl ⟨L, li, hl', rfl⟩)
  rcases defineFunc_cases h.inv hptr module name ty func registerOk with
    ⟨err, hwhy, hdef, herr⟩ | ⟨b, hm, hn, hok, hb, hdef⟩ <;>
    rcases defineFunc_cases h.inv' hptr' module name ty func registerOk with
      ⟨err', hwhy', hdef', herr'⟩ | ⟨b', hm', hn', hok', hb', hdef'⟩
  · -- Both registrations fail.
    refine h.quiet hs hstep ?_ ?_ h.engines h.linkers (h.kept_modules _ _) (h.kept_instances _ _)
    · rw [hdef]
      exact Quiet.register_error herr
    · rw [hdef']
      exact Quiet.register_error herr'
  -- Whether a registration fails depends on the operation alone.
  · exact absurd hwhy (by simp [hm', hn', hok'])
  · exact absurd hwhy' (by simp [hm, hn, hok])
  · -- Both boxes get an entry with the same contents.
    have hw := inv_step w _ _ h.inv hs
    have ht := inv_step t _ _ h.inv' hstep
    have hfollows := step_follows w _ _ h.inv hs
    have hfollows' := step_follows t _ _ h.inv' hstep
    have hbw := bindingInv_step w _ _ h.inv h.bind hs
    have hbt := bindingInv_step t _ _ h.inv' h.bind' hstep
    have hL : li.state = L := h.bind.linker_state L li hl
    rw [hL] at hb hb' hdef hdef'
    rw [hdef] at hw hfollows hbw ⊢
    rw [hdef'] at ht hfollows' hbt ⊢
    have hentries := entriesOf_defined w.proc hb module name ty func
    have hentries' := entriesOf_defined t.proc hb' module name ty func
    refine h.next hw ht hbw hbt hfollows hfollows' h.engines h.linkers (h.kept_modules _ _)
      (h.kept_instances _ _) (fun ptr hptr => ?_) fun _ _ => ?_
    · simp only [hentries', if_neg hptr, List.append_nil]
      exact h.others ptr hptr
    have hold := h.entries ⟨b.val, by simp [Rc.deref?, hb]⟩
    have hok : ∀ n ∈ entriesOf w.proc L ++ [entryAt w.proc.heap.next],
        EntryOk (defined w.proc L b.val module name ty func) n := fun n hn =>
      hw.entry_ok (by rwa [hentries, if_pos rfl])
    have hok' : ∀ n ∈ entriesOf t.proc L ++ [entryAt t.proc.heap.next],
        EntryOk (defined t.proc L b'.val module name ty func) n := fun n hn =>
      ht.entry_ok (by rwa [hentries', if_pos rfl])
    simp only [hentries, hentries', if_pos]
    refine List.rel_append (sameEntries_keep hold hfollows.heap hfollows'.heap
      (fun n hn => hok n (List.mem_append_left _ hn))
      fun n hn => hok' n (List.mem_append_left _ hn)) (.cons ?_ .nil)
    exact ⟨⟨module, name, ty, func⟩, shows_defined w.proc (hok _ (by simp)),
      shows_defined t.proc (hok' _ (by simp))⟩

/-- A `Module::new` on both sides. -/
theorem Purged.newModule (hlink : LinksNewestMatch accepts link) (h : Purged L w t) {e : Nat}
    {bytes : List UInt8} {loaded : LoadResult}
    (hs : w.step link usizeBits (.moduleNew e bytes loaded) = some w') :
    ∃ t', t.step link usizeBits (.moduleNew e bytes loaded) = some t' ∧ Purged L w' t' := by
  cases step_iff.mp hs with
  | moduleNew _ _ _ en hsize he =>
  obtain ⟨en', he', -⟩ := h.engines.get? e en he
  have hstep : t.step link usizeBits (.moduleNew e bytes loaded) = some _ :=
    step_iff.mpr (.moduleNew e bytes loaded en' hsize he')
  refine ⟨_, hstep, h.quiet hs hstep (Quiet.newModule _ _ _ _ _ _) (Quiet.newModule _ _ _ _ _ _)
    h.engines h.linkers (sim_addResult (h.kept_modules _ _) fun mo hmo => ?_)
    (h.kept_instances _ _)⟩
  obtain ⟨mo', hmo'⟩ := newModule_isOk hmo t.proc en'
  refine ⟨mo', hmo', Or.inr ?_⟩
  obtain ⟨imports, hloaded, himports, hquiet⟩ := newModule_ok hmo
  obtain ⟨imports', hloaded', himports', hquiet'⟩ := newModule_ok hmo'
  obtain rfl := Except.ok.inj (hloaded.symm.trans hloaded')
  unfold SameBindings
  -- Import by import: both were resolved right after the copy of the bytes was made.
  rw [himports, himports', List.forall₂_map_left_iff, List.forall₂_map_right_iff, List.forall₂_same]
  intro imp _
  refine (h.sameBinding_resolve hlink _ _ imp).step hquiet.follows hquiet'.follows ?_
  intro hlive
  exact live_of_sims (inv_step w _ _ h.inv hs) (inv_step t _ _ h.inv' hstep) h.linkers
    (h.instances.mono fun _ _ _ _ _ hP => hP.1) hlive

/-- An `instantiate` on both sides. -/
theorem Purged.instantiate (h : Purged L w t) {l m : Nat} {result : InstantiateResult}
    (hs : w.step link usizeBits (.instantiate l m result) = some w') :
    ∃ t', t.step link usizeBits (.instantiate l m result) = some t' ∧ Purged L w' t' := by
  cases step_iff.mp hs with
  | instantiate _ _ _ li mo hl hm =>
  obtain ⟨_, hl', rfl⟩ := h.linkers.get? l li hl
  obtain ⟨mo', hm', hsame⟩ := h.modules.get? m mo hm
  have hstep : t.step link usizeBits (.instantiate l m result) = some _ :=
    step_iff.mpr (.instantiate l m result li mo' hl' hm')
  refine ⟨_, hstep, h.quiet hs hstep (Quiet.linkerInstantiate _ _ _ _)
    (Quiet.linkerInstantiate _ _ _ _) h.engines h.linkers ((h.kept_modules _ _).erase m)
    (sim_addResult (h.kept_instances _ _) fun ins hins => ?_)⟩
  cases result with
  | instantiateFailed errBuf => cases hins
  | execEnvFailed => cases hins
  | ok =>
    obtain rfl := Except.ok.inj hins
    -- The instance takes the module over, with the bindings it has.
    exact ⟨_, rfl, rfl, Or.inl ⟨Or.inl ⟨m, hm⟩, Or.inl ⟨m, hm'⟩, hsame⟩⟩

/-- An operation that the shorter run keeps is possible there, and keeps the relation. -/
theorem purged_keep (hlink : LinksNewestMatch accepts link) (w : World F) (t : World F) (op : Op F)
    (w' : World F) (h : Purged L w t)
    (hkeep : keepsFor L op = true) (hs : w.step link usizeBits op = some w') :
    ∃ t', t.step link usizeBits op = some t' ∧ Purged L w' t' := by
  cases step_iff.mp hs with
  | engineNew initOk =>
    exact ⟨_, rfl, h.quiet hs rfl (Quiet.newEngine _ _) (Quiet.newEngine _ _)
      (sim_addResult h.engines fun e he => (h.newEngine_ok he).imp fun e' he' => ⟨he', trivial⟩)
      h.linkers (h.kept_modules _ _) (h.kept_instances _ _)⟩
  | engineClone e en he =>
    obtain ⟨en', he', -⟩ := h.engines.get? e en he
    have hstep : t.step link usizeBits (.engineClone e) = some _ :=
      step_iff.mpr (.engineClone e en' he')
    exact ⟨_, hstep, h.quiet hs hstep (Quiet.cloneEngine _ _) (Quiet.cloneEngine _ _)
      (h.engines.push trivial) h.linkers (h.kept_modules _ _) (h.kept_instances _ _)⟩
  | engineDrop e en he =>
    obtain ⟨en', he', -⟩ := h.engines.get? e en he
    have hstep : t.step link usizeBits (.engineDrop e) = some _ :=
      step_iff.mpr (.engineDrop e en' he')
    exact ⟨_, hstep, h.quiet hs hstep (Quiet.dropEngine _ _) (Quiet.dropEngine _ _)
      (h.engines.erase e) h.linkers (h.kept_modules _ _) (h.kept_instances _ _)⟩
  | linkerNew e en he =>
    obtain ⟨en', he', -⟩ := h.engines.get? e en he
    have hstep : t.step link usizeBits (.linkerNew e) = some _ :=
      step_iff.mpr (.linkerNew e en' he')
    -- The new linkers get the same number.
    have hnext : t.proc.states.next = w.proc.states.next := by
      rw [h.bind'.states_next, h.linkers.next_eq, h.bind.states_next]
    have hnew : (Linker.new w.proc en).2 = (Linker.new t.proc en').2 :=
      congrArg Linker.mk hnext.symm
    exact ⟨_, hstep, h.quiet hs hstep (Quiet.newLinker _ _) (Quiet.newLinker _ _) h.engines
      (h.linkers.push hnew) (h.kept_modules _ _) (h.kept_instances _ _)⟩
  | defineFunc l module name ty func registerOk li hl =>
    obtain rfl : l = L := of_decide_eq_true hkeep
    exact h.defineFunc hs
  | linkerDrop l li hl =>
    obtain ⟨li', hl', -⟩ := h.linkers.get? l li hl
    have hstep : t.step link usizeBits (.linkerDrop l) = some _ :=
      step_iff.mpr (.linkerDrop l li' hl')
    exact ⟨_, hstep, h.quiet hs hstep (Quiet.dropRc _ _) (Quiet.dropRc _ _) h.engines
      (h.linkers.erase l) (h.kept_modules _ _) (h.kept_instances _ _)⟩
  | moduleNew e bytes loaded en hsize he => exact h.newModule hlink hs
  | moduleDrop m mo hm =>
    obtain ⟨mo', hm', -⟩ := h.modules.get? m mo hm
    have hstep : t.step link usizeBits (.moduleDrop m) = some _ :=
      step_iff.mpr (.moduleDrop m mo' hm')
    exact ⟨_, hstep, h.quiet hs hstep (Quiet.dropModule _ _) (Quiet.dropModule _ _) h.engines
      h.linkers ((h.kept_modules _ _).erase m) (h.kept_instances _ _)⟩
  | instantiate l m result li mo hl hm => exact h.instantiate hs
  | call i ins hi =>
    obtain ⟨ins', hi', -⟩ := h.instances.get? i ins hi
    exact ⟨t, step_iff.mpr (.call i ins' hi'), h⟩
  | instanceDrop i ins hi =>
    obtain ⟨ins', hi', -⟩ := h.instances.get? i ins hi
    have hstep : t.step link usizeBits (.instanceDrop i) = some _ :=
      step_iff.mpr (.instanceDrop i ins' hi')
    exact ⟨_, hstep, h.quiet hs hstep (Quiet.dropInstance _ _) (Quiet.dropInstance _ _) h.engines
      h.linkers (h.kept_modules _ _) ((h.kept_instances _ _).erase i)⟩

/-- An operation that the shorter run leaves out keeps the relation. -/
theorem purged_skip (w : World F) (t : World F) (op : Op F) (w' : World F) (h : Purged L w t)
    (hskip : keepsFor L op = false) (hs : w.step link usizeBits op = some w') : Purged L w' t := by
  have hw := inv_step w op w' h.inv hs
  have hbw := bindingInv_step w op w' h.inv h.bind hs
  have hfollows := step_follows w op w' h.inv hs
  have hnext := h.next hw h.inv' hbw h.bind' hfollows (Follows.refl t.proc)
  cases step_iff.mp hs with
  | defineFunc l module name ty func registerOk li hli =>
    have hl : l ≠ L := of_decide_eq_false hskip
    refine hnext h.engines h.linkers (h.kept_modules _ _) (h.kept_instances _ _) h.others
      fun hlive _ => h.entries_keep hw h.inv' hfollows (Follows.refl _) ?_ rfl hlive
    -- Another box gets the entry.
    have hptr := mem_stateRefsOf_valuesOf.mpr (Or.inl ⟨l, li, hli, rfl⟩)
    obtain ⟨s, hs⟩ := hlive
    rcases defineFunc_cases h.inv hptr module name ty func registerOk with
      ⟨err, -, hdef, herr⟩ | ⟨b, -, -, -, hb, hdef⟩ <;> simp only [hdef] at hs ⊢
    · exact (Quiet.register_error herr).entriesOf_eq hs
    · have hne : L ≠ li.state := by
        rw [h.bind.linker_state l li hli]
        exact Ne.symm hl
      rw [entriesOf_defined w.proc hb, if_neg hne, List.append_nil]
  | linkerDrop l li hli =>
    exact hnext h.engines (h.linkers.erase_left l) (h.kept_modules _ _) (h.kept_instances _ _)
      h.others fun hlive _ => h.entries_keep hw h.inv' hfollows (Follows.refl _)
        ((Quiet.dropRc _ _).entriesOf_eq hlive.choose_spec) rfl hlive
  | engineNew _ | engineClone _ _ _ | engineDrop _ _ _ | linkerNew _ _ _ | moduleNew _ _ _ _ _ _
  | moduleDrop _ _ _ | instantiate _ _ _ _ _ _ _ | call _ _ _ | instanceDrop _ _ _ => cases hskip

/-- The run without the other linkers is possible, and its last state is related to the last
state of the full run. -/
theorem purged_run (hlink : LinksNewestMatch accepts link) {ops : List (Op F)}
    (h : run (World.step link usizeBits) World.init ops = some w) :
    ∃ t, run (World.step link usizeBits) World.init (purge L ops) = some t ∧ Purged L w t :=
  run_filter_sim (Purged L) (keepsFor L) (purged_keep hlink) purged_skip (purged_init L) h

/-! ### Host calls -/

/-- Where the full run is bound to the entry number `j` of `L`, both runs call its closure. -/
theorem Purged.dispatch_eq (h : Purged L w t) {i k j : Nat} {ins : Instance} {b : BoundImport}
    (hi : w.instances.get? i = some ins) (hb : (w.proc.importsOf ins.module)[k]? = some b)
    (hbound : BoundAt w.proc L j b) : w.dispatch i k = t.dispatch i k := by
  obtain ⟨ins', hi', -, hsame⟩ := h.instances.get? i ins hi
  obtain ⟨hk, rfl⟩ := List.getElem?_eq_some_iff.mp hb
  have hk' : k < (t.proc.importsOf ins'.module).length := hsame.length_eq ▸ hk
  have hbinding := (List.forall₂_iff_get.mp hsame).2 k hk hk'
  obtain ⟨n, hn, hattach⟩ := hbound
  obtain ⟨n', hn', hattach'⟩ := hbinding.2 j ⟨n, hn, hattach⟩
  -- The two entries have the same closure.
  obtain ⟨s, hs, -⟩ := live_of_mem_entriesOf (List.mem_of_getElem? hn)
  obtain ⟨hj, rfl⟩ := List.getElem?_eq_some_iff.mp hn
  obtain ⟨hj', rfl⟩ := List.getElem?_eq_some_iff.mp hn'
  obtain ⟨v, hv, hv'⟩ := (List.forall₂_iff_get.mp (h.entries ⟨s, hs⟩)).2 j hj hj'
  have hctx := hv.context
  have hctx' := hv'.context
  simp only [List.get_eq_getElem] at hattach' hctx hctx'
  simp [World.dispatch, Process.dispatchImport, hi, hi', hk, hk', hattach, hattach', hctx, hctx']

/-- The registered symbol that the import gets is one of `L`. -/
def ResolvesTo (link : Linking) (c : Process F) (L : Nat) (imp : Import) : Prop :=
  ∃ n ∈ entriesOf c L, (c.resolve link imp).attachment = some n.context

instance (link : Linking) (c : Process F) (L : Nat) (imp : Import) :
    Decidable (ResolvesTo link c L imp) :=
  inferInstanceAs (Decidable (∃ n ∈ entriesOf c L, _))

/-- The imports of a module that WAMR loads are resolved in the state before the load. -/
theorem newModule_modules (h : Inv c V) (e : Engine) (bytes : List UInt8) (imports : List Import) :
    (Module.new link usizeBits c e bytes (.ok imports)).1.modules
      = c.modules.push (imports.map (c.resolve link)) := by
  have hload : imports.map ((c.alloc (.bytes bytes)).1.resolve link)
      = imports.map (c.resolve link) :=
    List.map_congr_left fun imp _ => h.resolve_alloc _ imp
  rw [← hload]
  unfold Module.new
  simp only
  split <;> rfl

/-- The imports of an instance are those of its module, as they were resolved at load. -/
theorem imports_of_load {m : World F} {e : Nat} {bytes : List UInt8} {imports : List Import}
    {post : List (Op F)} (hm : Inv m.proc (valuesOf m))
    (hrun : run (World.step link usizeBits) m (.moduleNew e bytes (.ok imports) :: post) = some w)
    {i : Nat} {ins : Instance} (hi : w.instances.get? i = some ins)
    (hraw : ins.module.raw = m.proc.modules.next) :
    w.proc.importsOf ins.module = imports.map (m.proc.resolve link) := by
  obtain ⟨m₁, hstep, hpost⟩ := run_cons_eq_some.mp hrun
  have hm₁ := inv_step m _ m₁ hm hstep
  have hw := run_inv (fun w : World F => Inv w.proc (valuesOf w)) inv_step hm₁ hpost
  -- The module is loaded under the next handle, whichever value holds it later.
  have hloaded : m₁.proc.modules.get? m.proc.modules.next
      = some (imports.map (m.proc.resolve link)) := by
    cases step_iff.mp hstep with
    | moduleNew _ _ _ en hsize he => simp only [newModule_modules hm, Arena.get?_push_next]
  obtain ⟨imports', himports'⟩ := hw.instance_loaded hi
  rw [hraw] at himports'
  have hlt := Arena.lt_next_of_get? hloaded
  have hold := (run_follows hm₁ hpost).modules.get?_old _ _ hlt himports'
  rw [Process.importsOf, hraw, himports', Option.getD_some]
  exact Option.some.inj (hold.symm.trans hloaded)

/-- Take a run that loads a module, and an instance of that module that the linker `L` made. The
run without the definitions and the drops of the other linkers is possible. Where the newest
symbol that matched an import at the load was one of `L`, the instance calls the same closure in
both runs, and `L` had defined it under the names of the import. WAMR links an import to the newest
symbol with its module name, its field name and a matching signature. -/
theorem linker_isolation (accepts : Matcher) (link : Linking)
    (hlink : LinksNewestMatch accepts link) (usizeBits L : Nat) (pre post : List (Op F)) (e : Nat)
    (bytes : List UInt8) (imports : List Import) (m w : World F)
    (hpre : run (World.step link usizeBits) World.init pre = some m)
    (hrun : run (World.step link usizeBits) World.init
      (pre ++ .moduleNew e bytes (.ok imports) :: post) = some w) :
    ∃ t, run (World.step link usizeBits) World.init
        (purge L (pre ++ .moduleNew e bytes (.ok imports) :: post)) = some t ∧
      ∀ i ins k imp, w.instances.get? i = some ins → ins.linkerState = L →
        ins.module.raw = m.proc.modules.next → imports[k]? = some imp →
        ResolvesTo link m.proc L imp →
        ∃ ty func, w.dispatch i k = some (.closure func) ∧ t.dispatch i k = some (.closure func) ∧
          .defineFunc L imp.moduleName imp.fieldName ty func true ∈ pre := by
  obtain ⟨t, ht, hpurged⟩ := purged_run (L := L) hlink hrun
  refine ⟨t, ht, ?_⟩
  intro i ins k imp hi hL hraw hk hresolves
  obtain ⟨n, hn, hattach⟩ := hresolves
  have hm := inv_run hpre
  have hw := inv_run hrun
  obtain ⟨m₀, hm₀, hpost⟩ := run_append_eq_some.mp hrun
  obtain rfl := Option.some.inj (hpre.symm.trans hm₀)
  have hfollows := run_follows hm hpost
  have hb : (w.proc.importsOf ins.module)[k]? = some (m.proc.resolve link imp) := by
    rw [imports_of_load hm hpost hi hraw, List.getElem?_map, hk, Option.map_some]
  -- The instance keeps the box of `L`, so the entry is still there.
  obtain ⟨s, hs⟩ := hw.instance_live hi
  rw [hL] at hs
  obtain ⟨new, hentries, -⟩ := hfollows.entries L s hs
  obtain ⟨j, hj⟩ := List.mem_iff_getElem?.mp hn
  have hnw : (entriesOf w.proc L)[j]? = some n := by
    have hlt := (List.getElem?_eq_some_iff.mp hj).1
    rw [entriesOf_eq hs, hentries, List.getElem?_append_left hlt, hj]
  -- It is the one that the import matched, and `L` defined it.
  obtain ⟨v, hv, hdefined⟩ := shows_run pre hpre hn
  obtain ⟨ptr, n', v', hn', hctx, hv', hpick⟩ := hm.resolve_shows hattach
  obtain ⟨hmodule, hname⟩ := named_of_pick hlink hpick
  obtain rfl := hm.entry_unique hn' hn hctx
  obtain rfl := hv.unique hv'
  have hcell := (hv.keep hfollows.heap (hw.entry_ok (List.mem_of_getElem? hnw))).context
  have hdispatch : w.dispatch i k = some (.closure v.func) := by
    simp [World.dispatch, Process.dispatchImport, hi, hb, hattach, hcell]
  simp only [EntryView.symbol] at hmodule hname
  refine ⟨v.ty, v.func, hdispatch, ?_, by rwa [hmodule, hname] at hdefined⟩
  rw [← hpurged.dispatch_eq hi hb ⟨n', hnw, hattach⟩, hdispatch]

/-- Two linkers define the same name. The closures are numbered like their linkers. -/
def definesTwice (first second : Nat) : List (Op Nat) :=
  [.engineNew true, .linkerNew 0, .linkerNew 0,
    .defineFunc first [0x6d] [0x66] ⟨[], []⟩ first true,
    .defineFunc second [0x6d] [0x66] ⟨[], []⟩ second true]

/-- The import that both linkers define. -/
def sharedImport : Import := ⟨[0x6d], [0x66], ⟨[], []⟩⟩

/-- A module with the import is loaded after both definitions. -/
def sharedNameRun (first second : Nat) (post : List (Op Nat)) : List (Op Nat) :=
  definesTwice first second ++ .moduleNew 0 [] (.ok [sharedImport]) :: post

/-- The other linker goes away before the linker 0 makes the instance. -/
def otherDropped : List (Op Nat) := [.linkerDrop 1, .instantiate 0 0 .ok, .call 0]

/-- Here the linker 0 defined the name last. -/
theorem linker_isolation_definedLast :
    ∃ w t, run (World.step matchLink 64) World.init (sharedNameRun 1 0 otherDropped) = some w ∧
      run (World.step matchLink 64) World.init (purge 0 (sharedNameRun 1 0 otherDropped)) = some t ∧
      ∃ ty func, w.dispatch 0 0 = some (.closure func) ∧ t.dispatch 0 0 = some (.closure func) ∧
        .defineFunc 0 [0x6d] [0x66] ty func true ∈ definesTwice 1 0 := by
  obtain ⟨m, hm⟩ := Option.isSome_iff_exists.mp
    (show (run (World.step matchLink 64) World.init (definesTwice 1 0)).isSome by decide)
  obtain ⟨w, hw⟩ := Option.isSome_iff_exists.mp
    (show (run (World.step matchLink 64) World.init (sharedNameRun 1 0 otherDropped)).isSome by
      decide)
  have hnext : (run (World.step matchLink 64) World.init (definesTwice 1 0)).map
      (·.proc.modules.next) = some 0 := by decide
  have hresolves : ((run (World.step matchLink 64) World.init (definesTwice 1 0)).map fun m =>
      decide (ResolvesTo matchLink m.proc 0 sharedImport)) = some true := by decide
  have hins : (run (World.step matchLink 64) World.init (sharedNameRun 1 0 otherDropped)).bind
      (·.instances.get? 0) = some ⟨0, 0, ⟨0, 12, none, ⟨0⟩⟩, 0⟩ := by decide
  rw [hm, Option.map_some, Option.some.injEq] at hnext hresolves
  rw [hw] at hins
  obtain ⟨t, ht, hcalls⟩ := linker_isolation acceptsSignature matchLink
    (newestMatch_match _) 64 0 (definesTwice 1 0) otherDropped 0 [] [sharedImport] m w hm hw
  refine ⟨w, t, hw, ht, hcalls 0 _ 0 sharedImport hins rfl hnext.symm rfl ?_⟩
  exact of_decide_eq_true hresolves

/-- The linker 0 defines the name before the module is loaded, and makes the instance. The other
linker defined it later, so the instance runs the closure of the other linker. Without the
definition of the other linker it runs its own. -/
theorem linker_not_isolated :
    ∃ w t, run (World.step matchLink 64) World.init
        (sharedNameRun 0 1 [.instantiate 0 0 .ok, .call 0]) = some w ∧
      run (World.step matchLink 64) World.init
        (purge 0 (sharedNameRun 0 1 [.instantiate 0 0 .ok, .call 0])) = some t ∧
      w.dispatch 0 0 = some (.closure 1) ∧ t.dispatch 0 0 = some (.closure 0) := by
  let ops := sharedNameRun 0 1 [.instantiate 0 0 .ok, .call 0]
  obtain ⟨w, hw⟩ := Option.isSome_iff_exists.mp
    (show (run (World.step matchLink 64) World.init ops).isSome by decide)
  obtain ⟨t, ht⟩ := Option.isSome_iff_exists.mp
    (show (run (World.step matchLink 64) World.init (purge 0 ops)).isSome by decide)
  have hfull : (run (World.step matchLink 64) World.init ops).bind (·.dispatch 0 0)
      = some (.closure 1) := by decide
  have hpurged : (run (World.step matchLink 64) World.init (purge 0 ops)).bind (·.dispatch 0 0)
      = some (.closure 0) := by decide
  rw [hw] at hfull
  rw [ht] at hpurged
  exact ⟨w, t, hw, ht, hfull, hpurged⟩

end Wamrx.Proofs
