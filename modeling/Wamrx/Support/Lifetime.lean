import Wamrx.Support.Run
import Mathlib.Data.Multiset.MapFold
import Mathlib.Data.Multiset.Filter
import Mathlib.Data.Multiset.UnionInter
import Mathlib.Data.List.Induction

/-!
# `Support.Lifetime`: a protocol for resources that rely on each other

A trace is a list of acquisitions and releases. An acquisition names the resources the new one
relies on. `State.step` is the protocol: a resource is acquired once, while everything it
relies on is live, and it is released while it is live and nothing live relies on it.

What a trace that follows the protocol satisfies:

* `count_release_le_one`, `release_mem_iff`: a resource is released at most once, and it has
  been released exactly when it was acquired and is no longer live;
* `release_precedes`: a resource is released before anything it relies on;
* `live_at_release`: at a release, everything the resource relies on is still live.

`Tracks tr live below` is the form a program proof carries along: the trace follows the
protocol, `live` is the multiset of what is live, and every resource ever acquired satisfies
`below`. `tracks_acquire` and `tracks_release` are its two rules. `isOpen` reads off a trace what
is live after it, also when the trace breaks the protocol. `Local.not_dep` discharges
"nothing live relies on it" when the live resources come in groups that rely on themselves
and on some root resources only.
-/

set_option autoImplicit false

namespace Support.Lifetime

variable {R : Type} [DecidableEq R]

/-- A live resource and the resources it relies on. -/
structure Item (R : Type) where
  res : R
  deps : List R
deriving DecidableEq

/-- One event of a trace. -/
inductive Act (R : Type) where
  | acquire (r : R) (deps : List R)
  | release (r : R)
deriving DecidableEq

/-- The live resources, and every resource acquired so far. -/
structure State (R : Type) where
  live : List (Item R)
  used : List R

/-- Nothing was acquired yet. -/
def State.init : State R := ⟨[], []⟩

/-- One event, or `none` when it breaks the protocol. -/
def State.step (s : State R) : Act R → Option (State R)
  | .acquire r deps =>
    if r ∉ s.used ∧ ∀ d ∈ deps, d ∈ s.live.map Item.res then
      some ⟨⟨r, deps⟩ :: s.live, r :: s.used⟩
    else none
  | .release r =>
    if r ∈ s.live.map Item.res ∧ ∀ i ∈ s.live, r ∉ i.deps then
      some ⟨s.live.filter (·.res ≠ r), s.used⟩
    else none

/-- The state after a trace, `none` when the trace breaks the protocol. -/
def replay (tr : List (Act R)) : Option (State R) := run State.step State.init tr

theorem replay_snoc {tr : List (Act R)} {a : Act R} {s' : State R} :
    replay (tr ++ [a]) = some s' ↔ ∃ s, replay tr = some s ∧ s.step a = some s' := by
  unfold replay
  rw [run_append_eq_some]
  simp [run]

theorem step_acquire {s s' : State R} {r : R} {deps : List R} :
    s.step (.acquire r deps) = some s' ↔
      r ∉ s.used ∧ (∀ d ∈ deps, d ∈ s.live.map Item.res) ∧
        s' = ⟨⟨r, deps⟩ :: s.live, r :: s.used⟩ := by
  simp only [State.step]
  split
  · rename_i h
    exact ⟨fun hs => ⟨h.1, h.2, (Option.some.inj hs).symm⟩, fun hs => by rw [hs.2.2]⟩
  · rename_i h
    simp only [reduceCtorEq, false_iff]
    exact fun hc => h ⟨hc.1, hc.2.1⟩

theorem step_release {s s' : State R} {r : R} :
    s.step (.release r) = some s' ↔
      r ∈ s.live.map Item.res ∧ (∀ i ∈ s.live, r ∉ i.deps) ∧
        s' = ⟨s.live.filter (·.res ≠ r), s.used⟩ := by
  simp only [State.step]
  split
  · rename_i h
    exact ⟨fun hs => ⟨h.1, h.2, (Option.some.inj hs).symm⟩, fun hs => by rw [hs.2.2]⟩
  · rename_i h
    simp only [reduceCtorEq, false_iff]
    exact fun hc => h ⟨hc.1, hc.2.1⟩

/-! ### What a trace that follows the protocol satisfies -/

/-- The books of a trace: how its last state is read off the events. -/
structure Books (tr : List (Act R)) (s : State R) : Prop where
  /-- No resource is live twice. -/
  nodup : (s.live.map Item.res).Nodup
  /-- What a live resource relies on is live. -/
  closed : ∀ i ∈ s.live, ∀ d ∈ i.deps, d ∈ s.live.map Item.res
  /-- The acquired resources are those with an acquisition in the trace. -/
  used_iff : ∀ r, r ∈ s.used ↔ ∃ deps, Act.acquire r deps ∈ tr
  /-- The live resources are those acquired and not released. -/
  live_iff : ∀ i, i ∈ s.live ↔ Act.acquire i.res i.deps ∈ tr ∧ Act.release i.res ∉ tr
  /-- A release follows an acquisition. -/
  released : ∀ r, Act.release r ∈ tr → r ∈ s.used
  /-- No resource is released twice. -/
  once : ∀ r, tr.count (Act.release r) ≤ 1

omit [DecidableEq R] in
private theorem mem_live_res {s : State R} {r : R} :
    r ∈ s.live.map Item.res ↔ ∃ deps, (⟨r, deps⟩ : Item R) ∈ s.live := by
  rw [List.mem_map]
  constructor
  · rintro ⟨⟨_, deps⟩, hi, rfl⟩
    exact ⟨deps, hi⟩
  · rintro ⟨deps, hi⟩
    exact ⟨_, hi, rfl⟩

/-- A live resource was acquired. -/
private theorem Books.live_used {tr : List (Act R)} {s : State R} (h : Books tr s) {r : R}
    (hr : r ∈ s.live.map Item.res) : r ∈ s.used := by
  obtain ⟨deps, hi⟩ := mem_live_res.mp hr
  exact (h.used_iff r).mpr ⟨deps, ((h.live_iff _).mp hi).1⟩

/-- An acquisition keeps the books. -/
private theorem Books.acquire {tr : List (Act R)} {s s' : State R} {r : R} {deps : List R}
    (h : Books tr s) (hs : s.step (.acquire r deps) = some s') :
    Books (tr ++ [.acquire r deps]) s' := by
  obtain ⟨hfresh, hdeps, rfl⟩ := step_acquire.mp hs
  -- A fresh resource is in no event of the trace and not live.
  have hnr : Act.release r ∉ tr := fun hrel => hfresh (h.released r hrel)
  have hnl : r ∉ s.live.map Item.res := fun hl => hfresh (h.live_used hl)
  have hna : ∀ deps', Act.acquire r deps' ∉ tr :=
    fun deps' ha => hfresh ((h.used_iff r).mpr ⟨deps', ha⟩)
  constructor
  · exact List.nodup_cons.mpr ⟨hnl, h.nodup⟩
  · intro i hi d hd
    rw [List.map_cons, List.mem_cons]
    rcases List.mem_cons.mp hi with rfl | hi
    · exact Or.inr (hdeps d hd)
    · exact Or.inr (h.closed i hi d hd)
  · intro x
    rw [List.mem_cons, h.used_iff x]
    constructor
    · rintro (rfl | ⟨deps', ha⟩)
      · exact ⟨deps, by simp⟩
      · exact ⟨deps', by simp [ha]⟩
    · rintro ⟨deps', ha⟩
      rcases List.mem_append.mp ha with ha | ha
      · exact Or.inr ⟨deps', ha⟩
      · simp only [List.mem_singleton, Act.acquire.injEq] at ha
        exact Or.inl ha.1
  · intro i
    obtain ⟨x, xd⟩ := i
    simp only [List.mem_cons, List.mem_append, Act.acquire.injEq, Item.mk.injEq,
      List.not_mem_nil, or_false, reduceCtorEq, h.live_iff]
    constructor
    · rintro (⟨rfl, rfl⟩ | ⟨ha, hn⟩)
      · exact ⟨Or.inr ⟨rfl, rfl⟩, hnr⟩
      · exact ⟨Or.inl ha, hn⟩
    · rintro ⟨ha | ⟨rfl, rfl⟩, hn⟩
      · exact Or.inr ⟨ha, hn⟩
      · exact Or.inl ⟨rfl, rfl⟩
  · intro x hx
    rcases List.mem_append.mp hx with hx | hx
    · exact List.mem_cons_of_mem _ (h.released x hx)
    · simp at hx
  · intro x
    rw [List.count_append]
    simpa using h.once x

/-- A release keeps the books. -/
private theorem Books.release {tr : List (Act R)} {s s' : State R} {r : R}
    (h : Books tr s) (hs : s.step (.release r) = some s') : Books (tr ++ [.release r]) s' := by
  obtain ⟨hlive, hfree, rfl⟩ := step_release.mp hs
  obtain ⟨rdeps, hitem⟩ := mem_live_res.mp hlive
  -- The resource is live, so this is its first release.
  have hnr : Act.release r ∉ tr := ((h.live_iff _).mp hitem).2
  constructor
  · exact h.nodup.sublist ((List.filter_sublist).map _)
  · intro i hi d hd
    have hlive : i ∈ s.live := (List.mem_filter.mp hi).1
    obtain ⟨ddeps, hditem⟩ := mem_live_res.mp (h.closed i hlive d hd)
    refine mem_live_res.mpr ⟨ddeps, List.mem_filter.mpr ⟨hditem, ?_⟩⟩
    simp only [ne_eq, decide_eq_true_eq]
    exact fun heq => hfree i hlive (heq ▸ hd)
  · intro x
    rw [h.used_iff x]
    simp
  · intro i
    simp only [List.mem_filter, h.live_iff, List.mem_append, List.mem_singleton, reduceCtorEq,
      or_false, Act.release.injEq, ne_eq, decide_eq_true_eq, not_or, and_assoc]
  · intro x hx
    rcases List.mem_append.mp hx with hx | hx
    · exact h.released x hx
    · simp only [List.mem_singleton, Act.release.injEq] at hx
      rw [hx]
      exact h.live_used hlive
  · intro x
    rw [List.count_append]
    by_cases hx : x = r
    · subst hx
      simp [List.count_eq_zero.mpr hnr]
    · have : List.count (Act.release x) [Act.release r] = 0 := by
        simp [Ne.symm hx]
      rw [this]
      exact h.once x

/-- The books of every trace that follows the protocol are right. -/
theorem books {tr : List (Act R)} {s : State R} (h : replay tr = some s) : Books tr s := by
  induction tr using List.reverseRecOn generalizing s with
  | nil =>
    cases h
    -- Induction on the trace from its end: the last event is the last step.
    constructor <;> simp [State.init]
  | append_singleton tr a ih =>
    obtain ⟨m, hm, hs⟩ := replay_snoc.mp h
    cases a with
    | acquire r deps => exact (ih hm).acquire hs
    | release r => exact (ih hm).release hs

/-- A resource is released at most once. -/
theorem count_release_le_one {tr : List (Act R)} {s : State R} (h : replay tr = some s)
    (r : R) : tr.count (.release r) ≤ 1 :=
  (books h).once r

/-- Two acquisitions of one resource are the same event. -/
theorem acquire_deps_unique {tr : List (Act R)} {s : State R} (h : replay tr = some s) {r : R}
    {deps deps' : List R} (ha : Act.acquire r deps ∈ tr) (ha' : Act.acquire r deps' ∈ tr) :
    deps = deps' := by
  induction tr using List.reverseRecOn generalizing s with
  | nil => simp at ha
  | append_singleton tr a ih =>
    obtain ⟨m, hm, hs⟩ := replay_snoc.mp h
    rw [List.mem_append, List.mem_singleton] at ha ha'
    -- The last event does not acquire a resource that the trace acquired before.
    have hnew : ∀ {ds ds' : List R}, Act.acquire r ds ∈ tr → Act.acquire r ds' = a → False := by
      rintro ds ds' hmem rfl
      exact (step_acquire.mp hs).1 (((books hm).used_iff r).mpr ⟨ds, hmem⟩)
    rcases ha with ha | rfl
    · rcases ha' with ha' | ha'
      · exact ih hm ha ha'
      · exact (hnew ha ha').elim
    · rcases ha' with ha' | ha'
      · exact (hnew ha' rfl).elim
      · simpa using ha'.symm

/-- An acquired resource has been released exactly when it is no longer live. -/
theorem release_mem_iff {tr : List (Act R)} {s : State R} (h : replay tr = some s) {r : R}
    {deps : List R} (ha : Act.acquire r deps ∈ tr) :
    Act.release r ∈ tr ↔ r ∉ s.live.map Item.res := by
  have hb := books h
  constructor
  · intro hr hl
    obtain ⟨deps', hi⟩ := mem_live_res.mp hl
    exact ((hb.live_iff _).mp hi).2 hr
  · intro hl
    by_contra hr
    exact hl (mem_live_res.mpr ⟨deps, (hb.live_iff ⟨r, deps⟩).mpr ⟨ha, hr⟩⟩)

/-- At an acquisition, everything the resource relies on is live. -/
theorem live_at_acquire {pre post : List (Act R)} {s : State R} {r : R} {deps : List R}
    (h : replay (pre ++ .acquire r deps :: post) = some s) {d : R} (hd : d ∈ deps) :
    (∃ ddeps, Act.acquire d ddeps ∈ pre) ∧ Act.release d ∉ pre := by
  obtain ⟨m, hm, hrest⟩ := run_append_eq_some.mp h
  obtain ⟨m', hm', -⟩ := run_cons_eq_some.mp hrest
  obtain ⟨-, hdeps, -⟩ := step_acquire.mp hm'
  obtain ⟨ddeps, hditem⟩ := mem_live_res.mp (hdeps d hd)
  have hitem := ((books (show replay pre = some m from hm)).live_iff _).mp hditem
  exact ⟨⟨ddeps, hitem.1⟩, hitem.2⟩

/-- At a release, everything the resource relies on is live. -/
theorem live_at_release {pre post : List (Act R)} {s : State R} {r : R} {deps : List R}
    (h : replay (pre ++ .release r :: post) = some s)
    (ha : Act.acquire r deps ∈ pre ++ .release r :: post) {d : R} (hd : d ∈ deps) :
    (∃ ddeps, Act.acquire d ddeps ∈ pre) ∧ Act.release d ∉ pre := by
  obtain ⟨m, hm, hrest⟩ := run_append_eq_some.mp h
  obtain ⟨m', hm', -⟩ := run_cons_eq_some.mp hrest
  have hb := books (show replay pre = some m from hm)
  obtain ⟨hlive, -, -⟩ := step_release.mp hm'
  obtain ⟨deps', hitem⟩ := mem_live_res.mp hlive
  have hpre : Act.acquire r deps' ∈ pre := ((hb.live_iff _).mp hitem).1
  -- The acquisition that is asked about is the one before the release.
  have hdeps : deps = deps' := acquire_deps_unique h ha (List.mem_append_left _ hpre)
  subst hdeps
  obtain ⟨ddeps, hditem⟩ := mem_live_res.mp (hb.closed _ hitem d hd)
  exact ⟨⟨ddeps, ((hb.live_iff _).mp hditem).1⟩, ((hb.live_iff _).mp hditem).2⟩

/-- A resource is released before anything it relies on. -/
theorem release_precedes {pre post : List (Act R)} {s : State R} {r d : R} {deps : List R}
    (h : replay (pre ++ .release d :: post) = some s)
    (ha : Act.acquire r deps ∈ pre ++ .release d :: post) (hd : d ∈ deps) :
    Act.release r ∈ pre := by
  obtain ⟨m, hm, hrest⟩ := run_append_eq_some.mp h
  obtain ⟨m', hm', -⟩ := run_cons_eq_some.mp hrest
  have hb := books (show replay pre = some m from hm)
  obtain ⟨-, hfree, -⟩ := step_release.mp hm'
  -- The acquisition of `r` cannot come after the release of `d`: `d` must be live there.
  have hpre : Act.acquire r deps ∈ pre := by
    rcases List.mem_append.mp ha with hpre | hpost
    · exact hpre
    rcases List.mem_cons.mp hpost with heq | hpost
    · cases heq
    obtain ⟨p, q, rfl⟩ := List.append_of_mem hpost
    have hsplit : pre ++ .release d :: (p ++ .acquire r deps :: q)
        = (pre ++ .release d :: p) ++ .acquire r deps :: q := by simp
    rw [hsplit] at h
    exact absurd (by simp) (live_at_acquire h hd).2
  by_contra hr
  exact hfree ⟨r, deps⟩ ((hb.live_iff ⟨r, deps⟩).mpr ⟨hpre, hr⟩) hd

/-! ### The rules for program proofs -/

/-- The trace follows the protocol, `live` is what is live after it, and every resource ever
acquired is `below`. -/
structure Tracks (tr : List (Act R)) (live : Multiset (Item R)) (below : R → Prop) : Prop where
  replays : ∃ s, replay tr = some s ∧ (s.live : Multiset (Item R)) = live ∧
    ∀ r ∈ s.used, below r

theorem tracks_nil (below : R → Prop) : Tracks [] 0 below :=
  ⟨⟨State.init, rfl, rfl, by simp [State.init]⟩⟩

/-- A live resource was acquired, with what it relies on, and it was not released. -/
theorem Tracks.of_mem {tr : List (Act R)} {live : Multiset (Item R)} {below : R → Prop}
    (h : Tracks tr live below) {i : Item R} (hi : i ∈ live) :
    Act.acquire i.res i.deps ∈ tr ∧ Act.release i.res ∉ tr := by
  obtain ⟨s, hs, rfl, -⟩ := h.replays
  exact ((books hs).live_iff i).mp hi

/-- An acquired resource has been released exactly when it is no longer live. -/
theorem Tracks.release_mem_iff {tr : List (Act R)} {live : Multiset (Item R)} {below : R → Prop}
    (h : Tracks tr live below) {r : R} {deps : List R} (ha : Act.acquire r deps ∈ tr) :
    Act.release r ∈ tr ↔ r ∉ live.map Item.res := by
  obtain ⟨s, hs, rfl, -⟩ := h.replays
  exact Lifetime.release_mem_iff hs ha

/-- No resource is live twice. -/
theorem Tracks.nodup {tr : List (Act R)} {live : Multiset (Item R)} {below : R → Prop}
    (h : Tracks tr live below) : (live.map Item.res).Nodup := by
  obtain ⟨s, hs, rfl, -⟩ := h.replays
  exact (books hs).nodup

/-- A live resource is below the frontier. -/
theorem Tracks.below_of_mem {tr : List (Act R)} {live : Multiset (Item R)} {below : R → Prop}
    (h : Tracks tr live below) {r : R} (hr : r ∈ live.map Item.res) : below r := by
  obtain ⟨s, hs, rfl, hbelow⟩ := h.replays
  exact hbelow r ((books hs).live_used (by simpa using hr))

/-- The frontier may move up. -/
theorem Tracks.mono {tr : List (Act R)} {live : Multiset (Item R)} {below below' : R → Prop}
    (h : Tracks tr live below) (hle : ∀ r, below r → below' r) : Tracks tr live below' := by
  obtain ⟨s, hs, hl, hbelow⟩ := h.replays
  exact ⟨⟨s, hs, hl, fun r hr => hle r (hbelow r hr)⟩⟩

/-- Acquiring a resource beyond the frontier. -/
theorem tracks_acquire {tr : List (Act R)} {live : Multiset (Item R)} {below below' : R → Prop}
    (h : Tracks tr live below) {r : R} {deps : List R} (hfresh : ¬ below r)
    (hdeps : ∀ d ∈ deps, d ∈ live.map Item.res) (hle : ∀ x, below x → below' x)
    (hr : below' r) : Tracks (tr ++ [.acquire r deps]) (⟨r, deps⟩ ::ₘ live) below' := by
  obtain ⟨s, hs, rfl, hbelow⟩ := h.replays
  have hstep : s.step (.acquire r deps) = some ⟨⟨r, deps⟩ :: s.live, r :: s.used⟩ := by
    refine step_acquire.mpr ⟨fun hu => hfresh (hbelow r hu), fun d hd => ?_, rfl⟩
    simpa using hdeps d hd
  refine ⟨⟨_, replay_snoc.mpr ⟨s, hs, hstep⟩, rfl, ?_⟩⟩
  intro x hx
  rcases List.mem_cons.mp hx with rfl | hx
  · exact hr
  · exact hle x (hbelow x hx)

/-- Releasing a live resource that nothing live relies on. -/
theorem tracks_release {tr : List (Act R)} {live : Multiset (Item R)} {below : R → Prop}
    {r : R} {deps : List R} (h : Tracks tr (⟨r, deps⟩ ::ₘ live) below) (hself : r ∉ deps)
    (hfree : ∀ i ∈ live, r ∉ i.deps) : Tracks (tr ++ [.release r]) live below := by
  have hnd := h.nodup
  obtain ⟨s, hs, hl, hbelow⟩ := h.replays
  have hmem : ∀ i, i ∈ s.live ↔ i = ⟨r, deps⟩ ∨ i ∈ live := by
    intro i
    rw [← Multiset.mem_coe, hl, Multiset.mem_cons]
  have hstep : s.step (.release r) = some ⟨s.live.filter (·.res ≠ r), s.used⟩ := by
    refine step_release.mpr ⟨mem_live_res.mpr ⟨deps, (hmem _).mpr (Or.inl rfl)⟩, ?_, rfl⟩
    intro i hi
    rcases (hmem i).mp hi with rfl | hi
    · exact hself
    · exact hfree i hi
  refine ⟨⟨_, replay_snoc.mpr ⟨s, hs, hstep⟩, ?_, hbelow⟩⟩
  rw [Multiset.map_cons, Multiset.nodup_cons] at hnd
  -- No other live item is about `r`, so the filter takes exactly one item away.
  rw [← Multiset.filter_coe, hl, Multiset.filter_cons_of_neg _ (by simp)]
  refine Multiset.filter_eq_self.mpr ?_
  intro i hi heq
  have hres : i.res ∈ live.map Item.res := Multiset.mem_map_of_mem _ hi
  rw [heq] at hres
  exact hnd.1 hres

/-! ### Live resources, read off the trace -/

/-- What an event makes of the information that `r` is live. -/
def openAfter (r : R) (live : Bool) : Act R → Bool
  | .acquire r' _ => decide (r = r') || live
  | .release r' => !decide (r = r') && live

/-- The last event about `r` acquired it. -/
def isOpen (tr : List (Act R)) (r : R) : Bool := tr.foldl (openAfter r) false

@[simp] theorem isOpen_append (tr tr' : List (Act R)) (r : R) :
    isOpen (tr ++ tr') r = tr'.foldl (openAfter r) (isOpen tr r) := List.foldl_append

/-- A resource is live exactly when the last event about it acquired it. -/
theorem isOpen_iff {tr : List (Act R)} {s : State R} (h : replay tr = some s) (r : R) :
    isOpen tr r = true ↔ r ∈ s.live.map Item.res := by
  induction tr using List.reverseRecOn generalizing s with
  | nil =>
    cases h
    simp [isOpen, State.init]
  | append_singleton tr a ih =>
    obtain ⟨m, hm, hs⟩ := replay_snoc.mp h
    rw [isOpen_append, List.foldl_cons, List.foldl_nil]
    cases a with
    | acquire r' deps =>
      obtain ⟨-, -, rfl⟩ := step_acquire.mp hs
      simp only [openAfter, Bool.or_eq_true, decide_eq_true_eq, ih hm, List.map_cons, List.mem_cons]
    | release r' =>
      obtain ⟨-, -, rfl⟩ := step_release.mp hs
      simp only [openAfter, Bool.and_eq_true, Bool.not_eq_true', decide_eq_false_iff_not, ih hm,
        List.mem_map, List.mem_filter, decide_eq_true_eq]
      constructor
      · rintro ⟨hne, i, hi, rfl⟩
        exact ⟨i, ⟨hi, hne⟩, rfl⟩
      · rintro ⟨i, ⟨hi, hne⟩, rfl⟩
        exact ⟨hne, i, hi, rfl⟩

theorem Tracks.isOpen_iff {tr : List (Act R)} {live : Multiset (Item R)} {below : R → Prop}
    (h : Tracks tr live below) (r : R) : isOpen tr r = true ↔ r ∈ live.map Item.res := by
  obtain ⟨s, hs, rfl, -⟩ := h.replays
  simpa using Lifetime.isOpen_iff hs r

/-! ### Groups that rely on themselves and on roots -/

/-- Every live resource relies on root resources and on live resources of the same
collection. -/
def Local (root : R → Prop) (live : Multiset (Item R)) : Prop :=
  ∀ i ∈ live, ∀ d ∈ i.deps, root d ∨ d ∈ live.map Item.res

omit [DecidableEq R] in
theorem local_zero (root : R → Prop) : Local root (0 : Multiset (Item R)) := by
  simp [Local]

omit [DecidableEq R] in
theorem Local.add {root : R → Prop} {a b : Multiset (Item R)} (ha : Local root a)
    (hb : Local root b) : Local root (a + b) := by
  intro i hi d hd
  rw [Multiset.map_add, Multiset.mem_add]
  rcases Multiset.mem_add.mp hi with hi | hi
  · exact (ha i hi d hd).imp_right Or.inl
  · exact (hb i hi d hd).imp_right Or.inr

omit [DecidableEq R] in
/-- Nothing in a local collection relies on a resource outside it that is not a root. -/
theorem Local.not_dep {root : R → Prop} {group rest : Multiset (Item R)}
    (h : Local root rest) (hnd : ((group + rest).map Item.res).Nodup) {r : R}
    (hr : r ∈ group.map Item.res) (hroot : ¬ root r) : ∀ i ∈ rest, r ∉ i.deps := by
  intro i hi hdep
  rw [Multiset.map_add, Multiset.nodup_add] at hnd
  rcases h i hi r hdep with h' | h'
  · exact hroot h'
  · exact Multiset.disjoint_left.mp hnd.2.2 hr h'

/-- Releasing a resource of a group, when nothing else in the group relies on it. The rest of the
live resources is local, so nothing there relies on it either. -/
theorem tracks_release_local {tr : List (Act R)} (group : Multiset (Item R))
    {rest : Multiset (Item R)} {below root : R → Prop} {r : R} {deps : List R}
    (h : Tracks tr ({⟨r, deps⟩} + (group + rest)) below) (hrest : Local root rest)
    (hroot : ¬ root r) (hself : r ∉ deps) (hgroup : ∀ i ∈ group, r ∉ i.deps) :
    Tracks (tr ++ [.release r]) (group + rest) below := by
  rw [Multiset.singleton_add] at h
  refine tracks_release h hself ?_
  intro i hi
  rcases Multiset.mem_add.mp hi with hi | hi
  · exact hgroup i hi
  · have hnd := h.nodup
    rw [← Multiset.singleton_add, ← Multiset.add_assoc] at hnd
    exact hrest.not_dep hnd (by simp) hroot i hi

/-- Acquiring resources that rely on nothing, one after the other. -/
theorem tracks_acquire_all {tr : List (Act R)} {live : Multiset (Item R)} {below : R → Prop}
    (rs : List R) (h : Tracks tr live below) (hnd : rs.Nodup) (hfresh : ∀ r ∈ rs, ¬ below r) :
    Tracks (tr ++ rs.map fun r => .acquire r [])
      (((rs.map fun r => ⟨r, []⟩ : List (Item R)) : Multiset (Item R)) + live)
      fun r => below r ∨ r ∈ rs := by
  induction rs generalizing tr live below with
  | nil => simpa using h
  | cons r rs ih =>
    obtain ⟨hr, hnd⟩ := List.nodup_cons.mp hnd
    have h₁ : Tracks (tr ++ [.acquire r []]) (⟨r, []⟩ ::ₘ live) fun x => below x ∨ x = r :=
      tracks_acquire h (hfresh r (by simp)) (by simp) (fun _ hx => Or.inl hx) (Or.inr rfl)
    -- The rest is still fresh after the first one.
    have hrs : ∀ x ∈ rs, ¬ (below x ∨ x = r) := by
      rintro x hx (hb | rfl)
      · exact hfresh x (List.mem_cons_of_mem _ hx) hb
      · exact hr hx
    have h₂ := (ih h₁ hnd hrs).mono fun x hx =>
      show below x ∨ x ∈ r :: rs by rw [List.mem_cons, ← or_assoc]; exact hx
    simp only [List.map_cons, ← Multiset.cons_coe, Multiset.cons_add]
    rw [← Multiset.add_cons]
    simpa using h₂

end Support.Lifetime
