import Mathlib.Data.Multiset.MapFold
import Mathlib.Data.Multiset.Count

/-!
# `Support.Arena`: tables whose keys are never reused

An `Arena α` hands out keys `0, 1, 2, …` and never the same key twice. Erasing a key leaves
a hole, so a key names one allocation for the whole life of the table: a stale key reads
`none` and never another value. That is what a model of handles and heap blocks needs.

* `get?` reads a key, `push` allocates the next key, `skip` burns one, `erase` and `set`
  change a live key. Each update has one `get?` lemma.
* `Later a b` says that `b` comes from `a` by handing out and erasing keys alone. So a key
  that `a` handed out reads the same in both tables, as long as it is live.
* `Sim P a b` relates two tables key by key, where `b` may have more live keys than `a`.
  `Rel P a b` relates two tables with the same live keys.
* `any` tests the live values.
* `entries` is the multiset of the live pairs, `values` its projection to the values.
  `entries_erase` and `entries_set` take one live pair out of the multiset. The counting
  arguments of the users go through these two.
-/

set_option autoImplicit false

namespace Support

/-- A table with keys `0 .. next - 1`. A hole is a key that was burnt or erased. -/
structure Arena (α : Type) where
  slots : List (Option α)
deriving DecidableEq, Repr

namespace Arena

variable {α : Type}

/-- The table with no key. -/
def empty : Arena α := ⟨[]⟩

/-- The key the next `push` hands out. Every key below it was handed out before. -/
def next (a : Arena α) : Nat := a.slots.length

/-- The value at a live key. -/
def get? (a : Arena α) (i : Nat) : Option α := a.slots[i]?.join

/-- Allocates the key `a.next`. -/
def push (a : Arena α) (x : α) : Arena α := ⟨a.slots ++ [some x]⟩

/-- Burns the key `a.next`: it names nothing, now and later. -/
def skip (a : Arena α) : Arena α := ⟨a.slots ++ [none]⟩

/-- Removes the value at a key. -/
def erase (a : Arena α) (i : Nat) : Arena α := ⟨a.slots.set i none⟩

/-- Overwrites the value at a key. -/
def set (a : Arena α) (i : Nat) (x : α) : Arena α := ⟨a.slots.set i (some x)⟩

/-! ### Lookups and frontiers -/

/-- Nothing is stored in an empty arena. -/
@[simp] theorem get?_empty (i : Nat) : (empty : Arena α).get? i = none := rfl

/-- A push uses up one key. -/
@[simp] theorem next_push (a : Arena α) (x : α) : (a.push x).next = a.next + 1 := by
  simp [next, push]

/-- So does a skip. -/
@[simp] theorem next_skip (a : Arena α) : a.skip.next = a.next + 1 := by
  simp [next, skip]

/-- An erasure uses up no key. -/
@[simp] theorem next_erase (a : Arena α) (i : Nat) : (a.erase i).next = a.next := by
  simp [next, erase]

/-- Nor does an update. -/
@[simp] theorem next_set (a : Arena α) (i : Nat) (x : α) : (a.set i x).next = a.next := by
  simp [next, set]

/-- Keys at or past the frontier name nothing. -/
theorem get?_of_next_le {a : Arena α} {i : Nat} (h : a.next ≤ i) : a.get? i = none := by
  simp [get?, List.getElem?_eq_none (show a.slots.length ≤ i from h)]

/-- A live key lies below the frontier. -/
theorem lt_next_of_get? {a : Arena α} {i : Nat} {x : α} (h : a.get? i = some x) :
    i < a.next := by
  by_contra hle
  rw [get?_of_next_le (by omega)] at h
  cases h

/-- A push stores its value under the next key. -/
theorem get?_push (a : Arena α) (x : α) (i : Nat) :
    (a.push x).get? i = if i = a.next then some x else a.get? i := by
  unfold get? push
  -- Below the frontier, at it, and past it.
  rcases Nat.lt_trichotomy i a.slots.length with hlt | heq | hgt
  · rw [List.getElem?_append_left hlt, if_neg (by simp [next]; omega)]
  · subst heq
    simp [next]
  · rw [if_neg (by simp [next]; omega), List.getElem?_eq_none (by simp; omega),
      List.getElem?_eq_none (by omega)]

/-- The value that was just pushed. -/
@[simp] theorem get?_push_next (a : Arena α) (x : α) : (a.push x).get? a.next = some x := by
  simp [get?_push]

/-- Allocating keeps every live key. -/
theorem get?_push_of_some {a : Arena α} {i : Nat} {y : α} (x : α) (h : a.get? i = some y) :
    (a.push x).get? i = some y := by
  rw [get?_push, if_neg (Nat.ne_of_lt (lt_next_of_get? h)), h]

/-- A skip stores nothing. -/
@[simp] theorem get?_skip (a : Arena α) (i : Nat) : a.skip.get? i = a.get? i := by
  unfold get? skip
  rcases Nat.lt_or_ge i a.slots.length with hlt | hge
  · rw [List.getElem?_append_left hlt]
  · rw [List.getElem?_append_right hge, List.getElem?_eq_none hge]
    cases i - a.slots.length <;> simp

/-- An erasure takes away one value. -/
theorem get?_erase (a : Arena α) (i j : Nat) :
    (a.erase i).get? j = if j = i then none else a.get? j := by
  unfold get? erase
  by_cases h : j = i
  · subst h
    rw [List.getElem?_set_self']
    cases a.slots[j]? <;> simp
  · rw [List.getElem?_set_ne (Ne.symm h), if_neg h]

/-- The erased key holds nothing. -/
@[simp] theorem get?_erase_self (a : Arena α) (i : Nat) : (a.erase i).get? i = none := by
  simp [get?_erase]

/-- The other keys keep their values. -/
theorem get?_erase_of_ne {a : Arena α} {i j : Nat} (h : j ≠ i) :
    (a.erase i).get? j = a.get? j := by
  simp [get?_erase, h]

/-- An update changes one value. -/
theorem get?_set {a : Arena α} {i : Nat} {y : α} (h : a.get? i = some y) (x : α) (j : Nat) :
    (a.set i x).get? j = if j = i then some x else a.get? j := by
  have hlt : i < a.slots.length := lt_next_of_get? h
  unfold get? set
  by_cases hj : j = i
  · subst hj
    simp [List.getElem?_set_self hlt]
  · rw [List.getElem?_set_ne (Ne.symm hj), if_neg hj]

/-! ### Later tables -/

/-- `b` comes from `a` without overwriting a key: what an old key still reads, it read before. -/
structure Later (a b : Arena α) : Prop where
  next_le : a.next ≤ b.next
  get?_old : ∀ i x, i < a.next → b.get? i = some x → a.get? i = some x

/-- An arena is later than itself. -/
theorem Later.refl (a : Arena α) : a.Later a := ⟨Nat.le_refl _, fun _ _ _ h => h⟩

/-- Later than later. -/
theorem Later.trans {a b c : Arena α} (hab : a.Later b) (hbc : b.Later c) : a.Later c :=
  ⟨Nat.le_trans hab.next_le hbc.next_le, fun i x hi h =>
    hab.get?_old i x hi (hbc.get?_old i x (Nat.lt_of_lt_of_le hi hab.next_le) h)⟩

/-- A push stores nothing under an old key. -/
theorem later_push (a : Arena α) (x : α) : a.Later (a.push x) := by
  refine ⟨by simp, ?_⟩
  intro i y hi h
  rwa [get?_push, if_neg (Nat.ne_of_lt hi)] at h

/-- A skip stores nothing at all. -/
theorem later_skip (a : Arena α) : a.Later a.skip := by
  refine ⟨by simp, ?_⟩
  intro j y _ h
  rwa [get?_skip] at h

/-- An erasure stores nothing. -/
theorem later_erase (a : Arena α) (i : Nat) : a.Later (a.erase i) := by
  refine ⟨by simp, ?_⟩
  intro j y _ h
  rw [get?_erase] at h
  split at h
  · cases h
  · exact h

/-! ### Related tables -/

/-- The tables have handed out the same keys, and a key that is live on the left is live on the
right, with a related value. -/
structure Sim {β : Type} (P : α → β → Prop) (a : Arena α) (b : Arena β) : Prop where
  next_eq : b.next = a.next
  get? : ∀ i x, a.get? i = some x → ∃ y, b.get? i = some y ∧ P x y

section

variable {β : Type} {P Q : α → β → Prop} {a : Arena α} {b : Arena β}

/-- Empty arenas, whatever the relation. -/
theorem sim_empty (P : α → β → Prop) : Sim P (empty : Arena α) (empty : Arena β) :=
  ⟨rfl, fun i x h => by simp at h⟩

/-- A weaker relation, where both values are live. -/
theorem Sim.mono (h : Sim P a b)
    (hPQ : ∀ i x y, a.get? i = some x → b.get? i = some y → P x y → Q x y) : Sim Q a b := by
  refine ⟨h.next_eq, ?_⟩
  intro i x hx
  obtain ⟨y, hy, hP⟩ := h.get? i x hx
  exact ⟨y, hy, hPQ i x y hx hy hP⟩

/-- Related values, pushed on both sides. -/
theorem Sim.push (h : Sim P a b) {x : α} {y : β} (hP : P x y) : Sim P (a.push x) (b.push y) := by
  refine ⟨by simp [h.next_eq], ?_⟩
  intro i z hz
  rw [get?_push, h.next_eq]
  rw [get?_push] at hz
  split at hz
  · rename_i hi
    rw [if_pos hi]
    exact ⟨y, rfl, Option.some.inj hz ▸ hP⟩
  · rename_i hi
    rw [if_neg hi]
    exact h.get? i z hz

/-- A key that the left side burns may be live on the right. -/
theorem Sim.skip_left (h : Sim P a b) {b' : Arena β} (hnext : b'.next = b.next + 1)
    (hget : ∀ i, i < b.next → b'.get? i = b.get? i) : Sim P a.skip b' := by
  refine ⟨by rw [hnext, next_skip, h.next_eq], ?_⟩
  intro i x hx
  rw [get?_skip] at hx
  rw [hget i (by rw [h.next_eq]; exact lt_next_of_get? hx)]
  exact h.get? i x hx

/-- The same key, erased on both sides. -/
theorem Sim.erase (h : Sim P a b) (i : Nat) : Sim P (a.erase i) (b.erase i) := by
  refine ⟨by simp [h.next_eq], ?_⟩
  intro j x hx
  rw [get?_erase] at hx ⊢
  split at hx
  · cases hx
  · rename_i hj
    rw [if_neg hj]
    exact h.get? j x hx

/-- The left side may have fewer live keys. -/
theorem Sim.erase_left (h : Sim P a b) (i : Nat) : Sim P (a.erase i) b := by
  refine ⟨by simp [h.next_eq], ?_⟩
  intro j x hx
  rw [get?_erase] at hx
  split at hx
  · cases hx
  · exact h.get? j x hx

end

/-! ### Tables with the same live keys -/

/-- The tables have handed out the same keys. The same keys are live, and their values are
related. -/
structure Rel {β : Type} (P : α → β → Prop) (a : Arena α) (b : Arena β) : Prop where
  next_eq : b.next = a.next
  get? : ∀ i, Option.Rel P (a.get? i) (b.get? i)

section

variable {β : Type} {P Q : α → β → Prop} {a : Arena α} {b : Arena β}

/-- Empty arenas, whatever the relation. -/
theorem rel_empty (P : α → β → Prop) : Rel P (empty : Arena α) (empty : Arena β) :=
  ⟨rfl, fun _ => .none⟩

/-- A live key on the left. -/
theorem Rel.of_left (h : Rel P a b) {i : Nat} {x : α} (hx : a.get? i = some x) :
    ∃ y, b.get? i = some y ∧ P x y := by
  have hi := h.get? i
  rw [hx] at hi
  cases hb : b.get? i with
  | none => rw [hb] at hi; cases hi
  | some y =>
    rw [hb] at hi
    cases hi with
    | some hP => exact ⟨y, rfl, hP⟩

/-- A live key on the right. -/
theorem Rel.of_right (h : Rel P a b) {i : Nat} {y : β} (hy : b.get? i = some y) :
    ∃ x, a.get? i = some x ∧ P x y := by
  have hi := h.get? i
  rw [hy] at hi
  cases ha : a.get? i with
  | none => rw [ha] at hi; cases hi
  | some x =>
    rw [ha] at hi
    cases hi with
    | some hP => exact ⟨x, rfl, hP⟩

/-- A dead key. -/
theorem Rel.none_iff (h : Rel P a b) (i : Nat) : a.get? i = none ↔ b.get? i = none := by
  constructor
  · intro ha
    cases hb : b.get? i with
    | none => rfl
    | some y =>
      obtain ⟨x, hx, -⟩ := h.of_right hb
      rw [ha] at hx
      cases hx
  · intro hb
    cases ha : a.get? i with
    | none => rfl
    | some x =>
      obtain ⟨y, hy, -⟩ := h.of_left ha
      rw [hb] at hy
      cases hy

/-- A weaker relation, where both values are live. -/
theorem Rel.mono (h : Rel P a b)
    (hPQ : ∀ i x y, a.get? i = some x → b.get? i = some y → P x y → Q x y) : Rel Q a b := by
  refine ⟨h.next_eq, fun i => ?_⟩
  cases ha : a.get? i with
  | none => rw [(h.none_iff i).mp ha]; exact .none
  | some x =>
    obtain ⟨y, hy, hP⟩ := h.of_left ha
    rw [hy]
    exact .some (hPQ i x y ha hy hP)

/-- Related values, pushed on both sides. -/
theorem Rel.push (h : Rel P a b) {x : α} {y : β} (hP : P x y) : Rel P (a.push x) (b.push y) := by
  refine ⟨by simp [h.next_eq], fun i => ?_⟩
  rw [get?_push, get?_push, h.next_eq]
  split
  · exact .some hP
  · exact h.get? i

/-- A skip on both sides. -/
theorem Rel.skip (h : Rel P a b) : Rel P a.skip b.skip := by
  refine ⟨by simp [h.next_eq], fun i => ?_⟩
  rw [get?_skip, get?_skip]
  exact h.get? i

/-- The same key, erased on both sides. -/
theorem Rel.erase (h : Rel P a b) (i : Nat) : Rel P (a.erase i) (b.erase i) := by
  refine ⟨by simp [h.next_eq], fun j => ?_⟩
  rw [get?_erase, get?_erase]
  split
  · exact .none
  · exact h.get? j

end

/-! ### Testing the live values -/

/-- Some live value passes the test. -/
def any (a : Arena α) (p : α → Bool) : Bool := a.slots.any fun o => o.any p

/-- Some stored value meets the test. -/
theorem any_iff {a : Arena α} {p : α → Bool} :
    a.any p = true ↔ ∃ i x, a.get? i = some x ∧ p x = true := by
  unfold any get?
  rw [List.any_eq_true]
  constructor
  · rintro ⟨o, ho, hp⟩
    obtain ⟨i, hi⟩ := List.mem_iff_getElem?.mp ho
    cases o with
    | none => simp at hp
    | some x => exact ⟨i, x, by rw [hi]; rfl, by simpa using hp⟩
  · rintro ⟨i, x, hx, hp⟩
    exact ⟨some x, List.mem_of_getElem? (Option.join_eq_some_iff.mp hx), by simpa using hp⟩

/-! ### Taking a value -/

/-- Erases a live key. -/
def take (a : Arena α) (i : Nat) : Option (Arena α) := (a.get? i).map fun _ => a.erase i

/-- Two keys can be taken in either order. The same key can not be taken twice. -/
theorem take_comm (a : Arena α) (i j : Nat) :
    (a.take i).bind (·.take j) = (a.take j).bind (·.take i) := by
  by_cases h : i = j
  · rw [h]
  · have herase : (a.erase i).erase j = (a.erase j).erase i := by
      simp [erase, List.set_comm none none h]
    unfold take
    cases hi : a.get? i <;> cases hj : a.get? j <;>
      simp [get?_erase_of_ne h, get?_erase_of_ne (Ne.symm h), hi, hj, herase]

/-- Two keys can be taken in either order from a table that is part of something else. -/
theorem take_map_comm {β : Type} (a : Arena α) (i j : Nat) (put : Arena α → β) :
    ((a.take i).bind fun b => (b.take j).map put)
      = (a.take j).bind fun b => (b.take i).map put := by
  simpa only [Option.map_bind, Function.comp_def] using congrArg (Option.map put) (a.take_comm i j)

/-! ### The live entries as a multiset -/

/-- The live entries of a list of slots whose first slot has the key `k`. -/
private def slotEntries (k : Nat) (slots : List (Option α)) : List (Nat × α) :=
  (slots.zipIdx k).filterMap fun p => p.1.map (Prod.mk p.2)

/-- The live pairs of key and value. -/
def entries (a : Arena α) : Multiset (Nat × α) := slotEntries 0 a.slots

/-- The live values, with multiplicity. -/
def values (a : Arena α) : Multiset α := a.entries.map Prod.snd

private theorem slotEntries_append (k : Nat) (l r : List (Option α)) :
    slotEntries k (l ++ r) = slotEntries k l ++ slotEntries (k + l.length) r := by
  simp [slotEntries, List.zipIdx_append]

/-- The slots around a live key. -/
private theorem slots_split {a : Arena α} {i : Nat} {x : α} (h : a.get? i = some x) :
    a.slots = a.slots.take i ++ some x :: a.slots.drop (i + 1) ∧
      (a.slots.take i).length = i := by
  have hlt : i < a.slots.length := lt_next_of_get? h
  have hx : a.slots[i] = some x := by
    simpa [get?, List.getElem?_eq_getElem hlt] using h
  refine ⟨?_, by simp; omega⟩
  rw [← hx, ← List.drop_eq_getElem_cons hlt, List.take_append_drop]

/-- The entries of a table whose slot `i` is overwritten, split around the slot. -/
private theorem entries_slot {a : Arena α} {i : Nat} {x : α} (h : a.get? i = some x)
    (o : Option α) :
    entries ⟨a.slots.set i o⟩ = ↑(slotEntries 0 (a.slots.take i) ++
      (o.map (Prod.mk i)).toList ++ slotEntries (i + 1) (a.slots.drop (i + 1))) := by
  obtain ⟨hsplit, hlen⟩ := slots_split h
  have hset : a.slots.set i o = a.slots.take i ++ o :: a.slots.drop (i + 1) := by
    conv_lhs => rw [hsplit, List.set_append_right _ _ (by omega)]
    simp [hlen]
  unfold entries
  simp only [hset, slotEntries_append, hlen, Nat.zero_add]
  cases o <;> simp [slotEntries]

/-- A push adds one entry. -/
theorem entries_push (a : Arena α) (x : α) :
    (a.push x).entries = (a.next, x) ::ₘ a.entries := by
  unfold entries push
  rw [slotEntries_append, ← Multiset.coe_add, Multiset.add_comm]
  simp [slotEntries, next]

/-- A skip adds none. -/
@[simp] theorem entries_skip (a : Arena α) : a.skip.entries = a.entries := by
  unfold entries skip
  rw [slotEntries_append]
  simp [slotEntries]

/-- Erasing a live key takes its pair out of the live entries. -/
theorem entries_erase {a : Arena α} {i : Nat} {x : α} (h : a.get? i = some x) :
    a.entries = (i, x) ::ₘ (a.erase i).entries := by
  -- Overwritten with its own value, the table splits around the slot like the erased one.
  have hself : a = ⟨a.slots.set i (some x)⟩ := by
    obtain ⟨hsplit, hlen⟩ := slots_split h
    have hset : a.slots.set i (some x) = a.slots := by
      conv_lhs => rw [hsplit, List.set_append_right _ _ (by omega)]
      rw [hlen, Nat.sub_self, List.set_cons_zero, ← hsplit]
    rw [hset]
  conv_lhs => rw [hself, entries_slot h]
  rw [erase, entries_slot h]
  simp only [Option.map_some, Option.toList_some, Option.map_none, Option.toList_none,
    List.append_nil, List.append_assoc]
  exact (Multiset.coe_eq_coe.mpr List.perm_middle).trans (Multiset.cons_coe _ _).symm

/-- Overwriting a live key replaces its pair in the live entries. -/
theorem entries_set {a : Arena α} {i : Nat} {y : α} (h : a.get? i = some y) (x : α) :
    (a.set i x).entries = (i, x) ::ₘ (a.erase i).entries := by
  rw [set, erase, entries_slot h, entries_slot h]
  simp only [Option.map_some, Option.toList_some, Option.map_none, Option.toList_none,
    List.append_nil, List.append_assoc]
  exact (Multiset.coe_eq_coe.mpr List.perm_middle).trans (Multiset.cons_coe _ _).symm

/-- The live entries are exactly the successful lookups. -/
theorem mem_entries {a : Arena α} {i : Nat} {x : α} :
    (i, x) ∈ a.entries ↔ a.get? i = some x := by
  -- The first key is general, because the tail of the slots starts one key later.
  have key : ∀ (k : Nat) (slots : List (Option α)) (i : Nat),
      (k + i, x) ∈ slotEntries k slots ↔ slots[i]?.join = some x := by
    intro k slots
    induction slots generalizing k with
    | nil => intro i; simp [slotEntries]
    | cons o slots ih =>
      intro i
      have htail := ih (k + 1)
      cases i with
      | zero =>
        -- The keys of the tail are all larger than `k`.
        have hno : (k, x) ∉ slotEntries (k + 1) slots := by
          simp only [slotEntries, List.mem_filterMap, not_exists, not_and, Prod.forall]
          intro o' j hj hval
          have hle := List.le_snd_of_mem_zipIdx hj
          cases o' with
          | none => cases hval
          | some z => simp at hval; omega
        cases o with
        | none => simpa [slotEntries] using hno
        | some z => simp [slotEntries] at hno ⊢; grind
      | succ i =>
        have hi := htail i
        rw [show k + 1 + i = k + (i + 1) by omega] at hi
        cases o with
        | none => simpa [slotEntries] using hi
        | some z => simpa [slotEntries] using hi
  simpa [entries, get?] using key 0 a.slots i

/-- The live values are the values of the successful lookups. -/
theorem mem_values {a : Arena α} {x : α} : x ∈ a.values ↔ ∃ i, a.get? i = some x := by
  simp [values, mem_entries]

/-- What the stored values are mapped to. -/
theorem mem_map_values {β : Type} {a : Arena α} {f : α → β} {y : β} :
    y ∈ a.values.map f ↔ ∃ i x, a.get? i = some x ∧ f x = y := by
  simp only [Multiset.mem_map, mem_values]
  constructor
  · rintro ⟨x, ⟨i, hi⟩, hx⟩
    exact ⟨i, x, hi, hx⟩
  · rintro ⟨i, x, hi, hx⟩
    exact ⟨x, ⟨i, hi⟩, hx⟩

/-- A push adds one value. -/
@[simp] theorem values_push (a : Arena α) (x : α) : (a.push x).values = x ::ₘ a.values := by
  simp [values, entries_push]

/-- A skip adds none. -/
@[simp] theorem values_skip (a : Arena α) : a.skip.values = a.values := by
  simp [values]

/-- An erased value is taken out of the values. -/
theorem values_erase {a : Arena α} {i : Nat} {x : α} (h : a.get? i = some x) :
    a.values = x ::ₘ (a.erase i).values := by
  rw [values, entries_erase h, Multiset.map_cons]
  rfl

/-- An update replaces one of the values. -/
theorem values_set {a : Arena α} {i : Nat} {y : α} (h : a.get? i = some y) (x : α) :
    (a.set i x).values = x ::ₘ (a.erase i).values := by
  rw [values, entries_set h, Multiset.map_cons]
  rfl

end Arena

end Support
