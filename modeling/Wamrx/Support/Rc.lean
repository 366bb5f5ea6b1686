import Wamrx.Support.Arena

/-!
# `Support.Rc`: reference-counted boxes

A table of boxes, each with a strong count, and the operations `new`, `clone`, `drop` of a
reference-counted pointer. A pointer is the key of its box. `drop` hands the contents back
when the last pointer goes, because it is then that the contents are dropped.

`Counted t refs` says that the counts are right for the multiset `refs` of the pointers that
exist: each box has as many strong references as `refs` has copies of its key, and no box is
kept at zero. The four operations keep it (`counted_new`, `counted_clone`, `drop_cases`,
`counted_update`). A box is live exactly while somebody holds a pointer to it
(`Counted.live_iff`).

`contents` is the multiset of the values in the live boxes. Counting up and down leaves it
alone, and the last `drop` takes one value out of it.
-/

set_option autoImplicit false

namespace Support

/-- The heap block of a reference-counted value. -/
structure RcBox (α : Type) where
  strong : Nat
  val : α
deriving DecidableEq, Repr

namespace Rc

variable {α : Type}

/-- The boxes, by pointer. -/
abbrev Table (α : Type) := Arena (RcBox α)

/-- `Rc::new`: the pointer is the frontier of the old table. -/
def new (t : Table α) (v : α) : Table α := t.push ⟨1, v⟩

/-- `Rc::clone`. -/
def clone (t : Table α) (i : Nat) : Table α :=
  match t.get? i with
  | some b => t.set i { b with strong := b.strong + 1 }
  | none => t

/-- Dropping one pointer. The last one takes the contents out of the table. -/
def drop (t : Table α) (i : Nat) : Table α × Option α :=
  match t.get? i with
  | some b =>
    if b.strong = 1 then (t.erase i, some b.val)
    else (t.set i { b with strong := b.strong - 1 }, none)
  | none => (t, none)

/-- Overwrites the contents of a box through a shared pointer (a `RefCell`). -/
def update (t : Table α) (i : Nat) (f : α → α) : Table α :=
  match t.get? i with
  | some b => t.set i { b with val := f b.val }
  | none => t

/-- What a pointer reads. -/
def deref? (t : Table α) (i : Nat) : Option α := (t.get? i).map RcBox.val

/-- The strong count of a pointer, zero once the box is gone. -/
def strongCount (t : Table α) (i : Nat) : Nat := ((t.get? i).map RcBox.strong).getD 0

/-- The values in the live boxes. -/
def contents (t : Table α) : Multiset α := t.values.map RcBox.val

/-- The counts agree with the multiset of the pointers that exist. -/
structure Counted (t : Table α) (refs : Multiset Nat) : Prop where
  count : ∀ i, strongCount t i = refs.count i
  pos : ∀ i b, t.get? i = some b → 0 < b.strong

/-! ### Reading -/

theorem deref?_eq_some {t : Table α} {i : Nat} {v : α} :
    deref? t i = some v ↔ ∃ n, t.get? i = some ⟨n, v⟩ := by
  unfold deref?
  cases t.get? i with
  | none => simp
  | some b => cases b; simp

theorem mem_contents {t : Table α} {v : α} : v ∈ contents t ↔ ∃ i, deref? t i = some v := by
  simp only [contents, Multiset.mem_map, Arena.mem_values, deref?, Option.map_eq_some_iff]
  constructor
  · rintro ⟨b, ⟨i, hi⟩, rfl⟩
    exact ⟨i, b, hi, rfl⟩
  · rintro ⟨i, b, hi, rfl⟩
    exact ⟨b, ⟨i, hi⟩, rfl⟩

/-- With right counts, a box is live exactly when a pointer to it exists. -/
theorem Counted.live_iff {t : Table α} {refs : Multiset Nat} (h : Counted t refs) (i : Nat) :
    (∃ b, t.get? i = some b) ↔ i ∈ refs := by
  have hc := h.count i
  unfold strongCount at hc
  constructor
  · rintro ⟨b, hb⟩
    have hpos := h.pos i b hb
    rw [hb] at hc
    exact Multiset.count_pos.mp (by simpa [← hc] using hpos)
  · intro hi
    have hpos := Multiset.count_pos.mpr hi
    cases hb : t.get? i with
    | none => rw [hb] at hc; simp at hc; omega
    | some b => exact ⟨b, rfl⟩

/-- A box that somebody points at has contents. -/
theorem Counted.deref?_of_mem {t : Table α} {refs : Multiset Nat} (h : Counted t refs)
    {i : Nat} (hi : i ∈ refs) : ∃ v, deref? t i = some v := by
  obtain ⟨b, hb⟩ := (h.live_iff i).mpr hi
  exact ⟨b.val, by simp [deref?, hb]⟩

/-- No pointer to the frontier exists. -/
theorem Counted.next_notMem {t : Table α} {refs : Multiset Nat} (h : Counted t refs) :
    t.next ∉ refs := by
  intro hmem
  obtain ⟨b, hb⟩ := (h.live_iff t.next).mpr hmem
  rw [Arena.get?_of_next_le (Nat.le_refl _)] at hb
  cases hb

/-! ### The operations keep the counts -/

theorem counted_empty : Counted (Arena.empty : Table α) 0 :=
  ⟨fun _ => by simp [strongCount], fun _ _ h => by simp at h⟩

/-- A new box has one pointer. -/
theorem counted_new {t : Table α} {refs : Multiset Nat} (h : Counted t refs) (v : α) :
    Counted (new t v) (t.next ::ₘ refs) := by
  -- The frontier was never handed out, so nobody points at it yet.
  have hzero : refs.count t.next = 0 := Multiset.count_eq_zero.mpr h.next_notMem
  constructor
  · intro i
    have hc := h.count i
    unfold strongCount at hc ⊢
    rw [new, Arena.get?_push]
    by_cases hi : i = t.next
    · subst hi
      simp [hzero]
    · rw [if_neg hi, hc, Multiset.count_cons_of_ne hi]
  · intro i b hb
    rw [new, Arena.get?_push] at hb
    split at hb
    · cases hb
      exact Nat.one_pos
    · exact h.pos i b hb

/-- Replacing a live box: its own count changes, every other count stays. -/
theorem strongCount_set {t : Table α} {i : Nat} {b : RcBox α} (hb : t.get? i = some b)
    (b' : RcBox α) (j : Nat) :
    strongCount (t.set i b') j = if j = i then b'.strong else strongCount t j := by
  unfold strongCount
  rw [Arena.get?_set hb]
  split <;> rfl

/-- Replacing a live box keeps the other boxes counted. -/
private theorem counted_set {t : Table α} {refs refs' : Multiset Nat} (h : Counted t refs)
    {i : Nat} {b b' : RcBox α} (hb : t.get? i = some b) (hpos : 0 < b'.strong)
    (hself : refs'.count i = b'.strong) (hother : ∀ j, j ≠ i → refs'.count j = refs.count j) :
    Counted (t.set i b') refs' := by
  constructor
  · intro j
    rw [strongCount_set hb]
    by_cases hj : j = i
    · subst hj
      rw [if_pos rfl, hself]
    · rw [if_neg hj, hother j hj, h.count j]
  · intro j c hc
    rw [Arena.get?_set hb] at hc
    split at hc
    · cases hc
      exact hpos
    · exact h.pos j c hc

/-- Cloning adds one pointer. -/
theorem counted_clone {t : Table α} {refs : Multiset Nat} (h : Counted t refs) {i : Nat}
    (hi : i ∈ refs) : Counted (clone t i) (i ::ₘ refs) := by
  obtain ⟨b, hb⟩ := (h.live_iff i).mpr hi
  have hc : b.strong = refs.count i := by
    have := h.count i
    simpa [strongCount, hb] using this
  have hclone : clone t i = t.set i { b with strong := b.strong + 1 } := by
    simp [clone, hb]
  rw [hclone]
  refine counted_set h hb (Nat.succ_pos _) ?_ fun j hj => Multiset.count_cons_of_ne hj _
  rw [Multiset.count_cons_self, hc]

/-- Writing through a pointer does not touch the counts. -/
theorem counted_update {t : Table α} {refs : Multiset Nat} (h : Counted t refs) (i : Nat)
    (f : α → α) : Counted (update t i f) refs := by
  unfold update
  cases hb : t.get? i with
  | none => exact h
  | some b =>
    -- The strong count is written back as it was.
    refine counted_set h hb (h.pos i b hb) ?_ fun _ _ => rfl
    have := h.count i
    simpa [strongCount, hb] using this.symm

/-- Dropping a pointer. Either another pointer remains, and the count goes down by one. Or it
was the last pointer, and the contents come out of the table. -/
theorem drop_cases {t : Table α} {refs : Multiset Nat} {i : Nat}
    (h : Counted t (i ::ₘ refs)) :
    ∃ b, t.get? i = some b ∧
      ((i ∈ refs ∧ drop t i = (t.set i { b with strong := b.strong - 1 }, none) ∧
          Counted (drop t i).1 refs) ∨
        (i ∉ refs ∧ drop t i = (t.erase i, some b.val) ∧ Counted (drop t i).1 refs)) := by
  obtain ⟨b, hb⟩ := (h.live_iff i).mpr (Multiset.mem_cons_self i refs)
  have hc : b.strong = refs.count i + 1 := by
    have := h.count i
    simpa [strongCount, hb] using this
  refine ⟨b, hb, ?_⟩
  -- The count of the box tells whether another pointer remains.
  by_cases hi : i ∈ refs
  · have hpos : 0 < refs.count i := Multiset.count_pos.mpr hi
    have hdrop : drop t i = (t.set i { b with strong := b.strong - 1 }, none) := by
      simp only [drop, hb]
      rw [if_neg (by omega)]
    refine Or.inl ⟨hi, hdrop, ?_⟩
    rw [hdrop]
    refine counted_set h hb (by simp only; omega) (by simp only; omega) ?_
    intro j hj
    rw [Multiset.count_cons_of_ne hj]
  · have hzero : refs.count i = 0 := Multiset.count_eq_zero.mpr hi
    have hdrop : drop t i = (t.erase i, some b.val) := by
      simp only [drop, hb]
      rw [if_pos (by omega)]
    refine Or.inr ⟨hi, hdrop, ?_⟩
    rw [hdrop]
    constructor
    · intro j
      have hcj := h.count j
      unfold strongCount at hcj ⊢
      rw [Arena.get?_erase]
      by_cases hj : j = i
      · subst hj
        simp [hzero]
      · rw [if_neg hj, hcj, Multiset.count_cons_of_ne hj]
    · intro j c hj
      rw [Arena.get?_erase] at hj
      split at hj
      · cases hj
      · exact h.pos j c hj

/-! ### The operations and the contents -/

@[simp] theorem contents_new (t : Table α) (v : α) : contents (new t v) = v ::ₘ contents t := by
  simp [contents, new]

/-- Taking a live box out of the table takes its value out of the contents. -/
theorem contents_erase {t : Table α} {i : Nat} {b : RcBox α} (hb : t.get? i = some b) :
    contents t = b.val ::ₘ contents (t.erase i) := by
  rw [contents, Arena.values_erase hb, Multiset.map_cons]
  rfl

theorem contents_set {t : Table α} {i : Nat} {b : RcBox α} (hb : t.get? i = some b)
    (b' : RcBox α) : contents (t.set i b') = b'.val ::ₘ contents (t.erase i) := by
  rw [contents, Arena.values_set hb, Multiset.map_cons]
  rfl

/-- A change of the count alone keeps the contents. -/
theorem contents_set_strong {t : Table α} {i : Nat} {b : RcBox α} (hb : t.get? i = some b)
    (n : Nat) : contents (t.set i { b with strong := n }) = contents t := by
  rw [contents_set hb, contents_erase hb]

@[simp] theorem contents_clone (t : Table α) (i : Nat) : contents (clone t i) = contents t := by
  unfold clone
  cases hb : t.get? i with
  | none => rfl
  | some b => exact contents_set_strong hb _

/-- Writing through a live pointer replaces one value. -/
theorem contents_update {t : Table α} {i : Nat} {b : RcBox α} (hb : t.get? i = some b)
    (f : α → α) : contents (update t i f) = f b.val ::ₘ contents (t.erase i) := by
  simp only [update, hb]
  exact contents_set hb _

theorem deref?_update (t : Table α) (i j : Nat) (f : α → α) :
    deref? (update t i f) j = if j = i then (deref? t j).map f else deref? t j := by
  unfold deref? update
  cases hb : t.get? i with
  | none =>
    by_cases hj : j = i
    · subst hj; simp [hb]
    · simp [hj]
  | some b =>
    simp only [Arena.get?_set hb]
    by_cases hj : j = i
    · subst hj; simp [hb]
    · simp [hj]

@[simp] theorem deref?_clone (t : Table α) (i j : Nat) :
    deref? (clone t i) j = deref? t j := by
  unfold deref? clone
  cases hb : t.get? i with
  | none => rfl
  | some b =>
    simp only [Arena.get?_set hb]
    by_cases hj : j = i
    · subst hj; simp [hb]
    · simp [hj]

theorem deref?_new (t : Table α) (v : α) (j : Nat) :
    deref? (new t v) j = if j = t.next then some v else deref? t j := by
  unfold deref? new
  rw [Arena.get?_push]
  split <;> rfl

/-- What a pointer reads after a drop, it read before. -/
theorem deref?_of_drop {t : Table α} {i j : Nat} {v : α} (h : deref? (drop t i).1 j = some v) :
    deref? t j = some v := by
  unfold drop at h
  cases hb : t.get? i with
  | none => simpa [hb] using h
  | some b =>
    simp only [hb] at h
    unfold deref? at h ⊢
    by_cases hj : j = i
    · subst hj
      split at h
      · simp at h
      · simpa [Arena.get?_set hb, hb] using h
    · split at h
      · rwa [Arena.get?_erase_of_ne hj] at h
      · rwa [Arena.get?_set hb, if_neg hj] at h

/-- A box that a drop takes away: its contents come out. -/
theorem drop_gone {t : Table α} {i j : Nat} {v : α} (h : deref? t j = some v)
    (hgone : deref? (drop t i).1 j = none) : j = i ∧ (drop t i).2 = some v := by
  obtain ⟨n, hj⟩ := deref?_eq_some.mp h
  unfold drop at hgone ⊢
  cases hb : t.get? i with
  | none => simp [hb, deref?, hj] at hgone
  | some b =>
    simp only [hb] at hgone ⊢
    by_cases hji : j = i
    · subst hji
      obtain rfl := Option.some.inj (hj.symm.trans hb)
      split at hgone
      · rename_i hone
        exact ⟨rfl, by rw [if_pos hone]⟩
      · simp [deref?, Arena.get?_set hb] at hgone
    -- Another box keeps what it has.
    · split at hgone
      · simp [deref?, Arena.get?_erase_of_ne hji, hj] at hgone
      · simp [deref?, Arena.get?_set hb, hji, hj] at hgone

@[simp] theorem next_clone (t : Table α) (i : Nat) : (clone t i).next = t.next := by
  unfold clone
  cases t.get? i <;> simp

@[simp] theorem next_update (t : Table α) (i : Nat) (f : α → α) :
    (update t i f).next = t.next := by
  unfold update
  cases t.get? i <;> simp

@[simp] theorem next_drop (t : Table α) (i : Nat) : (drop t i).1.next = t.next := by
  unfold drop
  cases t.get? i with
  | none => rfl
  | some b => simp only; split <;> simp

end Rc

end Support
