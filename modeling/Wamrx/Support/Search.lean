import Mathlib.Data.List.Forall2
import Mathlib.Data.List.Nodup

/-!
# `Support.Search`: searches in lists that are parts or images of each other

For lists that are searched from the front and change at any place.

* `findSome?_of_sublist`: when a search in a list stops at an element of a sublist, the search
  in the sublist stops there too.
* `findSome?_of_forall₂`: searches in two related lists stop at related elements.
* `sublist_of_subset`: two sublists of one list are in the same order, so that inclusion is
  enough.
* `eq_filter_of_sublist`: a sublist is the list filtered by its members.
-/

set_option autoImplicit false

namespace Support

variable {α β : Type}

/-- A search that stops at an element of the sublist. -/
theorem findSome?_of_sublist {f : α → Option β} {l r : List α} {a : α} {b : β} (h : l.Sublist r)
    (hnd : r.Nodup) (hr : r.findSome? f = some b) (ha : a ∈ l)
    (hinj : ∀ x ∈ r, f x = some b → x = a) : l.findSome? f = some b := by
  -- Induction on how `l` sits in `r`: the head of `r` is left out, or it is the head of `l`.
  induction h with
  | slnil => cases ha
  | @cons l r x h ih =>
    obtain ⟨hx, hnd⟩ := List.nodup_cons.mp hnd
    have hxa : x ≠ a := fun heq => hx (h.subset (heq ▸ ha))
    cases hfx : f x with
    | none =>
      rw [List.findSome?_cons, hfx] at hr
      exact ih hnd hr ha fun y hy => hinj y (List.mem_cons_of_mem _ hy)
    | some b' =>
      -- The search in the list would stop at `x`, which is not in the sublist.
      rw [List.findSome?_cons, hfx] at hr
      exact absurd (hinj x (List.mem_cons_self ..) (hfx.trans hr)) hxa
  | @cons_cons l r x h ih =>
    rw [List.findSome?_cons] at hr ⊢
    cases hfx : f x with
    | none =>
      rw [hfx] at hr
      have hax : a ≠ x := by
        -- The search passed over `x`, so the element it looks for comes later.
        rintro rfl
        obtain ⟨y, hy, hfy⟩ := List.exists_of_findSome?_eq_some hr
        have hya := hinj y (List.mem_cons_of_mem _ hy) hfy
        rw [hya, hfx] at hfy
        cases hfy
      exact ih (List.nodup_cons.mp hnd).2 hr ((List.mem_cons.mp ha).resolve_left hax)
        fun y hy => hinj y (List.mem_cons_of_mem _ hy)
    | some b' => rwa [hfx] at hr

/-- Related elements of two lists are at the same place. -/
theorem forall₂_getElem? {R : α → β → Prop} {l : List α} {r : List β} (h : List.Forall₂ R l r) :
    List.Forall₂ (fun a b => (∃ j : Nat, l[j]? = some a ∧ r[j]? = some b) ∧ R a b) l r := by
  induction h with
  | nil => exact .nil
  | @cons a b l r hab _ ih =>
    refine .cons ⟨⟨0, rfl, rfl⟩, hab⟩ (ih.imp ?_)
    rintro x y ⟨⟨j, hx, hy⟩, hxy⟩
    exact ⟨⟨j + 1, hx, hy⟩, hxy⟩

/-- Searches that agree on related elements stop at related elements. -/
theorem findSome?_of_forall₂ {γ δ : Type} {R : α → β → Prop} {f : α → Option γ}
    {g : β → Option δ} (hfg : ∀ a b, R a b → (f a).isSome = (g b).isSome) {l : List α} {r : List β}
    (h : List.Forall₂ R l r) {x : γ} (hx : l.findSome? f = some x) :
    ∃ a b y, R a b ∧ f a = some x ∧ g b = some y ∧ r.findSome? g = some y := by
  induction h with
  | nil => cases hx
  | @cons a b l r hab _ ih =>
    have hsome := hfg a b hab
    rw [List.findSome?_cons] at hx ⊢
    cases hfa : f a with
    | none =>
      rw [hfa] at hx hsome
      have hgb : g b = none := by simpa using hsome.symm
      rw [hgb]
      exact ih hx
    | some x' =>
      rw [hfa] at hx hsome
      obtain ⟨y, hy⟩ := Option.isSome_iff_exists.mp hsome.symm
      exact ⟨a, b, y, hab, hfa.trans hx, hy, by rw [hy]⟩

/-- Two sublists of one list are in the same order. -/
theorem sublist_of_subset {l s r : List α} (hl : l.Sublist r) (hs : s.Sublist r) (hnd : r.Nodup)
    (hsub : l ⊆ s) : l.Sublist s := by
  induction hs generalizing l with
  | slnil => exact hl
  | @cons s r x hs ih =>
    obtain ⟨hx, hnd⟩ := List.nodup_cons.mp hnd
    cases hl with
    | cons _ hl => exact ih hl hnd hsub
    -- `x` is in `l` and not in `s`.
    | cons_cons _ hl => exact absurd (hs.subset (hsub (List.mem_cons_self ..))) hx
  | @cons_cons s r x hs ih =>
    obtain ⟨hx, hnd⟩ := List.nodup_cons.mp hnd
    cases hl with
    | cons _ hl =>
      refine (ih hl hnd fun y hy => ?_).cons _
      have hyx : y ≠ x := fun heq => hx (hl.subset (heq ▸ hy))
      exact (List.mem_cons.mp (hsub hy)).resolve_left hyx
    | @cons_cons l _ _ hl =>
      refine (ih hl hnd fun y hy => ?_).cons_cons _
      have hyx : y ≠ x := fun heq => hx (hl.subset (heq ▸ hy))
      exact (List.mem_cons.mp (hsub (List.mem_cons_of_mem _ hy))).resolve_left hyx

/-- A sublist of a list without repetitions is what its members leave of the list. -/
theorem eq_filter_of_sublist [DecidableEq α] {l r : List α} (h : l.Sublist r) (hnd : r.Nodup) :
    l = r.filter fun a => decide (a ∈ l) := by
  refine List.Sublist.antisymm ?_ ?_
  · refine sublist_of_subset h List.filter_sublist hnd fun a ha => ?_
    exact List.mem_filter.mpr ⟨h.subset ha, decide_eq_true ha⟩
  · refine sublist_of_subset List.filter_sublist h hnd fun a ha => ?_
    exact of_decide_eq_true (List.mem_filter.mp ha).2

end Support
