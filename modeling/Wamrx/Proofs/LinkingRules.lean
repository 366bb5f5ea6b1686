import Wamrx.Linking

/-!
# `Wamrx.Proofs.LinkingRules`: what follows from a rule for imports

A rule sees what symbols say, and nothing else. So it takes related elements from two lists that
say the same (`pick_of_forall₂`). The other lemmas read the assumptions about a rule through
`Linking.pick`.

* `newestNamed_accepted`, `newestNamed_newest`, `newestNamed_byName`: one rule meets three of the
  assumptions.
* `newestMatch_match`: the other rule is the fourth one.
-/

set_option autoImplicit false

namespace Wamrx.Proofs

section

variable {α β : Type} {link : Linking} {accepts : Matcher} {view : α → SymbolView} {xs : List α}
  {imp : Import} {a : α}

/-- What the rule takes is in the list. -/
theorem mem_of_pick (h : link.pick view xs imp = some a) : a ∈ xs := by
  obtain ⟨i, -, hi⟩ := Option.bind_eq_some_iff.mp h
  exact List.mem_of_getElem? hi

/-- The rule looks at what the elements say. -/
theorem map_pick (link : Linking) (view : α → SymbolView) (xs : List α) (imp : Import) :
    (link.pick view xs imp).map view = link.pick id (xs.map view) imp := by
  simp only [Linking.pick, Option.map_bind, List.map_id]
  refine congrArg _ (funext fun i => ?_)
  exact List.getElem?_map.symm

/-- From two lists that say the same, the rule takes related elements, or none. -/
theorem pick_of_forall₂ (link : Linking) {R : α → β → Prop} (view : α → SymbolView)
    (view' : β → SymbolView) (hview : ∀ a b, R a b → view a = view' b) {ys : List β}
    (h : List.Forall₂ R xs ys) (imp : Import) :
    Option.Rel R (link.pick view xs imp) (link.pick view' ys imp) := by
  have hviews : xs.map view = ys.map view' := by
    refine List.forall₂_eq_eq_eq ▸ ?_
    exact List.forall₂_map_left_iff.mpr (List.forall₂_map_right_iff.mpr (h.imp hview))
  unfold Linking.pick
  rw [hviews]
  cases link (ys.map view') imp with
  | none => exact .none
  | some i =>
    simp only [Option.bind_some]
    by_cases hi : i < xs.length
    · have hi' : i < ys.length := h.length_eq ▸ hi
      rw [List.getElem?_eq_getElem hi, List.getElem?_eq_getElem hi']
      exact .some ((List.forall₂_iff_get.mp h).2 i hi hi')
    · rw [List.getElem?_eq_none (Nat.not_lt.mp hi),
        List.getElem?_eq_none (h.length_eq ▸ Nat.not_lt.mp hi)]
      exact .none

/-- The signature of what the rule takes was accepted. -/
theorem accepts_of_pick (h : LinksAccepted accepts link)
    (hpick : link.pick view xs imp = some a) : accepts (view a).signature imp.ty = true := by
  refine h.accepted (xs.map view) imp (view a) ?_
  rw [← map_pick, hpick, Option.map_some]

/-- The newest symbol is taken, if it has the names and an accepted signature. -/
theorem pick_newest (h : LinksNewest accepts link) (view : α → SymbolView) (a : α) (xs : List α)
    (imp : Import) (hnamed : (view a).Named imp)
    (haccept : accepts (view a).signature imp.ty = true) :
    link.pick view (a :: xs) imp = some a := by
  rw [Linking.pick, List.map_cons, h.newest (view a) (xs.map view) imp hnamed haccept]
  rfl

/-- The newest match, as a search. -/
theorem pick_newestMatch (h : LinksNewestMatch accepts link) :
    link.pick view xs imp = xs.find? fun a =>
      decide ((view a).Named imp) && accepts (view a).signature imp.ty := by
  rw [Linking.pick, h.link_eq, List.findIdx?_map, List.find?_eq_bind_findIdx?_getElem?]
  rfl

/-- It has the names of the import. -/
theorem named_of_pick (h : LinksNewestMatch accepts link)
    (hpick : link.pick view xs imp = some a) : (view a).Named imp := by
  rw [pick_newestMatch h] at hpick
  have hmatch := List.find?_some hpick
  rw [Bool.and_eq_true, decide_eq_true_eq] at hmatch
  exact hmatch.1

end

/-! ### The rules -/

section

variable {α : Type} (accepts : Matcher)

theorem newestMatch_match : LinksNewestMatch accepts (newestMatch accepts) := ⟨fun _ _ => rfl⟩

/-- The newest symbol of the names, if its signature is accepted. -/
theorem pick_newestNamed (view : α → SymbolView) (xs : List α) (imp : Import) :
    (newestNamed accepts).pick view xs imp = (xs.find? fun a =>
      decide ((view a).moduleName = imp.moduleName ∧ ((view a).fieldName = imp.fieldName ∨
        '_'.toUInt8 :: (view a).fieldName = imp.fieldName))).filter fun a =>
          accepts (view a).signature imp.ty := by
  rw [Linking.pick, newestNamed, List.findIdx?_map, List.find?_eq_bind_findIdx?_getElem?]
  simp only [Function.comp_def]
  cases hi : xs.findIdx? _ with
  | none => rfl
  | some i =>
    obtain ⟨hlt, -⟩ := List.findIdx?_eq_some_iff_getElem.mp hi
    simp only [Option.filter_some, List.getElem?_map, List.getElem?_eq_getElem hlt,
      Option.map_some, Option.any_some, Option.bind_some]
    split
    · exact List.getElem?_eq_getElem hlt
    · rfl

theorem newestNamed_accepted : LinksAccepted accepts (newestNamed accepts) := by
  refine ⟨fun symbols imp s h => ?_⟩
  rw [pick_newestNamed, Option.filter_eq_some_iff] at h
  exact h.2

theorem newestNamed_newest : LinksNewest accepts (newestNamed accepts) := by
  refine ⟨fun s symbols imp hnamed haccept => ?_⟩
  rw [newestNamed, List.findIdx?_cons, if_pos (by simp [hnamed.1, hnamed.2])]
  exact if_pos haccept

/-- A leading underscore more or less does not change the bare name. -/
theorem newestNamed_byName : LinksByName (newestNamed accepts) := by
  refine ⟨fun view xs imp => ?_⟩
  rw [pick_newestNamed, pick_newestNamed, List.find?_filter]
  congr 2
  funext a
  by_cases hnamed : (view a).moduleName = imp.moduleName ∧ ((view a).fieldName = imp.fieldName ∨
      '_'.toUInt8 :: (view a).fieldName = imp.fieldName)
  · have hbare : bareName (view a).fieldName = bareName imp.fieldName := by
      rcases hnamed.2 with h | h
      · rw [h]
      · rw [← h, bareName, bareName, List.dropWhile_cons_of_pos (by simp)]
    simp [hnamed, hbare]
  · simp [hnamed]

end

end Wamrx.Proofs
