import Mathlib.Data.List.Basic
import Wamrx.Linking

/-!
# `Wamrx.Proofs.SignatureStrings`: what a signature string stands for

`signature_cstring` writes a type as a string, and WAMR's matcher compares the string with the
type of an import. No type has the character of another type or of a parenthesis, so nothing is
lost on the way.

* `signatureCString_injective`: the string determines the type.
* `acceptsSignature_reads`: the executable matcher accepts the strings that stand for a type.
* `accepts_signatureCString`: such a matcher accepts the string of a type for exactly one import
  type, and only if the type has at most one result.
-/

set_option autoImplicit false

namespace Wamrx.Proofs

/-! ### Characters -/

theorem signatureChar_injective : Function.Injective ValType.signatureChar := by
  intro t t' h
  cases t <;> cases t' <;> first | rfl | exact absurd h (by decide)

theorem signatureChar_ne_paren (t : ValType) : t.signatureChar ≠ ')'.toUInt8 := by
  cases t <;> decide

/-- The character of a type stands for a parameter of that type only. The characters of pointers
and strings are never written. -/
theorem acceptsParam_signatureChar (T : WamrType) (t : ValType) :
    T.acceptsParam t.signatureChar = true ↔ T = t.toWamr := by
  cases T <;> cases t <;> decide

theorem acceptsParam_paren (T : WamrType) : T.acceptsParam ')'.toUInt8 = false := by
  cases T <;> decide

/-- The character of a type is that of its counterpart. -/
theorem char_toWamr (T : WamrType) (t : ValType) :
    T.char = some t.signatureChar ↔ T = t.toWamr := by
  cases T <;> cases t <;> decide

theorem toWamr_injective : Function.Injective ValType.toWamr := by
  intro t t' h
  cases t <;> cases t' <;> first | rfl | cases h

/-! ### Strings -/

/-- Two lists of characters before a closing parenthesis. -/
theorem append_paren_inj {ts ts' : List ValType} {s s' : Name}
    (h : ts.map ValType.signatureChar ++ ')'.toUInt8 :: s
      = ts'.map ValType.signatureChar ++ ')'.toUInt8 :: s') : ts = ts' ∧ s = s' := by
  induction ts generalizing ts' with
  | nil =>
    cases ts' with
    | nil => exact ⟨rfl, (List.cons.inj h).2⟩
    | cons t' ts' => exact absurd (List.cons.inj h).1.symm (signatureChar_ne_paren t')
  | cons t ts ih =>
    cases ts' with
    | nil => exact absurd (List.cons.inj h).1 (signatureChar_ne_paren t)
    | cons t' ts' =>
      obtain ⟨hc, hrest⟩ := List.cons.inj h
      obtain ⟨hts, hs⟩ := ih hrest
      exact ⟨by rw [signatureChar_injective hc, hts], hs⟩

/-- The string determines the parameters, the results and where the ones end. -/
theorem signatureCString_injective : Function.Injective FuncType.signatureCString := by
  intro ty ty' h
  obtain ⟨params, results⟩ := ty
  obtain ⟨params', results'⟩ := ty'
  obtain ⟨hparams, hresults⟩ := append_paren_inj (List.cons.inj h).2
  rw [FuncType.mk.injEq]
  exact ⟨hparams, signatureChar_injective.list_map hresults⟩

/-! ### The matcher -/

/-- The matcher reads the characters of the parameters and stops at the parenthesis, exactly when
the types are the same ones. -/
theorem matchParams_signature (Ts : List WamrType) (ts : List ValType) (s : Name) {s' : Name} :
    matchParams Ts (ts.map ValType.signatureChar ++ ')'.toUInt8 :: s) = some (')'.toUInt8 :: s') ↔
      Ts = ts.map ValType.toWamr ∧ s' = s := by
  induction Ts generalizing ts with
  | nil =>
    cases ts with
    | nil => simp [matchParams, eq_comm]
    | cons t ts =>
      -- A parameter too many: the parenthesis is not reached.
      refine iff_of_false (fun h => ?_) (by simp)
      exact signatureChar_ne_paren t (List.cons.inj (Option.some.inj h)).1
  | cons T Ts ih =>
    cases ts with
    | nil => simp [matchParams, acceptsParam_paren]
    | cons t ts =>
      simp only [List.map_cons, List.cons_append, matchParams, acceptsParam_signatureChar]
      split
      · rename_i hT
        rw [ih ts, hT]
        simp
      · rename_i hT
        exact iff_of_false (by simp) fun h => hT (List.cons.inj h.1).1

/-- The rest of the string, behind the parenthesis. -/
theorem matchResults_signature (Ts : List WamrType) (ts : List ValType) :
    matchResults Ts (ts.map ValType.signatureChar) = true ↔
      Ts = ts.map ValType.toWamr ∧ ts.length ≤ 1 := by
  match Ts, ts with
  | [], [] => simp [matchResults]
  | [], _ :: _ => simp [matchResults]
  | [T], [] =>
    simp [matchResults]
  | [T], [t] =>
    have hchar := char_toWamr T t
    cases hT : T.char with
    | none => simp [matchResults, hT, ← hchar]
    | some c => simp [matchResults, hT, ← hchar]
  | [T], t :: t' :: ts =>
    cases hT : T.char <;> simp [matchResults, hT]
  | T :: T' :: Ts, ts =>
    refine iff_of_false (by simp [matchResults]) ?_
    rintro ⟨h, hlen⟩
    have := congrArg List.length h
    simp only [List.length_cons, List.length_map] at this
    omega

/-- The matcher accepts the string of a type for the import of exactly that type, and for no
other. It accepts it for none when there are several results. -/
theorem acceptsSignature_iff (ty : FuncType) (T : ImportType) :
    acceptsSignature ty.signatureCString T = true ↔
      T = ty.importType ∧ ty.results.length ≤ 1 := by
  obtain ⟨params, results⟩ := ty
  obtain ⟨Ts, Rs⟩ := T
  have hparams := @matchParams_signature Ts params (results.map ValType.signatureChar)
  have hresults := matchResults_signature Rs results
  simp only [FuncType.signatureCString, FuncType.importType, List.cons_append, acceptsSignature,
    ImportType.mk.injEq]
  constructor
  · intro h
    split at h
    · rename_i c' s' hmatch
      simp only [decide_eq_true_eq] at h
      obtain ⟨-, rfl, hrest⟩ := h
      obtain ⟨hTs, rfl⟩ := hparams.mp hmatch
      obtain ⟨hRs, hlen⟩ := hresults.mp hrest
      exact ⟨⟨hTs, hRs⟩, hlen⟩
    · cases h
  · rintro ⟨⟨hTs, hRs⟩, hlen⟩
    rw [hparams.mpr ⟨hTs, rfl⟩]
    simp [hresults.mpr ⟨hRs, hlen⟩]

/-! ### Any matcher -/

/-- The matcher takes one character for each parameter from the front of the string. -/
theorem matchParams_eq_some (Ts : List WamrType) (s : Name) {rest : Name} :
    matchParams Ts s = some rest ↔ ∃ params, s = params ++ rest ∧
      List.Forall₂ (fun t c => t.acceptsParam c = true) Ts params := by
  induction Ts generalizing s with
  | nil => simp [matchParams, List.forall₂_nil_left_iff]
  | cons T Ts ih =>
    cases s with
    | nil => simp [matchParams, List.forall₂_cons_left_iff]
    | cons c s =>
      rw [matchParams]
      split
      · rename_i hc
        rw [ih s]
        constructor
        · rintro ⟨params, rfl, h⟩
          exact ⟨c :: params, rfl, .cons hc h⟩
        · rintro ⟨_, heq, h⟩
          cases h with
          | cons hc' h =>
            obtain ⟨rfl, rfl⟩ := List.cons.inj heq
            exact ⟨_, rfl, h⟩
      · rename_i hc
        refine iff_of_false (by simp) ?_
        rintro ⟨_, heq, h⟩
        cases h with
        | cons hc' h =>
          obtain ⟨rfl, -⟩ := List.cons.inj heq
          exact hc hc'

/-- What is behind the parenthesis. -/
theorem matchResults_eq_true (Ts : List WamrType) (s : Name) :
    matchResults Ts s = true ↔ match Ts with
      | [] => s = []
      | [t] => ∃ c, t.char = some c ∧ s = [c]
      | _ :: _ :: _ => False := by
  match Ts with
  | [] => simp [matchResults]
  | [t] =>
    cases ht : t.char with
    | none => simp [matchResults, ht]
    | some c =>
      simp only [matchResults, ht, Option.toList_some, decide_eq_true_eq, Option.some.injEq]
      constructor
      · rintro ⟨rfl, -⟩
        exact ⟨c, rfl, rfl⟩
      · rintro ⟨c, rfl, rfl⟩
        exact ⟨rfl, List.cons_ne_nil _ _⟩
  | _ :: _ :: _ => simp [matchResults]

/-- The executable matcher accepts the strings that stand for the type, and no others. -/
theorem acceptsSignature_reads : ReadsSignatures acceptsSignature := by
  refine ⟨fun s T => ?_⟩
  unfold ImportType.IsSignature
  constructor
  · intro h
    unfold acceptsSignature at h
    split at h
    · cases h
    split at h
    · rename_i c s c' s' hmatch
      simp only [decide_eq_true_eq] at h
      obtain ⟨rfl, rfl, hresults⟩ := h
      obtain ⟨params, rfl, hparams⟩ := (matchParams_eq_some _ _).mp hmatch
      exact ⟨params, s', rfl, hparams, (matchResults_eq_true _ _).mp hresults⟩
    · cases h
  · rintro ⟨params, results, rfl, hparams, hresults⟩
    have hmatch := (matchParams_eq_some T.params (params ++ ')'.toUInt8 :: results)).mpr
      ⟨params, rfl, hparams⟩
    simp only [acceptsSignature, List.cons_append, hmatch]
    simp only [true_and, decide_eq_true_eq]
    exact (matchResults_eq_true _ _).mpr hresults

/-- Every such matcher accepts the string of a type for the import of exactly that type, and for
none when there are several results. -/
theorem accepts_signatureCString {accepts : Matcher} (h : ReadsSignatures accepts) (ty : FuncType)
    (T : ImportType) :
    accepts ty.signatureCString T = true ↔ T = ty.importType ∧ ty.results.length ≤ 1 := by
  rw [h.accepts_iff, ← acceptsSignature_reads.accepts_iff, acceptsSignature_iff]

end Wamrx.Proofs
