/-!
# `Support.Loop`: loops with a variant

A loop body is a function `body : σ → LoopStep σ ρ`. From a state of the loop it leaves the loop
with a result, or goes on in another state. `Iterates body n s s'` says that `n` iterations that
all go on lead from `s` to `s'`.

* `Iterates.mul_le`: when every iteration that goes on increases a variant by `c`, up to a bound,
  the number of iterations is bounded.
* `exists_done`: such a loop is left.
* `Unrolls.eq_of_done`: a recursion on fuel that unrolls the body computes the result, with one
  unit of fuel for each iteration.
-/

set_option autoImplicit false

namespace Support

variable {σ ρ : Type}

/-- What one iteration does. -/
inductive LoopStep (σ ρ : Type) where
  | done (r : ρ)
  | next (s : σ)

/-- The result of the loop after the iteration, from its results in the states behind it. -/
def LoopStep.resume (loop : σ → ρ) : LoopStep σ ρ → ρ
  | .done r => r
  | .next s => loop s

/-- The iterations that go on, from the first state to the last. -/
inductive Iterates (body : σ → LoopStep σ ρ) : Nat → σ → σ → Prop where
  | zero (s : σ) : Iterates body 0 s s
  | succ {n : Nat} {s s' s'' : σ} (h : body s = .next s') (hs : Iterates body n s' s'') :
      Iterates body (n + 1) s s''

variable {body : σ → LoopStep σ ρ}

/-- What holds after every iteration, and before the first one, holds in every state. -/
theorem Iterates.inv (I : σ → Prop) (hbody : ∀ s s', body s = .next s' → I s') {n : Nat}
    {s s' : σ} (h : Iterates body n s s') (hs : I s) : I s' := by
  induction h with
  | zero s => exact hs
  | succ hnext _ ih => exact ih (hbody _ _ hnext)

/-- The variant after `n` iterations. -/
theorem Iterates.add_mul_le (v : σ → Nat) (c : Nat)
    (hbody : ∀ s s', body s = .next s' → v s + c ≤ v s') {n : Nat} {s s' : σ}
    (h : Iterates body n s s') : v s + n * c ≤ v s' := by
  induction h with
  | zero s => simp
  | succ hnext _ ih =>
    have := hbody _ _ hnext
    rw [Nat.succ_mul]
    omega

/-- A bounded variant bounds the number of iterations. -/
theorem Iterates.mul_le (v : σ → Nat) (c bound : Nat)
    (hbody : ∀ s s', body s = .next s' → v s + c ≤ v s' ∧ v s' ≤ bound) {n : Nat} {s s' : σ}
    (h : Iterates body n s s') : n * c ≤ bound - v s := by
  have hle := h.add_mul_le v c fun s s' hnext => (hbody s s' hnext).1
  cases h with
  | zero => simp
  | succ hnext hs =>
    have hbound := hs.inv (fun s => v s ≤ bound) (fun s s' h => (hbody s s' h).2)
      (hbody _ _ hnext).2
    omega

/-- A loop with a bounded variant is left. -/
theorem exists_done (v : σ → Nat) (c bound : Nat) (hc : 0 < c)
    (hbody : ∀ s s', body s = .next s' → v s + c ≤ v s' ∧ v s' ≤ bound) (s : σ) :
    ∃ n s' r, Iterates body n s s' ∧ body s' = .done r := by
  -- Induction on what the variant can still grow.
  induction hgap : bound - v s using Nat.strongRecOn generalizing s with
  | _ gap ih =>
    cases hs : body s with
    | done r => exact ⟨0, s, r, .zero s, hs⟩
    | next s' =>
      obtain ⟨hlt, hle⟩ := hbody s s' hs
      obtain ⟨n, s'', r, hn, hr⟩ := ih (bound - v s') (by omega) s' rfl
      exact ⟨n + 1, s'', r, .succ hs hn, hr⟩

/-- The recursion on fuel unrolls the loop. -/
def Unrolls (body : σ → LoopStep σ ρ) (loop : Nat → σ → ρ) : Prop :=
  ∀ fuel s, loop (fuel + 1) s = (body s).resume (loop fuel)

/-- With enough fuel, the recursion computes the result of the loop. -/
theorem Unrolls.eq_of_done {loop : Nat → σ → ρ} (h : Unrolls body loop) {n : Nat} {s s' : σ}
    {r : ρ} (hs : Iterates body n s s') (hr : body s' = .done r) {fuel : Nat} (hfuel : n < fuel) :
    loop fuel s = r := by
  induction hs generalizing fuel with
  | zero s =>
    obtain ⟨fuel, rfl⟩ := Nat.exists_eq_add_of_lt hfuel
    rw [h, hr]
    rfl
  | succ hnext _ ih =>
    obtain ⟨fuel, rfl⟩ : ∃ f, fuel = f + 1 := ⟨fuel - 1, by omega⟩
    rw [h, hnext]
    exact ih hr (by omega)

end Support
