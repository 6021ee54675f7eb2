set_option autoImplicit false

/-!
Loops whose body either goes on with another state or leaves the loop with a result, and the
number of rounds they take.
-/

namespace RiscvOs.Loops

variable {σ ρ : Type}

/-- The loop around `body` is left with `r` in its round `n`. -/
inductive Ends (body : σ → σ ⊕ ρ) : Nat → σ → ρ → Prop
  | last {s : σ} {r : ρ} (h : body s = .inr r) : Ends body 1 s r
  | next {n : Nat} {s t : σ} {r : ρ} (h : body s = .inl t) (ht : Ends body n t r) : Ends body (n+1) s r

/-- The loop around `body`, for at most `n` rounds. -/
def iterate (body : σ → σ ⊕ ρ) : Nat → σ → Option ρ
  | 0, _ => none
  | n+1, s =>
    match body s with
    | .inl t => iterate body n t
    | .inr r => some r

variable {body : σ → σ ⊕ ρ} {s t : σ} {r r' : ρ} {n m : Nat}

theorem iterate_next (h : body s = .inl t) : iterate body (n+1) s = iterate body n t := by
  rw [iterate, h]

theorem iterate_last (h : body s = .inr r) : iterate body (n+1) s = some r := by
  rw [iterate, h]

/-- The rounds that are allowed do not matter, as long as the loop ends within them. -/
theorem iterate_eq_some : iterate body m s = some r ↔ ∃ n ≤ m, Ends body n s r := by
  induction m generalizing s with
  | zero =>
    constructor
    · intro h
      cases h
    · rintro ⟨n, hn, h⟩
      cases h <;> omega
  | succ m ih =>
    cases hb : body s with
    | inl t =>
      rw [iterate_next hb, ih]
      constructor
      · rintro ⟨n, hn, h⟩
        exact ⟨n+1, Nat.succ_le_succ hn, .next hb h⟩
      · rintro ⟨n, hn, h⟩
        cases h with
        | last h =>
          rw [hb] at h
          cases h
        | next h ht =>
          rw [hb] at h
          cases h
          exact ⟨_, Nat.le_of_succ_le_succ hn, ht⟩
    | inr x =>
      rw [iterate_last hb, Option.some.injEq]
      constructor
      · rintro rfl
        exact ⟨1, Nat.le_add_left 1 m, .last hb⟩
      · rintro ⟨n, hn, h⟩
        cases h with
        | last h =>
          rw [hb] at h
          exact Sum.inr.inj h
        | next h ht =>
          rw [hb] at h
          cases h

theorem Ends.iterate (h : Ends body n s r) (hm : n ≤ m) : iterate body m s = some r :=
  iterate_eq_some.mpr ⟨n, hm, h⟩

/-- What is true of everything a round can leave the loop with. -/
theorem Ends.out (h : Ends body n s r) {P : ρ → Prop} (hlast : ∀ s r, body s = .inr r → P r) : P r := by
  induction h with
  | last h => exact hlast _ _ h
  | next _ _ ih => exact ih

/-- A loop whose rounds bring a measure down ends, in at most one round more than the measure. -/
theorem ends_of_measure (μ : σ → Nat) (hdown : ∀ s t, body s = .inl t → μ t < μ s) (s : σ) :
    ∃ n ≤ μ s + 1, ∃ r, Ends body n s r := by
  induction hμ : μ s using Nat.strongRecOn generalizing s with
  | ind k ih =>
    cases hb : body s with
    | inr r => exact ⟨1, Nat.le_add_left 1 k, r, .last hb⟩
    | inl t =>
      have hlt := hdown s t hb
      obtain ⟨n, hn, r, hr⟩ := ih (μ t) (hμ ▸ hlt) t rfl
      exact ⟨n+1, by omega, r, .next hb hr⟩

end RiscvOs.Loops
