import Mathlib.Data.List.Induction
set_option autoImplicit false

/-!
Numbers written down in a base. The characters are of any type; `digit` gives the value of those
that are digits.
-/

namespace RiscvOs.Numerals

section Reading

variable {α : Type} (digit : α → Option Nat) (b : Nat)

/-- One more character behind the number `n`. -/
def readDigit (n : Nat) (c : α) : Option Nat :=
  (digit c).bind fun d => if d < b then some (b * n + d) else none

/-- The number that a text stands for, if it consists of digits of the base. -/
def readNumber (xs : List α) : Option Nat := xs.foldlM (readDigit digit b) 0

/-- The text of `n` without leading zeros. Only the number zero itself starts with one. -/
structure Canonical (n : Nat) (xs : List α) : Prop where
  reads : readNumber digit b xs = some n
  nonempty : xs ≠ []
  leading : ∀ c cs, xs = c :: cs → digit c = some 0 → cs = []

end Reading

variable {α : Type} {digit : α → Option Nat} {b n m d : Nat} {c z : α} {xs ys : List α}

theorem readDigit_eq_some {k : Nat} : readDigit digit b n c = some k ↔ ∃ d, digit c = some d ∧ d < b ∧ k = b * n + d := by
  rw [readDigit, Option.bind_eq_some_iff]
  constructor
  · rintro ⟨d, hd, h⟩
    split at h
    · next hlt => exact ⟨d, hd, hlt, (Option.some.inj h).symm⟩
    · cases h
  · rintro ⟨d, hd, hlt, rfl⟩
    exact ⟨d, hd, if_pos hlt⟩

theorem readNumber_snoc : readNumber digit b (xs ++ [c]) = (readNumber digit b xs).bind (readDigit digit b · c) := by
  rw [readNumber, List.foldlM_append]
  simp only [List.foldlM_cons, List.foldlM_nil, bind_pure]
  rfl

theorem readNumber_snoc_eq_some {k : Nat} : readNumber digit b (xs ++ [c]) = some k ↔
    ∃ n d, readNumber digit b xs = some n ∧ digit c = some d ∧ d < b ∧ k = b * n + d := by
  simp only [readNumber_snoc, Option.bind_eq_some_iff, readDigit_eq_some]
  constructor
  · rintro ⟨n, hn, d, hd⟩
    exact ⟨n, d, hn, hd⟩
  · rintro ⟨n, d, hn, hd⟩
    exact ⟨n, hn, d, hd⟩

theorem readNumber_single {k : Nat} : readNumber digit b [c] = some k ↔ digit c = some k ∧ k < b := by
  have hsnoc : readNumber digit b ([] ++ [c]) = some k ↔ _ := readNumber_snoc_eq_some
  rw [List.nil_append] at hsnoc
  rw [hsnoc]
  constructor
  · rintro ⟨n, d, hn, hd, hlt, rfl⟩
    cases hn
    rw [Nat.mul_zero, Nat.zero_add]
    exact ⟨hd, hlt⟩
  · rintro ⟨hd, hlt⟩
    exact ⟨0, k, rfl, hd, hlt, by omega⟩

/-- Zeros in front do not change the number. -/
theorem readNumber_zeros (hz : digit z = some 0) (hb : 0 < b) (k : Nat) (xs : List α) :
    readNumber digit b (List.replicate k z ++ xs) = readNumber digit b xs := by
  induction k with
  | zero => rfl
  | succ k ih =>
    have hzero : readDigit digit b 0 z = some 0 := readDigit_eq_some.mpr ⟨0, hz, hb, rfl⟩
    rw [List.replicate_succ, List.cons_append, readNumber, List.foldlM_cons, hzero]
    exact ih

theorem Canonical.single (hd : digit c = some d) (hlt : d < b) : Canonical digit b d [c] := by
  refine ⟨readNumber_single.mpr ⟨hd, hlt⟩, List.cons_ne_nil _ _, ?_⟩
  intro c' cs he _
  exact (List.cons.inj he).2.symm

theorem readNumber_pos (hne : xs ≠ []) (hlead : ∀ c cs, xs = c :: cs → digit c ≠ some 0)
    (h : readNumber digit b xs = some n) : 0 < n := by
  induction xs using List.reverseRecOn generalizing n with
  | nil => exact absurd rfl hne
  | append_singleton xs c ih =>
    obtain ⟨m, d, hm, hd, hlt, rfl⟩ := readNumber_snoc_eq_some.mp h
    cases xs with
    | nil =>
      have hne : d ≠ 0 := by
        rintro rfl
        exact hlead c [] rfl hd
      omega
    | cons x xs =>
      have hpos : 0 < m := by
        refine ih (List.cons_ne_nil _ _) ?_ hm
        intro c' cs he
        cases he
        exact hlead _ _ rfl
      exact Nat.add_pos_left (Nat.mul_pos (by omega) hpos) d

/-- One more digit behind a number that is not zero. -/
theorem Canonical.snoc (h : Canonical digit b n xs) (hn : 0 < n) (hd : digit c = some d) (hlt : d < b) :
    Canonical digit b (b * n + d) (xs ++ [c]) := by
  refine ⟨readNumber_snoc_eq_some.mpr ⟨n, d, h.reads, hd, hlt, rfl⟩, by simp, ?_⟩
  intro c' cs he hzero
  cases xs with
  | nil => exact absurd rfl h.nonempty
  | cons x xs =>
    obtain ⟨rfl, rfl⟩ := List.cons.inj he
    -- A zero in front would be all of the text so far, which then stands for zero.
    have hreads := h.reads
    rw [h.leading x xs rfl hzero] at hreads
    have hvalue := (readNumber_single.mp hreads).1
    rw [hzero, Option.some.injEq] at hvalue
    omega

/-- A text without leading zeros is one digit, or one digit behind such a text of a number that
is not zero. -/
theorem Canonical.init (h : Canonical digit b n (xs ++ [c])) : (xs = [] ∧ digit c = some n ∧ n < b) ∨
    ∃ m d, Canonical digit b m xs ∧ 0 < m ∧ digit c = some d ∧ d < b ∧ n = b * m + d := by
  obtain ⟨m, d, hm, hd, hlt, rfl⟩ := readNumber_snoc_eq_some.mp h.reads
  by_cases hxs : xs = []
  · subst hxs
    cases hm
    rw [Nat.mul_zero, Nat.zero_add]
    exact .inl ⟨rfl, hd, hlt⟩
  · have hlead (x : α) (cs : List α) (he : xs = x :: cs) : digit x ≠ some 0 := by
      intro hzero
      have hnil := h.leading x (cs ++ [c]) (by rw [he]; rfl) hzero
      exact absurd hnil (by simp)
    exact .inr ⟨m, d, ⟨hm, hxs, fun x cs he hzero => absurd hzero (hlead x cs he)⟩, readNumber_pos hxs hlead hm,
      hd, hlt, rfl⟩

theorem Canonical.unique (hinj : ∀ c c' d, digit c = some d → digit c' = some d → c = c')
    (h : Canonical digit b n xs) (h' : Canonical digit b n ys) : xs = ys := by
  induction xs using List.reverseRecOn generalizing n ys with
  | nil => exact absurd rfl h.nonempty
  | append_singleton xs c ih =>
    obtain ⟨ys, c', rfl⟩ := (List.eq_nil_or_concat ys).resolve_left h'.nonempty
    rw [List.concat_eq_append] at h' ⊢
    rcases h.init with ⟨rfl, hc, hn⟩ | ⟨m, d, hm, hpos, hc, hd, rfl⟩
    · rcases h'.init with ⟨rfl, hc', _⟩ | ⟨m', d', _, hpos', _, _, rfl⟩
      · rw [hinj c c' n hc hc']
      · have hle : b * 1 ≤ b * m' := Nat.mul_le_mul_left b hpos'
        omega
    · rcases h'.init with ⟨rfl, _, hn⟩ | ⟨m', d', hm', _, hc', hd', heq⟩
      · have hle : b * 1 ≤ b * m := Nat.mul_le_mul_left b hpos
        omega
      · obtain ⟨rfl, rfl⟩ : m = m' ∧ d = d' := by
          have hdiv := congrArg (· / b) heq
          have hmod := congrArg (· % b) heq
          simp only [Nat.mul_add_div (by omega : 0 < b), Nat.div_eq_of_lt hd, Nat.div_eq_of_lt hd', Nat.add_zero] at hdiv
          simp only [Nat.mul_add_mod, Nat.mod_eq_of_lt hd, Nat.mod_eq_of_lt hd'] at hmod
          exact ⟨hdiv, hmod⟩
        rw [ih hm hm', hinj c c' d hc hc']

/-- What stands in front of a number can be taken off again, if it is not a digit. -/
theorem Canonical.strip (h : Canonical digit b n xs) (hz : digit z = none) (k : Nat) :
    (List.replicate k z ++ xs).dropWhile (fun c => (digit c).isNone) = xs := by
  induction k with
  | zero =>
    cases xs with
    | nil => rfl
    | cons c cs =>
      have hreads := h.reads
      rw [readNumber, List.foldlM_cons] at hreads
      obtain ⟨m, hm, _⟩ := Option.bind_eq_some_iff.mp hreads
      obtain ⟨d, hd, _⟩ := readDigit_eq_some.mp hm
      exact List.dropWhile_cons_of_neg (by simp [hd])
  | succ k ih =>
    rw [List.replicate_succ, List.cons_append, List.dropWhile_cons_of_pos (by simp [hz])]
    exact ih

end RiscvOs.Numerals
