import Mathlib.Logic.Function.Basic
set_option autoImplicit false

/-!
Labelled runs of a transition system, and the induction rules for what every
run preserves. A step relation may refuse a call (its guard) or fail to
produce a successor; a run is a sequence of calls that all went through.
-/

namespace RiscvOs.Runs

variable {σ α : Type}

/-- The run of the calls `as` from `s` ends in `t`. -/
def Run (step : σ → α → σ → Prop) : σ → List α → σ → Prop
  | s, [], t => t = s
  | s, a :: as, t => ∃ u, step s a u ∧ Run step u as t

/-- The step relation of a total function under a guard on its calls. -/
def guarded (ok : σ → α → Prop) (exec : σ → α → σ) (s : σ) (a : α) (t : σ) : Prop :=
  ok s a ∧ t = exec s a

/-- Each of the calls `as` passes its guard when its turn comes. -/
def Admissible (ok : σ → α → Prop) (exec : σ → α → σ) : σ → List α → Prop
  | _, [] => True
  | s, a :: as => ok s a ∧ Admissible ok exec (exec s a) as

instance Admissible.decidable (ok : σ → α → Prop) [∀ s a, Decidable (ok s a)]
    (exec : σ → α → σ) : (s : σ) → (as : List α) → Decidable (Admissible ok exec s as)
  | _, [] => inferInstanceAs (Decidable True)
  | s, a :: as =>
    have := Admissible.decidable ok exec (exec s a) as
    inferInstanceAs (Decidable (ok s a ∧ Admissible ok exec (exec s a) as))

variable {step : σ → α → σ → Prop} {s t : σ} {as : List α}

/-- What every step preserves, every run preserves. -/
theorem Run.invariant (I : σ → Prop)
    (hstep : ∀ s a t, I s → step s a t → I t)
    (h : Run step s as t) (hs : I s) : I t := by
  induction as generalizing s with
  | nil =>
    cases h
    exact hs
  | cons a as ih =>
    obtain ⟨u, hu, hr⟩ := h
    exact ih hr (hstep s a u hs hu)

/-- The rule for the runs of a total function: a call may use its guard. -/
theorem Run.guarded_invariant {ok : σ → α → Prop} {exec : σ → α → σ} (I : σ → Prop)
    (hstep : ∀ s a, I s → ok s a → I (exec s a))
    (h : Run (guarded ok exec) s as t) (hs : I s) : I t := by
  refine h.invariant I ?_ hs
  intro s a u hs hu
  rw [hu.2]
  exact hstep s a hs hu.1

/-- The rule for invariants that speak about the calls made so far. -/
theorem Run.history (I : List α → σ → Prop)
    (hstep : ∀ as s a t, I as s → step s a t → I (as ++ [a]) t)
    (h : Run step s as t) (hs : I [] s) : I as t := by
  -- Generalised over the calls `bs` made before the run starts.
  have gen (cs bs : List α) (u : σ) (hu : Run step u cs t) (hb : I bs u) :
      I (bs ++ cs) t := by
    induction cs generalizing bs u with
    | nil =>
      cases hu
      simpa using hb
    | cons a cs ih =>
      obtain ⟨v, hv, hr⟩ := hu
      simpa using ih (bs ++ [a]) v hr (hstep bs u a v hb hv)
  simpa using gen as [] s h hs

theorem Run.mono {step' : σ → α → σ → Prop} (hsub : ∀ s a t, step s a t → step' s a t) (h : Run step s as t) :
    Run step' s as t := by
  induction as generalizing s with
  | nil => exact h
  | cons a as ih =>
    obtain ⟨u, hu, hr⟩ := h
    exact ⟨u, hsub s a u hu, ih hr⟩

theorem Run.append {u : σ} {bs : List α} (h : Run step s as t) (h' : Run step t bs u) : Run step s (as ++ bs) u := by
  induction as generalizing s with
  | nil =>
    cases h
    exact h'
  | cons a as ih =>
    obtain ⟨v, hv, hr⟩ := h
    exact ⟨v, hv, ih hr⟩

/-- The rule for what happens within a number of counted calls: `W n` holds when at most `n` of
them are left. -/
theorem Run.within {W : Nat → σ → Prop} {P : σ → Prop} (counts : α → Bool) (hpos : ∀ s, ¬ W 0 s)
    (hstep : ∀ n s a t, W n s → step s a t → P t ∨ ∃ m, W m t ∧ m + [a].countP counts ≤ n)
    {n : Nat} (h : Run step s as t) (hs : W n s) (hn : n ≤ as.countP counts) :
    ∃ bs cs u, as = bs ++ cs ∧ Run step s bs u ∧ P u := by
  induction as generalizing s n with
  | nil =>
    obtain rfl : n = 0 := Nat.le_zero.mp hn
    exact absurd hs (hpos s)
  | cons a as ih =>
    obtain ⟨u, hu, hr⟩ := h
    rcases hstep n s a u hs hu with hp | ⟨m, hm, hle⟩
    · exact ⟨[a], as, u, rfl, ⟨u, hu, rfl⟩, hp⟩
    · have hcount : (a :: as).countP counts = [a].countP counts + as.countP counts := by
        rw [← List.countP_append, List.singleton_append]
      obtain ⟨bs, cs, v, has, hrun, hp⟩ := ih hr hm (by omega)
      exact ⟨a :: bs, cs, v, by rw [has, List.cons_append], ⟨u, hu, hrun⟩, hp⟩

/-- A total function has one run for each admissible sequence of calls. -/
theorem run_guarded_iff {ok : σ → α → Prop} {exec : σ → α → σ} :
    Run (guarded ok exec) s as t ↔ Admissible ok exec s as ∧ t = as.foldl exec s := by
  induction as generalizing s with
  | nil => simp [Run, Admissible]
  | cons a as ih =>
    constructor
    · rintro ⟨u, ⟨hok, rfl⟩, hr⟩
      exact ⟨⟨hok, (ih.mp hr).1⟩, (ih.mp hr).2⟩
    · rintro ⟨⟨hok, had⟩, ht⟩
      exact ⟨exec s a, ⟨hok, rfl⟩, ih.mpr ⟨had, ht⟩⟩

/-- Without a guard every sequence of calls is a run. -/
theorem run_unguarded {exec : σ → α → σ} (s : σ) (as : List α) :
    Run (guarded (fun _ _ => True) exec) s as (as.foldl exec s) := by
  induction as generalizing s with
  | nil => rfl
  | cons a as ih => exact ⟨exec s a, ⟨trivial, rfl⟩, ih (exec s a)⟩

section Traces

variable {τ β : Type} {f : σ → α → β × σ} {g : τ → α → β × τ}

/-- What the calls return, in their order, and the state after them. -/
def trace (f : σ → α → β × σ) : List α → σ → List β × σ
  | [], s => ([], s)
  | a :: as, s =>
    let r := trace f as (f s a).2
    ((f s a).1 :: r.1, r.2)

/-- Two systems that return the same for every call, and stay related, cannot be told apart. -/
theorem trace_simulation {t : τ} (ok : σ → α → Prop) (R : σ → τ → Prop)
    (hstep : ∀ s t a, R s t → ok s a → (f s a).1 = (g t a).1 ∧ R (f s a).2 (g t a).2)
    (hadm : Admissible ok (fun s a => (f s a).2) s as) (h : R s t) :
    (trace f as s).1 = (trace g as t).1 ∧ R (trace f as s).2 (trace g as t).2 := by
  induction as generalizing s t with
  | nil => exact ⟨rfl, h⟩
  | cons a as ih =>
    obtain ⟨hok, hrest⟩ := hadm
    obtain ⟨hout, hnext⟩ := hstep s t a h hok
    obtain ⟨houts, hend⟩ := ih hrest hnext
    refine ⟨?_, hend⟩
    rw [trace, trace, hout, houts]

theorem admissible_of_forall {ok : σ → α → Prop} {exec : σ → α → σ} (h : ∀ s a, ok s a) (s : σ) (as : List α) :
    Admissible ok exec s as := by
  induction as generalizing s with
  | nil => trivial
  | cons a as ih => exact ⟨h s a, ih (exec s a)⟩

end Traces

section Streams

variable {γ : Type} {f : σ → α → List γ × σ}

/-- The `n` entries of a stream from entry `i` on. -/
def stretch (a : Nat → γ) (i n : Nat) : List γ := (List.range n).map fun j => a (i + j)

@[simp] theorem stretch_length (a : Nat → γ) (i n : Nat) : (stretch a i n).length = n := by simp [stretch]

theorem stretch_succ (a : Nat → γ) (i n : Nat) : stretch a i (n+1) = a i :: stretch a (i+1) n := by
  simp only [stretch, List.range_succ_eq_map, List.map_cons, List.map_map, Nat.add_zero, List.cons.injEq, true_and]
  refine List.map_congr_left fun j _ => ?_
  rw [Function.comp_apply, Nat.succ_eq_add_one, Nat.add_right_comm, Nat.add_assoc]

theorem stretch_append (a : Nat → γ) (i m n : Nat) : stretch a i m ++ stretch a (i+m) n = stretch a i (m+n) := by
  induction m generalizing i with
  | zero => simp [stretch]
  | succ m ih =>
    have hi : i + (m + 1) = i + 1 + m := by omega
    have hn : m + 1 + n = m + n + 1 := by omega
    rw [stretch_succ, List.cons_append, hi, ih, hn, stretch_succ]

theorem trace_state {β : Type} (f : σ → α → β × σ) (as : List α) (s : σ) :
    (trace f as s).2 = as.foldl (fun s a => (f s a).2) s := by
  induction as generalizing s with
  | nil => rfl
  | cons a as ih => exact ih (f s a).2

/-- What call number `k` returns, in the state that the calls before it have left. -/
theorem trace_getElem? {β : Type} (f : σ → α → β × σ) (as : List α) (s : σ) (k : Nat) :
    (trace f as s).1[k]? = as[k]?.map fun a => (f (trace f (as.take k) s).2 a).1 := by
  induction as generalizing s k with
  | nil => rfl
  | cons a as ih =>
    cases k with
    | zero => rfl
    | succ k => exact ih (f s a).2 k

/-- Where every call takes the entries that follow in a stream, the calls together take them in
order, each of them once. -/
theorem trace_stretch {a : Nat → γ} {p : σ → Nat}
    (hstep : ∀ s c, (f s c).1 = stretch a (p s) (f s c).1.length ∧ p (f s c).2 = p s + (f s c).1.length)
    (as : List α) (s : σ) :
    (trace f as s).1.flatten = stretch a (p s) (trace f as s).1.flatten.length ∧
      p (trace f as s).2 = p s + (trace f as s).1.flatten.length := by
  induction as generalizing s with
  | nil => exact ⟨rfl, rfl⟩
  | cons c as ih =>
    obtain ⟨hout, hpos⟩ := hstep s c
    obtain ⟨houts, hend⟩ := ih (f s c).2
    simp only [trace, List.flatten_cons, List.length_append]
    refine ⟨?_, by omega⟩
    rw [← stretch_append, ← hpos, ← houts, ← hout]

/-- Where every call adds what it puts out to a log, the log has it all, in order. -/
theorem trace_log {g : σ → List γ} (hstep : ∀ s c, g (f s c).2 = g s ++ (f s c).1) (as : List α) (s : σ) :
    g (trace f as s).2 = g s ++ (trace f as s).1.flatten := by
  induction as generalizing s with
  | nil => simp [trace]
  | cons c as ih =>
    simp only [trace, List.flatten_cons]
    rw [ih, hstep, List.append_assoc]

end Streams

section Marks

variable {f : σ → α → List Nat × σ}

/-- Where every call that returns a mark moves it up by `d`, and no call moves it down, the marks
returned lie `d` apart, in order. -/
theorem trace_spaced {I : σ → Prop} {m : σ → Nat} {d : Nat}
    (hstep : ∀ s c, I s → I (f s c).2 ∧ (((f s c).1 = [] ∧ m s ≤ m (f s c).2) ∨
      ((f s c).1 = [m s] ∧ m s + d ≤ m (f s c).2))) (as : List α) {s : σ} (hs : I s) :
    I (trace f as s).2 ∧ (trace f as s).1.flatten.Pairwise (fun x y => x + d ≤ y) ∧
      (∀ x ∈ (trace f as s).1.flatten, m s ≤ x ∧ x + d ≤ m (trace f as s).2) ∧
      m s + d * (trace f as s).1.flatten.length ≤ m (trace f as s).2 := by
  induction as generalizing s with
  | nil => simpa [trace] using hs
  | cons c as ih =>
    obtain ⟨hI, hcase⟩ := hstep s c hs
    obtain ⟨hend, hspaced, hwithin, hcount⟩ := ih hI
    simp only [trace, List.flatten_cons]
    refine ⟨hend, ?_⟩
    rcases hcase with ⟨hnone, hle⟩ | ⟨hone, hle⟩
    · rw [hnone, List.nil_append]
      exact ⟨hspaced, fun x hx => ⟨Nat.le_trans hle (hwithin x hx).1, (hwithin x hx).2⟩, by omega⟩
    · rw [hone, List.singleton_append, List.length_cons]
      refine ⟨List.pairwise_cons.mpr ⟨fun x hx => Nat.le_trans hle (hwithin x hx).1, hspaced⟩, ?_, ?_⟩
      · intro x hx
        rcases List.mem_cons.mp hx with rfl | hx
        · exact ⟨Nat.le_refl _, by omega⟩
        · obtain ⟨hlow, hhigh⟩ := hwithin x hx
          exact ⟨by omega, hhigh⟩
      · rw [Nat.mul_add]
        omega

end Marks

end RiscvOs.Runs
