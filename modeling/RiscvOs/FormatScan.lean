import RiscvOs.Printf
set_option autoImplicit false

/-!
How far `printf` reads its format. The pointer is moved on behind a `%`, behind a pad zero, behind
each digit of a width and at the end of the loop, and only the head of the loop looks for the
terminator.
-/

namespace RiscvOs.Printf
open WordMemory CStrings

/-- The bytes that the loop over the digits of a width looks at. -/
def parseReads (fmt : Nat → Byte) : Nat → Nat → List Nat
  | 0, _ => []
  | n + 1, pos => pos :: if isDigit (fmt pos) then parseReads fmt n (pos + 1) else []

/-- Where the width of the conversion at `pos` starts, behind the `%` and the pad zero. -/
def widthStart (fmt : Nat → Byte) (pos : Nat) : Nat := if fmt (pos + 1) == byte '0' then pos + 2 else pos + 1

/-- A run of `printf`: the bytes of the format that it reads, the rounds of its loop, and what is
put out when it has ended. -/
structure Trace where
  reads : List Nat
  rounds : Nat
  out : Option (List Byte)

/-- One more round in front. -/
def Trace.after (t : Trace) (reads : List Nat) (out : List Byte) : Trace :=
  ⟨reads ++ t.reads, t.rounds + 1, t.out.map (out ++ ·)⟩

section Format

variable (mem : Word → Byte) (args : Nat → Word)

/-- The conversion at `pos`: where its letter stands, what is put out, and the next argument. -/
def conversion (fmt : Nat → Byte) (n pos arg : Nat) : Option (Nat × List Byte × Nat) :=
  (parseWidth fmt n (widthStart fmt pos) 0#32).bind fun w =>
    (convert mem args n (fmt w.1) w.2 (if fmt (pos + 1) == byte '0' then byte '0' else byte ' ') arg).map (w.1, ·)

/-- `printfLoop` with the bytes of the format that it reads. -/
def printfTrace (fmt : Nat → Byte) : Nat → Nat → Nat → Trace
  | 0, _, _ => ⟨[], 0, none⟩
  | n + 1, pos, arg =>
    if fmt pos = 0#8 then ⟨[pos], 0, some []⟩
    else if fmt pos = byte '%' then
      let reads := pos :: (pos + 1) :: parseReads fmt n (widthStart fmt pos)
      -- Without a result the run is still in this round.
      (conversion mem args fmt n pos arg).elim ⟨reads, 1, none⟩ fun r =>
        (printfTrace fmt n (r.1 + 1) r.2.2).after reads r.2.1
    else (printfTrace fmt n (pos + 1) arg).after [pos] (putText (fmt pos))

/-- The trace is one of `printf` itself. -/
theorem printfTrace_out (fmt : Nat → Byte) (n pos arg : Nat) :
    (printfTrace mem args fmt n pos arg).out = printfLoop mem args fmt n pos arg := by
  induction n generalizing pos arg with
  | zero => rfl
  | succ n ih =>
    rw [printfTrace, printfLoop]
    split
    · rfl
    · split
      · dsimp only [conversion, widthStart]
        cases parseWidth fmt n (if (fmt (pos + 1) == byte '0') = true then pos + 2 else pos + 1) 0#32 with
        | none => rfl
        | some w =>
          simp only [Option.bind_some]
          cases convert mem args n (fmt w.1) w.2 (if (fmt (pos + 1) == byte '0') = true then byte '0' else byte ' ')
              arg with
          | none => rfl
          | some r => simp only [Option.map_some, Option.elim_some, Trace.after, ih, Option.bind_some]
      · rw [Trace.after, ih]

theorem parseWidth_congr {fmt fmt' : Nat → Byte} {n pos : Nat} (h : ∀ p ∈ parseReads fmt n pos, fmt' p = fmt p)
    (width : BitVec 32) : parseWidth fmt' n pos width = parseWidth fmt n pos width := by
  induction n generalizing pos width with
  | zero => rfl
  | succ n ih =>
    rw [parseReads, List.forall_mem_cons] at h
    rw [parseWidth, parseWidth, h.1]
    split
    · rename_i hdigit
      rw [if_pos hdigit] at h
      exact ih h.2 _
    · rfl

theorem mem_parseReads {fmt : Nat → Byte} {n pos : Nat} {width : BitVec 32} {w : Nat × BitVec 32}
    (hw : parseWidth fmt n pos width = some w) : w.1 ∈ parseReads fmt n pos := by
  induction n generalizing pos width with
  | zero => cases hw
  | succ n ih =>
    rw [parseWidth] at hw
    rw [parseReads]
    split at hw
    · rename_i hdigit
      rw [if_pos hdigit]
      exact List.mem_cons_of_mem _ (ih hw)
    · cases hw
      exact List.mem_cons_self

theorem conversion_congr {fmt fmt' : Nat → Byte} {n pos : Nat}
    (h : ∀ p ∈ pos :: (pos + 1) :: parseReads fmt n (widthStart fmt pos), fmt' p = fmt p) (arg : Nat) :
    conversion mem args fmt' n pos arg = conversion mem args fmt n pos arg := by
  rw [List.forall_mem_cons, List.forall_mem_cons] at h
  obtain ⟨_, hflag, hwidth⟩ := h
  have hstart : widthStart fmt' pos = widthStart fmt pos := by rw [widthStart, widthStart, hflag]
  rw [conversion, conversion, hstart, parseWidth_congr hwidth, hflag]
  cases hw : parseWidth fmt n (widthStart fmt pos) 0#32 with
  | none => rfl
  | some w => rw [Option.bind_some, Option.bind_some, hwidth w.1 (mem_parseReads hw)]

/-- Every round looks at the byte it starts at. -/
theorem mem_reads_head {fmt : Nat → Byte} {n pos arg : Nat} (hn : 0 < n) :
    pos ∈ (printfTrace mem args fmt n pos arg).reads := by
  obtain ⟨n, rfl⟩ := Nat.exists_eq_add_of_le' hn
  rw [printfTrace]
  split
  · exact List.mem_singleton_self pos
  · split
    · dsimp only
      cases conversion mem args fmt n pos arg with
      | none => exact List.mem_cons_self
      | some r => exact List.mem_append_left _ List.mem_cons_self
    · exact List.mem_append_left _ (List.mem_singleton_self pos)

/-- The bytes of the trace are all that `printf` knows of its format. -/
theorem printfLoop_congr {fmt fmt' : Nat → Byte} {n pos arg : Nat}
    (h : ∀ p ∈ (printfTrace mem args fmt n pos arg).reads, fmt' p = fmt p) :
    printfLoop mem args fmt' n pos arg = printfLoop mem args fmt n pos arg := by
  rw [← printfTrace_out, ← printfTrace_out]
  induction n generalizing pos arg with
  | zero => rfl
  | succ n ih =>
    have hhead : fmt' pos = fmt pos := h pos (mem_reads_head mem args (Nat.succ_pos n))
    rw [printfTrace] at h
    rw [printfTrace, printfTrace, hhead]
    by_cases hend : fmt pos = 0#8
    · rw [if_pos hend, if_pos hend]
    · rw [if_neg hend] at h ⊢
      rw [if_neg hend]
      by_cases hpercent : fmt pos = byte '%'
      · rw [if_pos hpercent] at h ⊢
        rw [if_pos hpercent]
        dsimp only at h ⊢
        cases hr : conversion mem args fmt n pos arg with
        | none =>
          rw [hr] at h
          rw [conversion_congr mem args h, hr]
          rfl
        | some r =>
          rw [hr] at h
          obtain ⟨hround, hlater⟩ := List.forall_mem_append.mp h
          rw [conversion_congr mem args hround, hr]
          simp only [Option.elim_some, Trace.after, ih hlater]
      · rw [if_neg hpercent] at h ⊢
        rw [if_neg hpercent]
        simp only [Trace.after, ih (List.forall_mem_append.mp h).2]

end Format

/-- The text ends behind a `%` and digits; `inside` says that a `%` stands before it. -/
def endsInside : Bool → List Byte → Bool
  | inside, [] => inside
  | true, c :: cs => endsInside (isDigit c) cs
  | false, c :: cs => endsInside (c == byte '%') cs

/-- For all arguments, no byte behind the terminator is read, each character of the format takes at
most one round, and `printf` returns; memory holds a null byte at least in the format itself, so
that `uart_puts` ends. -/
structure StopsAtEnd (fmt : Nat → Byte) (text : List Byte) : Prop where
  reads : ∀ mem args fuel, ∀ p ∈ (printfTrace mem args fmt fuel 0 0).reads, p ≤ text.length
  rounds : ∀ mem args fuel, (printfTrace mem args fmt fuel 0 0).rounds ≤ text.length
  returns : ∀ mem args, (∃ a, mem a = 0#8) → ∃ fuel out, printf mem args fmt fuel = some out

section Conversions

variable {mem : Word → Byte} {args : Nat → Word} {fmt : Nat → Byte} {n pos start arg : Nat} {ds cs : List Byte}
  {width : BitVec 32}

/-- What a conversion leaves of the text: nothing, when it is all digits and the terminator is taken
for the conversion letter, or the text behind the letter. -/
theorem parseWidth_rest {w : Nat × BitVec 32} (h : Spells (fun j => fmt (start + j)) ds)
    (hw : parseWidth fmt n start width = some w) :
    (endsInside true ds = true ∧ w.1 = start + ds.length) ∨
      ∃ rest, Spells (fun j => fmt (w.1 + 1 + j)) rest ∧ w.1 + 1 + rest.length = start + ds.length ∧
        rest.length < ds.length ∧ endsInside true ds = endsInside false rest := by
  induction n generalizing start ds width with
  | zero => cases hw
  | succ n ih =>
    rw [parseWidth] at hw
    cases ds with
    | nil =>
      have hend : fmt start = 0#8 := h
      rw [hend, if_neg (by decide)] at hw
      cases hw
      exact .inl ⟨rfl, rfl⟩
    | cons d ds =>
      obtain ⟨hd, _, hrest⟩ := h.next
      rw [hd] at hw
      rw [endsInside, List.length_cons]
      split at hw
      · rename_i hdigit
        rw [hdigit]
        rcases ih hrest hw with ⟨hin, hlast⟩ | ⟨rest, hspells, hlen, hlt, hin⟩
        · exact .inl ⟨hin, by omega⟩
        · exact .inr ⟨rest, hspells, by omega, by omega, hin⟩
      · rename_i hdigit
        cases hw
        rw [Bool.not_eq_true] at hdigit
        exact .inr ⟨ds, hrest, by omega, by omega, by rw [hdigit]⟩

theorem parseReads_le (h : Spells (fun j => fmt (start + j)) ds) :
    ∀ p ∈ parseReads fmt n start, p ≤ start + ds.length := by
  induction n generalizing start ds with
  | zero => simp [parseReads]
  | succ n ih =>
    rw [parseReads, List.forall_mem_cons]
    refine ⟨by omega, ?_⟩
    cases ds with
    | nil =>
      have hend : fmt start = 0#8 := h
      rw [hend, if_neg (by decide)]
      simp
    | cons d ds =>
      split
      · intro p hp
        have hle := ih h.next.2.2 p hp
        rw [List.length_cons]
        omega
      · simp

theorem parseWidth_returns (width : BitVec 32) (h : Spells (fun j => fmt (start + j)) ds) (hn : ds.length < n) :
    ∃ w, parseWidth fmt n start width = some w := by
  induction n generalizing start ds width with
  | zero => omega
  | succ n ih =>
    rw [parseWidth]
    cases ds with
    | nil =>
      have hend : fmt start = 0#8 := h
      rw [hend, if_neg (by decide)]
      exact ⟨_, rfl⟩
    | cons d ds =>
      split
      · exact ih _ h.next.2.2 (by simpa using hn)
      · exact ⟨_, rfl⟩

/-- The pad zero is a digit like the others. -/
theorem widthStart_rest (h : Spells (fun j => fmt (pos + 1 + j)) ds) :
    ∃ ds', Spells (fun j => fmt (widthStart fmt pos + j)) ds' ∧
      widthStart fmt pos + ds'.length = pos + 1 + ds.length ∧ endsInside true ds' = endsInside true ds := by
  unfold widthStart
  split
  · rename_i hflag
    rw [beq_iff_eq] at hflag
    cases ds with
    | nil =>
      have hend : fmt (pos + 1) = 0#8 := h
      rw [hend] at hflag
      exact absurd hflag (by decide)
    | cons d ds =>
      obtain ⟨hd, _, hrest⟩ := h.next
      rw [hd] at hflag
      refine ⟨ds, hrest, by rw [List.length_cons]; omega, ?_⟩
      rw [endsInside, hflag]
      rfl
  · exact ⟨ds, h, rfl, rfl⟩

theorem convert_returns (hmem : ∀ s, ∃ out, uartPuts mem n s = some out) (args : Nat → Word) (c : Byte)
    (width : BitVec 32) (pad : Byte) (arg : Nat) :
    ∃ r, convert mem args n c width pad arg = some r := by
  obtain ⟨out, hout⟩ := hmem (args arg)
  simp only [convert, hout]
  repeat' split
  all_goals exact ⟨_, rfl⟩

/-- A conversion in a format that goes on with `ds` behind its `%`. -/
structure ConversionAt (mem : Word → Byte) (args : Nat → Word) (fmt : Nat → Byte) (n pos arg : Nat)
    (ds : List Byte) : Prop where
  reads : ∀ p ∈ pos :: (pos + 1) :: parseReads fmt n (widthStart fmt pos), p ≤ pos + 1 + ds.length
  returns : ds.length < n → (∀ s, ∃ out, uartPuts mem n s = some out) →
    ∃ r, conversion mem args fmt n pos arg = some r
  rest : ∀ r, conversion mem args fmt n pos arg = some r →
    (endsInside true ds = true ∧ r.1 = pos + 1 + ds.length) ∨ ∃ rest,
      Spells (fun j => fmt (r.1 + 1 + j)) rest ∧ r.1 + 1 + rest.length = pos + 1 + ds.length ∧
      rest.length < ds.length ∧ endsInside true ds = endsInside false rest

theorem conversionAt (mem : Word → Byte) (args : Nat → Word) (n arg : Nat) (h : Spells (fun j => fmt (pos + 1 + j)) ds) :
    ConversionAt mem args fmt n pos arg ds := by
  obtain ⟨ds', hspells, hlen, hin⟩ := widthStart_rest h
  have hstart : pos + 1 ≤ widthStart fmt pos := by
    unfold widthStart
    split <;> omega
  refine ⟨?_, ?_, ?_⟩
  · rw [List.forall_mem_cons, List.forall_mem_cons]
    refine ⟨by omega, by omega, ?_⟩
    rw [← hlen]
    exact parseReads_le hspells
  · intro hn hmem
    obtain ⟨w, hw⟩ := parseWidth_returns 0#32 hspells (by omega : ds'.length < n)
    obtain ⟨r, hr⟩ := convert_returns hmem args (fmt w.1) w.2
      (if fmt (pos + 1) == byte '0' then byte '0' else byte ' ') arg
    exact ⟨(w.1, r), by rw [conversion, hw, Option.bind_some, hr, Option.map_some]⟩
  · intro r hr
    rw [conversion, Option.bind_eq_some_iff] at hr
    obtain ⟨w, hw, hr⟩ := hr
    rw [Option.map_eq_some_iff] at hr
    obtain ⟨x, _, rfl⟩ := hr
    rw [← hin]
    rcases parseWidth_rest hspells hw with ⟨hend, hlast⟩ | ⟨rest, hrest, hlast, hlt, hend⟩
    · exact .inl ⟨hend, hlast.trans hlen⟩
    · exact .inr ⟨rest, hrest, hlast.trans hlen, by omega, hend⟩

end Conversions

section Runs

variable {mem : Word → Byte} {args : Nat → Word} {fmt : Nat → Byte} {n pos arg : Nat} {cs : List Byte}

/-- What one round can do in a format that goes on with `cs`: it leaves a part of `cs` to the next one,
takes the terminator for a conversion letter, or does not come to its end. -/
inductive RoundCase (mem : Word → Byte) (args : Nat → Word) (fmt : Nat → Byte) (n pos : Nat) (cs : List Byte) :
    Trace → Prop
  | goesOn {rest out : List Byte} {reads : List Nat} {next arg : Nat}
      (hspells : Spells (fun j => fmt (next + j)) rest) (hlen : next + rest.length = pos + cs.length)
      (hlt : rest.length < cs.length) (hends : endsInside false cs = endsInside false rest)
      (hreads : ∀ p ∈ reads, p ≤ pos + cs.length) :
      RoundCase mem args fmt n pos cs ((printfTrace mem args fmt n next arg).after reads out)
  | overruns {reads : List Nat} {arg : Nat} {out : List Byte} (hends : endsInside false cs = true) :
      RoundCase mem args fmt n pos cs ((printfTrace mem args fmt n (pos + cs.length + 1) arg).after reads out)
  | stuck {reads : List Nat} (hreads : ∀ p ∈ reads, p ≤ pos + cs.length)
      (hfuel : cs.length ≤ n → ¬ ∀ s, ∃ out, uartPuts mem n s = some out) :
      RoundCase mem args fmt n pos cs ⟨reads, 1, none⟩

theorem printfTrace_end (h : Spells (fun j => fmt (pos + j)) []) :
    printfTrace mem args fmt (n + 1) pos arg = ⟨[pos], 0, some []⟩ := by
  have hend : fmt pos = 0#8 := h
  rw [printfTrace, if_pos hend]

theorem printfTrace_round (mem : Word → Byte) (args : Nat → Word) (n arg : Nat) {c : Byte}
    (h : Spells (fun j => fmt (pos + j)) (c :: cs)) :
    RoundCase mem args fmt n pos (c :: cs) (printfTrace mem args fmt (n + 1) pos arg) := by
  obtain ⟨hc, hzero, hrest⟩ := h.next
  rw [printfTrace, hc, if_neg hzero]
  split
  · rename_i hpercent
    have hin : endsInside false (c :: cs) = endsInside true cs := by rw [endsInside, hpercent, beq_self_eq_true]
    have hconv := conversionAt mem args n arg hrest
    have hreads : ∀ p ∈ pos :: (pos + 1) :: parseReads fmt n (widthStart fmt pos), p ≤ pos + (c :: cs).length := by
      intro p hp
      have hle := hconv.reads p hp
      rw [List.length_cons]
      omega
    cases hr : conversion mem args fmt n pos arg with
    | none =>
      refine .stuck hreads ?_
      intro hn hmem
      obtain ⟨r, hsome⟩ := hconv.returns hn hmem
      rw [hr] at hsome
      cases hsome
    | some r =>
      rcases hconv.rest r hr with ⟨hends, hlast⟩ | ⟨rest, hspells, hlen, hlt, hends⟩
      · have hnext : r.1 + 1 = pos + (c :: cs).length + 1 := by
          rw [List.length_cons]
          omega
        dsimp only [Option.elim_some]
        rw [hnext]
        exact .overruns (hin.trans hends)
      · refine .goesOn hspells ?_ ?_ (hin.trans hends) hreads
        · rw [List.length_cons]
          omega
        · rw [List.length_cons]
          omega
  · rename_i hpercent
    have hne : (c == byte '%') = false := beq_eq_false_iff_ne.mpr hpercent
    refine .goesOn hrest ?_ (Nat.lt_succ_self _) (by rw [endsInside, hne]) ?_
    · rw [List.length_cons]
      omega
    · simp

/-- A format that does not end inside a conversion is read up to its terminator. -/
theorem printfTrace_stops (h : Spells (fun j => fmt (pos + j)) cs) (hends : endsInside false cs = false) :
    (∀ p ∈ (printfTrace mem args fmt n pos arg).reads, p ≤ pos + cs.length) ∧
      (printfTrace mem args fmt n pos arg).rounds ≤ cs.length := by
  induction n generalizing pos arg cs with
  | zero => simp [printfTrace]
  | succ n ih =>
    cases cs with
    | nil => simp [printfTrace_end h]
    | cons c cs =>
      have hround := printfTrace_round mem args n arg h
      generalize printfTrace mem args fmt (n + 1) pos arg = t at hround
      cases hround with
      | goesOn hspells hlen hlt hin hreads =>
        obtain ⟨hlater, hrounds⟩ := ih hspells (hin ▸ hends)
        rw [hlen] at hlater
        exact ⟨List.forall_mem_append.mpr ⟨hreads, hlater⟩, Nat.lt_of_le_of_lt hrounds hlt⟩
      | overruns hin =>
        rw [hin] at hends
        cases hends
      | stuck hreads hfuel => exact ⟨hreads, Nat.succ_le_succ (Nat.zero_le _)⟩

/-- A format that ends inside a conversion is read behind its terminator. -/
theorem printfTrace_overruns (args : Nat → Word) (arg : Nat) (h : Spells (fun j => fmt (pos + j)) cs)
    (hends : endsInside false cs = true) (hmem : ∀ n, 0 < n → ∀ s, ∃ out, uartPuts mem n s = some out)
    (hn : cs.length + 1 < n) : pos + cs.length + 1 ∈ (printfTrace mem args fmt n pos arg).reads := by
  induction n generalizing pos arg cs with
  | zero => omega
  | succ n ih =>
    cases cs with
    | nil => cases hends
    | cons c cs =>
      have hround := printfTrace_round mem args n arg h
      generalize printfTrace mem args fmt (n + 1) pos arg = t at hround
      cases hround with
      | @goesOn rest out reads next arg' hspells hlen hlt hin hreads =>
        have hlater := ih arg' hspells (hin ▸ hends) (by omega)
        rw [hlen] at hlater
        exact List.mem_append_right _ hlater
      | overruns hin => exact List.mem_append_right _ (mem_reads_head mem args (by omega))
      | stuck hreads hfuel => exact absurd (hmem n (by omega)) (hfuel (by omega))

/-- Addresses wrap, so that a null byte anywhere ends every `uart_puts`. -/
theorem uartPuts_returns {a s : Word} (ha : mem a = 0#8) (hn : (a - s).toNat < n) :
    ∃ out, uartPuts mem n s = some out := by
  induction n generalizing s with
  | zero => omega
  | succ n ih =>
    rw [uartPuts]
    split
    · exact ⟨[], rfl⟩
    · rename_i hs
      have hne : a ≠ s := by
        rintro rfl
        exact hs ha
      have hnext : (a - (s + 1#64)).toNat < n := by bv_omega
      obtain ⟨out, hout⟩ := ih hnext
      exact ⟨_, by rw [hout]; rfl⟩

/-- A format that does not end inside a conversion is printed to its end. -/
theorem printfLoop_returns (h : Spells (fun j => fmt (pos + j)) cs) (hends : endsInside false cs = false)
    (hmem : ∃ a, mem a = 0#8) (hn : 2^64 + cs.length < n) : ∃ out, printfLoop mem args fmt n pos arg = some out := by
  rw [← printfTrace_out]
  induction n generalizing pos arg cs with
  | zero => omega
  | succ n ih =>
    cases cs with
    | nil => exact ⟨[], by rw [printfTrace_end h]⟩
    | cons c cs =>
      have hround := printfTrace_round mem args n arg h
      generalize printfTrace mem args fmt (n + 1) pos arg = t at hround
      cases hround with
      | goesOn hspells hlen hlt hin hreads =>
        obtain ⟨out, hout⟩ := ih hspells (hin ▸ hends) (by omega)
        exact ⟨_, by rw [Trace.after, hout]; rfl⟩
      | overruns hin =>
        rw [hin] at hends
        cases hends
      | stuck hreads hfuel =>
        obtain ⟨a, ha⟩ := hmem
        have hputs (s : Word) : ∃ out, uartPuts mem n s = some out :=
          uartPuts_returns ha (Nat.lt_of_lt_of_le (a - s).isLt (by omega))
        exact absurd hputs (hfuel (by omega))

end Runs

/-- `printf` stops at the end of a format exactly when the format does not end inside a conversion. -/
theorem printf_stops_iff {fmt : Nat → Byte} {text : List Byte} (h : Spells fmt text) :
    StopsAtEnd fmt text ↔ endsInside false text = false := by
  have hstart : Spells (fun j => fmt (0 + j)) text := by simpa only [Nat.zero_add] using h
  constructor
  · intro hstops
    by_contra hends
    rw [Bool.not_eq_false] at hends
    have hmem (n : Nat) (hn : 0 < n) (s : Word) : ∃ out, uartPuts (fun _ => 0#8) n s = some out := by
      obtain ⟨n, rfl⟩ := Nat.exists_eq_add_of_le' hn
      exact ⟨[], rfl⟩
    have hread := printfTrace_overruns (fun _ => 0#64) 0 (n := text.length + 2) hstart hends hmem
      (by omega)
    have hle := hstops.reads _ _ _ _ hread
    omega
  · intro hends
    refine ⟨?_, ?_, ?_⟩
    · intro mem args fuel p hp
      have hle := (printfTrace_stops hstart hends).1 p hp
      omega
    · intro mem args fuel
      exact (printfTrace_stops hstart hends).2
    · intro mem args hmem
      exact ⟨_, printfLoop_returns hstart hends hmem (Nat.lt_succ_self _)⟩

/-- Conversions of all kinds, the last of them unknown. -/
theorem printf_stops_kinds :
    let text := "%08x %5d%% 100%q".toList.map byte
    Spells (cstring text) text ∧ StopsAtEnd (cstring text) text := by
  intro text
  have hspells : Spells (cstring text) text := cstring_spells (by decide +kernel)
  exact ⟨hspells, (printf_stops_iff hspells).mpr (by decide +kernel)⟩

/-- A `%` at the end of the format takes what stands behind the terminator along. -/
theorem printf_stops_percent :
    let text := "100%".toList.map byte
    let fmt := cstring (text ++ 0#8 :: "key".toList.map byte)
    Spells fmt text ∧ ¬ StopsAtEnd fmt text ∧
      printf (fun _ => 0#8) (fun _ => 0#64) fmt 10 = some (text ++ 0#8 :: "key".toList.map byte) := by
  intro text fmt
  have hspells : Spells fmt text := by
    refine Spells.of_get (by decide +kernel) ?_ (by decide +kernel)
    decide +kernel
  refine ⟨hspells, ?_, by decide +kernel⟩
  intro hstops
  have hle := hstops.reads (fun _ => 0#8) (fun _ => 0#64) 10 5 (by decide +kernel)
  exact absurd hle (by decide +kernel)

end RiscvOs.Printf
