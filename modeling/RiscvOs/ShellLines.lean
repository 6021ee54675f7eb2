import RiscvOs.Shell
set_option autoImplicit false

/-!
The shell with every access to `buffer` checked against its bounds. The array is never cleared,
so each comparison has to stop at the terminator of the line just typed.
-/

namespace RiscvOs.Shell
open CStrings

/-- A load of `buffer[i]`; `none` is an access outside the array. -/
def readAt (buffer : Nat → Byte) (i : Nat) : Option Byte :=
  if i < shellBufferSize then some (buffer i) else none

def writeAt (buffer : Nat → Byte) (i : Nat) (c : Byte) : Option (Nat → Byte) :=
  if i < shellBufferSize then some (Function.update buffer i c) else none

def keyword (kw : List Char) : List Byte := kw.map byte

/-- `buffer[i] == c0 && buffer[i+1] == c1 && ...`, which reads on until a byte differs. -/
def compare (buffer : Nat → Byte) : Nat → List Byte → Option Bool
  | _, [] => some true
  | i, c :: cs => do
    let b ← readAt buffer i
    if b = c then compare buffer (i+1) cs else some false

/-- What `%s` prints from `buffer[i]` on. With as much fuel as the array has bytes, the scan
ends by the terminator or outside the array. -/
def readText (buffer : Nat → Byte) : Nat → Nat → Option (List Byte)
  | 0, _ => none
  | n+1, i => do
    let b ← readAt buffer i
    if b = 0#8 then some [] else
      let rest ← readText buffer n (i+1)
      some (b :: rest)

/-- The branches of the dispatcher, with the texts that they print from the buffer. -/
inductive Branch where
  | help | ps | sched | info | testdev | test | reboot
  | echo (text : List Byte)
  | unknown (text : List Byte)
  deriving DecidableEq

def compareCommand (buffer : Nat → Byte) (kw : List Char) : Option Bool :=
  compare buffer 0 (keyword kw ++ [0#8])

def compareEcho (e : Editor) : Option Bool := do
  if ← compare e.buffer 0 (keyword ['e', 'c', 'h', 'o']) then
    if 4 < e.pos then compare e.buffer 4 [byte ' '] else some false
  else some false

def takeBranch (e : Editor) : Option Branch := do
  if ← compareCommand e.buffer ['h', 'e', 'l', 'p'] then return .help
  if ← compareCommand e.buffer ['p', 's'] then return .ps
  if ← compareCommand e.buffer ['s', 'c', 'h', 'e', 'd'] then return .sched
  if ← compareCommand e.buffer ['i', 'n', 'f', 'o'] then return .info
  if ← compareCommand e.buffer ['t', 'e', 's', 't', 'd', 'e', 'v'] then return .testdev
  if ← compareCommand e.buffer ['t', 'e', 's', 't'] then return .test
  if ← compareEcho e then
    let text ← readText e.buffer shellBufferSize 5
    return .echo text
  if ← compareCommand e.buffer ['r', 'e', 'b', 'o', 'o', 't'] then return .reboot
  let text ← readText e.buffer shellBufferSize 0
  return .unknown text

/-- A character that does not end the line. -/
def readKey (e : Editor) (c : Byte) : Option Editor :=
  if c = 8#8 ∨ c = 127#8 then
    if 0 < e.pos then some { e with pos := e.pos - 1 } else some e
  else if 32#8 ≤ c ∧ c < 127#8 then
    if e.pos < shellBufferSize - 1 then do
      let buffer ← writeAt e.buffer e.pos c
      some ⟨buffer, e.pos + 1⟩
    else some e
  else some e

/-- The end of a line: the terminator, the branch unless the line is empty, and `pos` for the
next line. -/
def endLine (e : Editor) : Option (Editor × Option Branch) := do
  let buffer ← writeAt e.buffer e.pos 0#8
  if e.pos = 0 then return (⟨buffer, 0⟩, none)
  let branch ← takeBranch ⟨buffer, e.pos⟩
  return (⟨buffer, 0⟩, some branch)

/-- `run_shell` over the characters typed so far, with what was done for each line. -/
def runLines : Editor → List Byte → Option (Editor × List (Option Branch))
  | e, [] => some (e, [])
  | e, c :: cs =>
    if isEnter c then do
      let (e, branch) ← endLine e
      let (e, branches) ← runLines e cs
      return (e, branch :: branches)
    else do
      let e ← readKey e c
      runLines e cs

/-- The branch for the text of a line. -/
def branchOf (text : List Byte) : Option Branch :=
  if text = [] then none
  else if text = keyword ['h', 'e', 'l', 'p'] then some .help
  else if text = keyword ['p', 's'] then some .ps
  else if text = keyword ['s', 'c', 'h', 'e', 'd'] then some .sched
  else if text = keyword ['i', 'n', 'f', 'o'] then some .info
  else if text = keyword ['t', 'e', 's', 't', 'd', 'e', 'v'] then some .testdev
  else if text = keyword ['t', 'e', 's', 't'] then some .test
  else if keyword ['e', 'c', 'h', 'o', ' '] <+: text then some (.echo (text.drop 5))
  else if text = keyword ['r', 'e', 'b', 'o', 'o', 't'] then some .reboot
  else some (.unknown text)

section Reads

variable {buffer : Nat → Byte} {text : List Byte} {i : Nat}

theorem readAt_eq (hi : i < shellBufferSize) : readAt buffer i = some (buffer i) := if_pos hi

theorem writeAt_eq (hi : i < shellBufferSize) (c : Byte) :
    writeAt buffer i c = some (Function.update buffer i c) := if_pos hi

/-- A comparison with a text stays inside the array, whatever is behind the terminator. -/
theorem compare_eq (h : Spells (fun j => buffer (i + j)) text) (hlen : i + text.length < shellBufferSize)
    {cs : List Byte} (hcs : 0#8 ∉ cs) : compare buffer i cs = some (decide (cs <+: text)) := by
  induction cs generalizing i text with
  | nil => simp [compare]
  | cons c cs ih =>
    simp only [List.mem_cons, not_or] at hcs
    rw [compare, readAt_eq (by omega)]
    cases text with
    | nil =>
      have hz : buffer i = 0#8 := h
      simp [hz, hcs.1]
    | cons b bs =>
      obtain ⟨hb, _, hrest⟩ := h.next
      simp only [List.length_cons] at hlen
      have hrec := ih hrest (by omega) hcs.2
      by_cases hbc : b = c
      · simp [hb, hbc, hrec, List.cons_prefix_cons]
      · simp [hb, hbc, List.cons_prefix_cons, Ne.symm hbc]

/-- A comparison that goes on to the terminator. -/
theorem compare_terminated (h : Spells (fun j => buffer (i + j)) text)
    (hlen : i + text.length < shellBufferSize) {cs : List Byte} (hcs : 0#8 ∉ cs) :
    compare buffer i (cs ++ [0#8]) = some (decide (text = cs)) := by
  induction cs generalizing i text with
  | nil =>
    rw [List.nil_append, compare, readAt_eq (by omega)]
    cases text with
    | nil =>
      have hz : buffer i = 0#8 := h
      simp [hz, compare]
    | cons b bs =>
      obtain ⟨hb, hne, _⟩ := h.next
      simp [hb, hne]
  | cons c cs ih =>
    simp only [List.mem_cons, not_or] at hcs
    rw [List.cons_append, compare, readAt_eq (by omega)]
    cases text with
    | nil =>
      have hz : buffer i = 0#8 := h
      simp [hz, hcs.1]
    | cons b bs =>
      obtain ⟨hb, _, hrest⟩ := h.next
      simp only [List.length_cons] at hlen
      have hrec := ih hrest (by omega) hcs.2
      by_cases hbc : b = c
      · simp [hb, hbc, hrec]
      · simp [hb, hbc]

theorem readText_eq (h : Spells (fun j => buffer (i + j)) text) (hlen : i + text.length < shellBufferSize)
    {n : Nat} (hn : text.length < n) : readText buffer n i = some text := by
  induction n generalizing i text with
  | zero => simp at hn
  | succ n ih =>
    rw [readText, readAt_eq (by omega)]
    cases text with
    | nil =>
      have hz : buffer i = 0#8 := h
      simp [hz]
    | cons b bs =>
      obtain ⟨hb, hne, hrest⟩ := h.next
      simp only [List.length_cons] at hlen hn
      simp [hb, hne, ih hrest (by omega) (by omega)]

end Reads

section Branches

variable {e : Editor} {text : List Byte}

theorem compareCommand_eq (h : Spells e.buffer text) (hlen : text.length < shellBufferSize) {kw : List Char}
    (hkw : 0#8 ∉ keyword kw) : compareCommand e.buffer kw = some (decide (text = keyword kw)) := by
  refine compare_terminated (i := 0) ?_ (by omega) hkw
  simpa using h

/-- `echo ` is a prefix of the line when `echo` is one and a blank follows. -/
theorem echo_prefix_iff : keyword ['e', 'c', 'h', 'o', ' '] <+: text ↔
    keyword ['e', 'c', 'h', 'o'] <+: text ∧ [byte ' '] <+: text.drop 4 := by
  constructor
  · rintro ⟨rest, rfl⟩
    exact ⟨⟨byte ' ' :: rest, rfl⟩, ⟨rest, rfl⟩⟩
  · rintro ⟨⟨rest, rfl⟩, ⟨more, hmore⟩⟩
    have hrest : [byte ' '] ++ more = rest := hmore
    exact ⟨more, by rw [← hrest]; rfl⟩

theorem compareEcho_eq (h : Spells e.buffer text) (hpos : e.pos = text.length)
    (hlen : text.length < shellBufferSize) :
    compareEcho e = some (decide (keyword ['e', 'c', 'h', 'o', ' '] <+: text)) := by
  have h0 : Spells (fun j => e.buffer (0 + j)) text := by simpa using h
  rw [compareEcho, compare_eq h0 (by omega) (by decide)]
  by_cases hecho : keyword ['e', 'c', 'h', 'o'] <+: text
  · have hle : 4 ≤ text.length := hecho.length_le
    by_cases hlong : 4 < e.pos
    · have hblank := compare_eq (h0.drop hle) (by rw [List.length_drop]; omega)
        (show 0#8 ∉ [byte ' '] by decide)
      rw [Nat.zero_add] at hblank
      simp [hecho, hlong, hblank, echo_prefix_iff]
    · have hshort : ¬ keyword ['e', 'c', 'h', 'o', ' '] <+: text := by
        intro hp
        have hle : 5 ≤ text.length := hp.length_le
        omega
      simp [hecho, hlong, hshort]
  · simp [hecho, echo_prefix_iff]

theorem echo_text (h : Spells e.buffer text) (hlen : text.length < shellBufferSize)
    (hecho : keyword ['e', 'c', 'h', 'o', ' '] <+: text) :
    readText e.buffer shellBufferSize 5 = some (text.drop 5) := by
  have h0 : Spells (fun j => e.buffer (0 + j)) text := by simpa using h
  have hle : 5 ≤ text.length := hecho.length_le
  refine readText_eq ?_ ?_ ?_
  · simpa using h0.drop hle
  · rw [List.length_drop]
    omega
  · rw [List.length_drop]
    omega

/-- The dispatcher takes the branch of the text, whatever is behind it in the buffer. -/
theorem takeBranch_eq (h : Spells e.buffer text) (hpos : e.pos = text.length)
    (hlen : text.length < shellBufferSize) (hne : text ≠ []) : takeBranch e = branchOf text := by
  have hkw (kw : List Char) (hkw : 0#8 ∉ keyword kw) := compareCommand_eq h hlen hkw
  have htext : readText e.buffer shellBufferSize 0 = some text :=
    readText_eq (by simpa using h) (by omega) hlen
  rw [takeBranch, hkw ['h', 'e', 'l', 'p'] (by decide), hkw ['p', 's'] (by decide),
    hkw ['s', 'c', 'h', 'e', 'd'] (by decide), hkw ['i', 'n', 'f', 'o'] (by decide),
    hkw ['t', 'e', 's', 't', 'd', 'e', 'v'] (by decide), hkw ['t', 'e', 's', 't'] (by decide),
    hkw ['r', 'e', 'b', 'o', 'o', 't'] (by decide), compareEcho_eq h hpos hlen, htext, branchOf, if_neg hne]
  simp only [Option.bind_eq_bind, Option.bind_some, decide_eq_true_eq]
  by_cases hecho : keyword ['e', 'c', 'h', 'o', ' '] <+: text
  · rw [echo_text h hlen hecho]
    rfl
  · simp only [if_neg hecho]
    rfl

end Branches

section Dispatcher

variable {buffer : Nat → Byte} {e : Editor} {i : Nat}

/-- The branch of a command, with the text up to the terminator. -/
def Command.branch : Command → Branch
  | .help => .help
  | .ps => .ps
  | .sched => .sched
  | .info => .info
  | .testdev => .testdev
  | .test => .test
  | .reboot => .reboot
  | .echo text => .echo (CStrings.text shellBufferSize text)
  | .unknown text => .unknown (CStrings.text shellBufferSize text)

theorem readAt_some {b : Byte} (h : readAt buffer i = some b) : buffer i = b := by
  rw [readAt] at h
  split at h
  · exact Option.some.inj h
  · cases h

theorem compare_startsWith {cs : List Byte} {r : Bool} (h : compare buffer i cs = some r) :
    startsWith (fun j => buffer (i + j)) cs = r := by
  induction cs generalizing i with
  | nil => exact Option.some.inj h
  | cons c cs ih =>
    rw [compare] at h
    obtain ⟨b, hb, h⟩ := Option.bind_eq_some_iff.mp h
    have hi : buffer (i + 0) = b := readAt_some hb
    rw [startsWith, hi, shift_succ]
    by_cases hbc : b = c
    · rw [if_pos hbc] at h
      rw [ih h, hbc]
      simp
    · rw [if_neg hbc] at h
      cases h
      simp [hbc]

theorem readText_text {n : Nat} {t : List Byte} (h : readText buffer n i = some t) :
    text n (fun j => buffer (i + j)) = t := by
  induction n generalizing i t with
  | zero => cases h
  | succ n ih =>
    rw [readText] at h
    obtain ⟨b, hb, h⟩ := Option.bind_eq_some_iff.mp h
    have hi : buffer (i + 0) = b := readAt_some hb
    rw [text, hi, shift_succ]
    split at h
    · next hz =>
      cases h
      exact if_pos hz
    · next hz =>
      obtain ⟨rest, hrest, h⟩ := Option.bind_eq_some_iff.mp h
      cases h
      rw [if_neg hz, ih hrest]

theorem compareCommand_isCommand {kw : List Char} {r : Bool} (h : compareCommand buffer kw = some r) :
    isCommand buffer kw = r := by
  have hs := compare_startsWith h
  simpa [isCommand, keyword] using hs

theorem compareEcho_startsWith {r : Bool} (h : compareEcho e = some r) :
    (startsWith e.buffer (['e', 'c', 'h', 'o'].map byte) && 4 < e.pos && e.buffer 4 == byte ' ') = r := by
  obtain ⟨b, hb, h⟩ := Option.bind_eq_some_iff.mp h
  have hecho : startsWith e.buffer (['e', 'c', 'h', 'o'].map byte) = b := by
    simpa [keyword] using compare_startsWith hb
  rw [hecho]
  cases b with
  | false =>
    cases h
    rfl
  | true =>
    by_cases hpos : 4 < e.pos
    · rw [if_pos rfl, if_pos hpos] at h
      simpa [startsWith, hpos] using compare_startsWith h
    · rw [if_pos rfl, if_neg hpos] at h
      cases h
      simp [hpos]

/-- One condition of the dispatcher and its two sides. -/
theorem branch_ite {c : Option Bool} {c' : Bool} {yes no : Option Branch} {u v : Command} {r : Branch}
    (hc : ∀ b, c = some b → c' = b) (hyes : yes = some r → u.branch = r) (hno : no = some r → v.branch = r)
    (h : (c.bind fun b => if b = true then yes else no) = some r) :
    (if c' = true then u else v).branch = r := by
  obtain ⟨b, hb, h⟩ := Option.bind_eq_some_iff.mp h
  rw [hc b hb]
  cases b with
  | true => exact hyes h
  | false => exact hno h

/-- Where no access is outside the array, the checked dispatcher is the one of `Shell`. -/
theorem takeBranch_dispatch {r : Branch} (h : takeBranch e = some r) : (dispatch e).branch = r := by
  have hkw (kw : List Char) (b : Bool) : compareCommand e.buffer kw = some b → isCommand e.buffer kw = b :=
    compareCommand_isCommand
  refine branch_ite (hkw _) Option.some.inj (fun h => ?_) h
  refine branch_ite (hkw _) Option.some.inj (fun h => ?_) h
  refine branch_ite (hkw _) Option.some.inj (fun h => ?_) h
  refine branch_ite (hkw _) Option.some.inj (fun h => ?_) h
  refine branch_ite (hkw _) Option.some.inj (fun h => ?_) h
  refine branch_ite (hkw _) Option.some.inj (fun h => ?_) h
  refine branch_ite (fun _ => compareEcho_startsWith) (fun h => ?_) (fun h => ?_) h
  · obtain ⟨t, ht, h⟩ := Option.bind_eq_some_iff.mp h
    cases h
    rw [Command.branch, readText_text ht]
  · refine branch_ite (hkw _) Option.some.inj (fun h => ?_) h
    obtain ⟨t, ht, h⟩ := Option.bind_eq_some_iff.mp h
    cases h
    have htext := readText_text ht
    simp only [Nat.zero_add] at htext
    rw [Command.branch, htext]

end Dispatcher

/-- The text of the line that is being typed, going on from `text`. -/
def lineText (text typed : List Byte) : List Byte :=
  typed.foldl (fun text c => if isEnter c then [] else typeKey text c) text

section Lines

variable {e : Editor} {text : List Byte}

theorem readKey_eq (h : e.pos < shellBufferSize) (c : Byte) : readKey e c = some (editKey e c).1 := by
  unfold readKey editKey
  split
  · split <;> rfl
  · split
    · split
      · rw [writeAt_eq h]
        rfl
      · rfl
    · rfl

theorem Editor.Holds.pos_lt (h : e.Holds text) : e.pos < shellBufferSize := by
  rw [h.pos]
  exact h.short

/-- At the end of a line the branch of its text is taken. -/
theorem endLine_eq (h : e.Holds text) :
    endLine e = some (⟨Function.update e.buffer e.pos 0#8, 0⟩, branchOf text) := by
  rw [endLine, writeAt_eq h.pos_lt]
  by_cases hpos : e.pos = 0
  · have hnil : text = [] := List.length_eq_zero_iff.mp (h.pos ▸ hpos)
    simp [hpos, hnil, branchOf]
  · have hne : text ≠ [] := by
      rintro rfl
      exact hpos h.pos
    have hbranch := takeBranch_eq (e := ⟨Function.update e.buffer e.pos 0#8, e.pos⟩) h.spells h.pos h.short hne
    obtain ⟨r, hr⟩ : ∃ r, branchOf text = some r := by
      rw [branchOf, if_neg hne]
      repeat' split
      all_goals exact ⟨_, rfl⟩
    simp [hpos, hbranch, hr]

theorem runLines_enter (h : e.Holds text) {c : Byte} (hc : isEnter c = true) :
    runLines e [c] = some (⟨Function.update e.buffer e.pos 0#8, 0⟩, [branchOf text]) := by
  rw [runLines, if_pos hc, endLine_eq h]
  rfl

/-- The characters typed never lead outside the array, and each line gets its branch. -/
theorem runLines_eq (h : e.Holds text) (typed : List Byte) :
    ∃ e', runLines e typed = some (e', (typedLines text typed).map branchOf) ∧
      e'.Holds (lineText text typed) := by
  induction typed generalizing e text with
  | nil => exact ⟨e, rfl, h⟩
  | cons c cs ih =>
    by_cases hc : isEnter c = true
    · obtain ⟨e', hrun, hend⟩ := ih (.empty (Function.update e.buffer e.pos 0#8))
      refine ⟨e', ?_, ?_⟩
      · rw [runLines, if_pos hc, endLine_eq h, typedLines, if_pos hc]
        simp [hrun]
      · rwa [lineText, List.foldl_cons, if_pos hc]
    · obtain ⟨e', hrun, hend⟩ := ih (h.editKey c)
      refine ⟨e', ?_, ?_⟩
      · rw [runLines, if_neg hc, readKey_eq h.pos_lt, typedLines, if_neg hc]
        exact hrun
      · rwa [lineText, List.foldl_cons, if_neg hc]

theorem runLines_append (e : Editor) (as bs : List Byte) : runLines e (as ++ bs) =
    (runLines e as).bind fun r => (runLines r.1 bs).map fun r' => (r'.1, r.2 ++ r'.2) := by
  induction as generalizing e with
  | nil => simp [runLines]
  | cons c as ih =>
    rw [List.cons_append, runLines, runLines]
    by_cases hc : isEnter c = true
    · simp only [if_pos hc, ih]
      cases endLine e with
      | none => rfl
      | some r =>
        cases hr : runLines r.1 as with
        | none => simp [hr]
        | some r' => cases hr' : runLines r'.1 bs <;> simp [hr, hr']
    · simp only [if_neg hc, ih]
      cases readKey e c <;> rfl

theorem typedLines_append (text as bs : List Byte) :
    typedLines text (as ++ bs) = typedLines text as ++ typedLines (lineText text as) bs := by
  induction as generalizing text with
  | nil => rfl
  | cons c as ih =>
    rw [List.cons_append, typedLines, typedLines, lineText, List.foldl_cons]
    split
    · rw [ih]
      rfl
    · rw [ih]
      rfl

/-- Characters that end no line are folded into the text. -/
theorem lineText_eq {line : List Byte} (h : ∀ c ∈ line, isEnter c = false) (text : List Byte) :
    lineText text line = line.foldl typeKey text := by
  induction line generalizing text with
  | nil => rfl
  | cons c cs ih =>
    rw [lineText, List.foldl_cons, List.foldl_cons, h c List.mem_cons_self]
    exact ih (fun k hk => h k (List.mem_cons_of_mem c hk)) _

theorem typedLines_nil_of_line {line : List Byte} (h : ∀ c ∈ line, isEnter c = false) (text : List Byte) :
    typedLines text line = [] := by
  induction line generalizing text with
  | nil => rfl
  | cons c cs ih =>
    rw [typedLines, h c List.mem_cons_self]
    exact ih (fun k hk => h k (List.mem_cons_of_mem c hk)) _

theorem lineText_after_enter {before : List Byte} (h : ∀ c ∈ before.getLast?, isEnter c = true) :
    lineText [] before = [] := by
  rcases List.eq_nil_or_concat before with rfl | ⟨bs, c, rfl⟩
  · rfl
  · have hc : isEnter c = true := h c (by simp)
    rw [lineText, List.concat_eq_append, List.foldl_append, List.foldl_cons, if_pos hc]
    rfl

end Lines

/-- Whatever is in the buffer at the start, and whatever is typed, `run_shell` stays inside the
array, and for each line it takes the branch of its text. With the CR or LF of a line the
buffer is the C string of the line's characters, folded from the empty text. -/
theorem shell_sees_typed_lines (buffer : Nat → Byte) (typed : List Byte) :
    ∃ e, runLines ⟨buffer, 0⟩ typed = some (e, (typedLines [] typed).map branchOf) ∧ e.pos ≤ 127 ∧
      ∀ before line c, typed = before ++ (line ++ [c]) → (∀ d ∈ before.getLast?, isEnter d = true) →
        (∀ k ∈ line, isEnter k = false) → isEnter c = true →
        Spells e.buffer (line.foldl typeKey []) ∧
        typedLines [] typed = typedLines [] before ++ [line.foldl typeKey []] := by
  obtain ⟨e, hrun, hend⟩ := runLines_eq (.empty buffer) typed
  refine ⟨e, hrun, ?_, ?_⟩
  · have hpos := hend.pos_lt
    simp only [shellBufferSize] at hpos
    omega
  · rintro before line c rfl hbefore hline hc
    have htext : lineText [] (before ++ line) = line.foldl typeKey [] := by
      have hb := lineText_after_enter hbefore
      rw [lineText] at hb
      rw [lineText, List.foldl_append, hb]
      exact lineText_eq hline []
    constructor
    · rw [← List.append_assoc, runLines_append] at hrun
      obtain ⟨e₁, hrun₁, hend₁⟩ := runLines_eq (.empty buffer) (before ++ line)
      rw [htext] at hend₁
      rw [hrun₁, Option.bind_some, runLines_enter hend₁ hc] at hrun
      have he : ⟨Function.update e₁.buffer e₁.pos 0#8, 0⟩ = e := congrArg Prod.fst (Option.some.inj hrun)
      rw [← he]
      exact hend₁.spells
    · rw [typedLines_append, lineText_after_enter hbefore, typedLines_append, lineText_eq hline,
        typedLines_nil_of_line hline]
      simp [typedLines, hc]

end RiscvOs.Shell
