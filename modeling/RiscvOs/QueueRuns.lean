import RiscvOs.ReadyQueues
import RiscvOs.Runs
set_option autoImplicit false

/-!
The two kinds of queues of the scheduler by themselves, over any sequence of calls: an MLFQ
level is a bounded list with an open end, and the real-time queue hands out the most urgent
process, the oldest one first among those.
-/

namespace RiscvOs.Scheduler
open WordMemory Queues Runs

section Level

variable {q : Mlfq} {l : List ProcRef}

inductive LevelCall where
  | enqueue (p : ProcRef)
  | dequeue

/-- `mlfq_enqueue` returns nothing. -/
def levelCall (q : Mlfq) : LevelCall → Option ProcPtr × Mlfq
  | .enqueue p => (none, mlfqEnqueue q (some p))
  | .dequeue =>
    let r := mlfqDequeue q
    (some r.1, r.2)

/-- The same calls on a list of at most `cap` entries, the oldest first. -/
def listCall (cap : Nat) (l : List ProcRef) : LevelCall → Option ProcPtr × List ProcRef
  | .enqueue p => (none, if l.length < cap then l ++ [p] else l)
  | .dequeue => (some l.head?, l.tail)

def Holds (q : Mlfq) (l : List ProcRef) : Prop :=
  q.Valid maxProcesses ∧ q.contents maxProcesses = l.map some

theorem Holds.size (h : Holds q l) : q.size = l.length := by
  have hlen := congrArg List.length h.2
  rwa [RingBuffer.contents_length, List.length_map] at hlen

theorem holds_enqueue (h : Holds q l) (p : ProcRef) :
    Holds (mlfqEnqueue q (some p)) (if l.length < maxProcesses then l ++ [p] else l) := by
  rw [mlfqEnqueue, ← h.size]
  by_cases hs : q.size < maxProcesses
  · rw [if_neg (by simp [hs]), if_pos hs]
    refine ⟨h.1.push hs _, ?_⟩
    rw [h.1.push_contents hs, h.2, List.map_append, List.map_singleton]
  · rw [if_pos (by omega), if_neg hs]
    exact h

theorem holds_dequeue (h : Holds q l) : (mlfqDequeue q).1 = l.head? ∧ Holds (mlfqDequeue q).2 l.tail := by
  rw [mlfqDequeue]
  cases l with
  | nil =>
    have hs : q.size = 0 := h.size
    rw [if_pos hs]
    exact ⟨rfl, h⟩
  | cons p l =>
    have hs : q.size ≠ 0 := by
      rw [h.size]
      exact Nat.succ_ne_zero _
    have hpop := h.1.pop_contents hs
    rw [h.2, List.map_cons, List.cons.injEq] at hpop
    rw [if_neg hs]
    exact ⟨hpop.1.symm, h.1.pop hs, hpop.2.symm⟩

theorem holds_call (q : Mlfq) (l : List ProcRef) (c : LevelCall) (h : Holds q l) :
    (levelCall q c).1 = (listCall maxProcesses l c).1 ∧
      Holds (levelCall q c).2 (listCall maxProcesses l c).2 := by
  cases c with
  | enqueue p => exact ⟨rfl, holds_enqueue h p⟩
  | dequeue => exact ⟨congrArg some (holds_dequeue h).1, (holds_dequeue h).2⟩

/-- After `mlfq_init`, whatever the calls, the ring is in order and they return what they would
return on a list that drops what does not fit. -/
theorem level_is_bounded_fifo (q : Mlfq) (calls : List LevelCall) :
    (trace levelCall calls (mlfqInit q)).1 = (trace (listCall maxProcesses) calls []).1 ∧
    (trace levelCall calls (mlfqInit q)).2.contents maxProcesses =
      (trace (listCall maxProcesses) calls []).2.map some ∧
    (trace levelCall calls (mlfqInit q)).2.head < 64 ∧
    (trace levelCall calls (mlfqInit q)).2.tail < 64 ∧
    (trace levelCall calls (mlfqInit q)).2.size ≤ 64 ∧
    (trace levelCall calls (mlfqInit q)).2.tail = ((trace levelCall calls (mlfqInit q)).2.head +
      (trace levelCall calls (mlfqInit q)).2.size) % 64 := by
  have hinit : Holds (mlfqInit q) [] := ⟨⟨Nat.zero_lt_succ _, Nat.zero_le _, rfl⟩, rfl⟩
  obtain ⟨hout, hvalid, hcontents⟩ := trace_simulation (fun _ _ => True) Holds
    (fun q l c h _ => holds_call q l c h) (admissible_of_forall (fun _ _ => trivial) _ calls) hinit
  refine ⟨hout, hcontents, hvalid.head_lt, ?_, hvalid.size_le, hvalid.tail_eq⟩
  rw [hvalid.tail_eq]
  exact Nat.mod_lt _ (by decide)

end Level

section RealTime

/-- The real-time queue with the priorities of the processes. -/
structure RtSys where
  prio : ProcPtr → Int
  queue : RtQueue

inductive RtCall where
  | enqueue (p : ProcRef)
  | dequeue
  | setPriority (p : ProcRef) (priority : Int)

def RtQueue.entries (q : RtQueue) : List ProcPtr := listing q.queue q.size

def RtSys.call (s : RtSys) : RtCall → Option ProcPtr × RtSys
  | .enqueue p => (none, { s with queue := rtEnqueue s.prio s.queue (some p) })
  | .dequeue =>
    let r := rtDequeue s.queue
    (some r.1, { s with queue := r.2 })
  | .setPriority p priority => (none, { s with prio := Function.update s.prio (some p) priority })

/-- There is room for what is put in, and priorities change only outside of the queue. -/
def RtSys.Ok (s : RtSys) : RtCall → Prop
  | .enqueue _ => s.queue.size < maxProcesses
  | .dequeue => True
  | .setPriority p _ => some p ∉ s.queue.entries

def RtSys.exec (s : RtSys) (c : RtCall) : RtSys := (s.call c).2

/-- The processes that wait, in the order they came. -/
structure Waiting where
  prio : ProcPtr → Int
  line : List ProcPtr

/-- The earliest of the most urgent processes is served. -/
def Waiting.call (w : Waiting) : RtCall → Option ProcPtr × Waiting
  | .enqueue p => (none, { w with line := w.line ++ [some p] })
  | .dequeue =>
    match firstSmallest w.prio w.line with
    | none => (some none, w)
    | some x => (some x, { w with line := w.line.erase x })
  | .setPriority p priority => (none, { w with prio := Function.update w.prio (some p) priority })

/-- The processes that were put in, and those that were handed out. -/
def enqueued (calls : List RtCall) : List ProcPtr :=
  calls.filterMap fun
    | .enqueue p => some (some p)
    | _ => none

def handedOut (results : List (Option ProcPtr)) : List ProcPtr :=
  (results.filterMap id).filter Option.isSome

/-- The queue is what waits, in the order of the priorities. -/
def Serves (s : RtSys) (w : Waiting) : Prop := w.prio = s.prio ∧ StableSort s.prio w.line s.queue.entries

theorem serves_call (s : RtSys) (w : Waiting) (c : RtCall) (h : Serves s w) (hok : s.Ok c) :
    (s.call c).1 = (w.call c).1 ∧ Serves (s.call c).2 (w.call c).2 := by
  obtain ⟨prio, line⟩ := w
  obtain ⟨hprio, hsort⟩ := h
  have hprio : prio = s.prio := hprio
  subst hprio
  cases c with
  | enqueue p =>
    refine ⟨rfl, rfl, ?_⟩
    have hlist := rtEnqueue_listing s.prio hok p
    simp only [RtSys.call, Waiting.call, RtQueue.entries, hlist]
    exact hsort.insert (some p)
  | dequeue =>
    by_cases hs : s.queue.size = 0
    · have hnil : s.queue.entries = [] := by
        rw [RtQueue.entries, hs, listing_zero]
      have hnone : firstSmallest s.prio line = none := by
        rw [hnil] at hsort
        exact hsort.firstSmallest_nil
      simp only [RtSys.call, Waiting.call, hnone, rtDequeue, if_pos hs]
      exact ⟨trivial, rfl, hsort⟩
    · have hlist : s.queue.entries = (rtDequeue s.queue).1 :: (rtDequeue s.queue).2.entries :=
        rtDequeue_listing hs
      rw [hlist] at hsort
      simp only [RtSys.call, Waiting.call, hsort.firstSmallest_cons]
      exact ⟨trivial, rfl, hsort.tail⟩
  | setPriority p v =>
    refine ⟨rfl, rfl, hsort.congr ?_⟩
    intro x hx
    have hne : x ≠ some p := fun he => hok (he ▸ hx)
    exact Function.update_of_ne hne _ _

/-- What was put in has been handed out or still waits. -/
theorem waiting_balance (calls : List RtCall) (w : Waiting) (hsome : none ∉ w.line) :
    (w.line ++ enqueued calls).Perm
      (handedOut (trace Waiting.call calls w).1 ++ (trace Waiting.call calls w).2.line) := by
  induction calls generalizing w with
  | nil => simp [enqueued, handedOut, trace]
  | cons c calls ih =>
    cases c with
    | enqueue p =>
      have hrec := ih { w with line := w.line ++ [some p] } (by simpa using hsome)
      simpa [enqueued, handedOut, trace, Waiting.call] using hrec
    | dequeue =>
      cases hx : firstSmallest w.prio w.line with
      | none =>
        have hrec := ih w hsome
        simpa [enqueued, handedOut, trace, Waiting.call, hx] using hrec
      | some x =>
        have hmem : x ∈ w.line := by
          have hhead := List.mem_of_mem_head? hx
          exact (List.mem_filter.mp hhead).1
        have hisSome : x.isSome = true := by
          rw [Option.isSome_iff_ne_none]
          intro hnone
          exact hsome (hnone ▸ hmem)
        have hrec := ih { w with line := w.line.erase x } (fun hm => hsome (List.mem_of_mem_erase hm))
        have hperm : (w.line ++ enqueued calls).Perm (x :: (w.line.erase x ++ enqueued calls)) :=
          (List.perm_cons_erase hmem).append_right _
        have hstep := hperm.trans (hrec.cons x)
        simpa [enqueued, handedOut, trace, Waiting.call, hx, hisSome] using hstep
    | setPriority p v =>
      have hrec := ih { w with prio := Function.update w.prio (some p) v } hsome
      simpa [enqueued, handedOut, trace, Waiting.call] using hrec

/-- The real-time queue as a stable priority queue: insertion into a queue that is in order, and
whatever the calls are, the process that each removal returns. -/
theorem rt_queue_is_stable :
    (∀ (prio : ProcPtr → Int) (q : RtQueue) (p : ProcRef), q.size < maxProcesses →
      q.entries.Pairwise (fun a b => prio a ≤ prio b) →
      (rtEnqueue prio q (some p)).entries = q.entries.filter (fun x => decide (prio x ≤ prio (some p))) ++
        some p :: q.entries.filter (fun x => decide (prio (some p) < prio x)) ∧
      q.entries = q.entries.filter (fun x => decide (prio x ≤ prio (some p))) ++
        q.entries.filter (fun x => decide (prio (some p) < prio x))) ∧
    (∀ (s : RtSys) (calls : List RtCall), s.queue.size = 0 → Admissible RtSys.Ok RtSys.exec s calls →
      (trace RtSys.call calls s).1 = (trace Waiting.call calls ⟨s.prio, []⟩).1 ∧
      (enqueued calls).Perm
        (handedOut (trace RtSys.call calls s).1 ++ (trace RtSys.call calls s).2.queue.entries)) := by
  constructor
  · intro prio q p hroom hsorted
    have hsplit := sorted_split hsorted (some p)
    refine ⟨?_, ?_⟩
    · rw [RtQueue.entries, rtEnqueue_listing prio hroom p]
      exact insertAfter_eq_filter hsorted (some p)
    · rw [← hsplit.1, ← hsplit.2, List.rdropWhile_append_rtakeWhile]
  · intro s calls hempty hadm
    have hstart : Serves s ⟨s.prio, []⟩ := by
      refine ⟨rfl, ?_⟩
      rw [RtQueue.entries, hempty]
      exact .nil _
    obtain ⟨hout, _, hsort⟩ := trace_simulation RtSys.Ok Serves serves_call hadm hstart
    refine ⟨hout, ?_⟩
    have hbalance := waiting_balance calls ⟨s.prio, []⟩ (by simp)
    rw [List.nil_append, ← hout] at hbalance
    exact hbalance.trans (hsort.perm.symm.append_left _)

def twoPriorities : ProcPtr → Int
  | some (.slot i) => if i.val = 1 then 10 else 20
  | _ => 20

/-- The process that came second is more urgent. -/
theorem rt_queue_is_stable_two :
    (rtEnqueue twoPriorities ⟨fun _ => some (.slot 0), 1⟩ (some (.slot 1))).entries =
      [some (.slot 1), some (.slot 0)] ∧
    (trace RtSys.call [.enqueue (.slot 0), .enqueue (.slot 1), .dequeue] ⟨twoPriorities, ⟨fun _ => none, 0⟩⟩).1 =
      [none, none, some (some (.slot 1))] := by
  have hins := rt_queue_is_stable.1 twoPriorities ⟨fun _ => some (.slot 0), 1⟩ (.slot 1) (by decide) (by decide)
  have hfirst : 0 < maxProcesses := by decide
  have hsecond : 1 < maxProcesses := by decide
  have hrun := rt_queue_is_stable.2 ⟨twoPriorities, ⟨fun _ => none, 0⟩⟩
    [.enqueue (.slot 0), .enqueue (.slot 1), .dequeue] rfl ⟨hfirst, hsecond, trivial, trivial⟩
  exact ⟨hins.1.trans (by decide), hrun.1.trans (by decide)⟩

end RealTime

end RiscvOs.Scheduler
