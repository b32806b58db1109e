import IOContext.Worker.Ring
import Mathlib.Data.List.Induction

/-!
# Reading the trace

- `sqesOf` are the submissions, in order.
- `fed` are the bytes that the parser of a connection has been given, segment by segment `segmentsOf`, and `parserOf`
  what it makes of them (`parserOf_eq`).
- `queuedOf` are the buffers that have been appended to a connection's queue, `sendsOf` the batches that have been
  submitted.
- `tasksOf` are the tasks that have been posted for a connection, `callsOf` the calls of a handler on its request.
- `providesOf` are the receive buffers that have been provided, with their addresses.
-/

namespace IOContext

/-- The submissions among the events. -/
def sqesOf (evs : List Event) : List Sqe :=
  evs.filterMap fun
    | .sqe e => some e
    | _ => none

@[simp] theorem sqesOf_append (evs evs' : List Event) : sqesOf (evs ++ evs') = sqesOf evs ++ sqesOf evs' :=
  List.filterMap_append

theorem mem_sqesOf {evs : List Event} {e : Sqe} : e ∈ sqesOf evs ↔ Event.sqe e ∈ evs := by
  simp only [sqesOf, List.mem_filterMap]
  constructor
  · rintro ⟨ev, hev, h⟩
    cases ev <;> cases h
    exact hev
  · exact fun h => ⟨_, h, rfl⟩

/-! ## What a parser is fed -/

/-- The bytes that an event feeds to the parser of `c`. -/
def Event.feeds (c : Ptr) : Event → Bytes
  | .segment q seg => if q = c then seg else []
  | _ => []

/-- The bytes that the parser of `c` has been given. -/
def fed (c : Ptr) (evs : List Event) : Bytes := evs.flatMap (Event.feeds c)

@[simp] theorem fed_append (c : Ptr) (evs evs' : List Event) : fed c (evs ++ evs') = fed c evs ++ fed c evs' :=
  List.flatMap_append

@[simp] theorem fed_singleton (c : Ptr) (e : Event) : fed c [e] = e.feeds c := by simp [fed]

/-- The segments that the parser of `c` has been given, in order. -/
def segmentsOf (c : Ptr) (evs : List Event) : List Bytes :=
  evs.filterMap fun
    | .segment q seg => if q = c then some seg else none
    | _ => none

@[simp] theorem segmentsOf_append (c : Ptr) (evs evs' : List Event) :
    segmentsOf c (evs ++ evs') = segmentsOf c evs ++ segmentsOf c evs' := List.filterMap_append

/-- What an event makes of the parser of `c`. -/
def Event.parse (c : Ptr) (m : ProcessingMachine) : Event → ProcessingMachine
  | .segment q seg => if q = c then m.onSegment seg else m
  | _ => m

/-- A new parser, given the segments of `c`. -/
def parserOf (c : Ptr) (evs : List Event) : ProcessingMachine := evs.foldl (fun m e => e.parse c m) {}

theorem parserOf_append (c : Ptr) (evs : List Event) (e : Event) :
    parserOf c (evs ++ [e]) = e.parse c (parserOf c evs) := by simp [parserOf]

/-- The segments of a connection are read as their concatenation. -/
theorem parserOf_eq (c : Ptr) (evs : List Event) :
    (parserOf c evs = {} ∧ fed c evs = []) ∨ parserOf c evs = ProcessingMachine.onSegment {} (fed c evs) := by
  induction evs using List.reverseRecOn with
  | nil => exact .inl ⟨rfl, rfl⟩
  | append_singleton evs e ih =>
    rw [parserOf_append, fed_append, fed_singleton]
    cases e with
    | segment q seg =>
      by_cases hq : q = c
      · refine .inr ?_
        rcases ih with ⟨hparser, hfed⟩ | hparser
        · simp [hparser, hfed, Event.parse, Event.feeds, hq]
        · simp [hparser, Event.parse, Event.feeds, hq, ProcessingMachine.onSegment_onSegment]
      · simpa [Event.parse, Event.feeds, hq] using ih
    | sqe | enqueue | invoke => simpa [Event.parse, Event.feeds] using ih

/-! ## What is queued and sent -/

/-- The sends among the submissions. -/
def sendsOf (evs : List Event) : List (List Bytes) :=
  (sqesOf evs).filterMap fun e =>
    match e.op with
    | .sendmsg _ iov => some iov
    | _ => none

@[simp] theorem sendsOf_append (evs evs' : List Event) : sendsOf (evs ++ evs') = sendsOf evs ++ sendsOf evs' := by
  simp [sendsOf]

/-- The buffers provided by the submissions, by address and number. -/
def providesOf (evs : List Event) : List (Nat × Nat) :=
  (sqesOf evs).filterMap fun e =>
    match e.op with
    | .provideBuffers addr bid => some (addr, bid)
    | _ => none

@[simp] theorem providesOf_append (evs evs' : List Event) :
    providesOf (evs ++ evs') = providesOf evs ++ providesOf evs' := by simp [providesOf]

/-- The kind of the task that is posted for `c`. -/
def Sqe.task (c : Ptr) (e : Sqe) : Option Workflow :=
  match e.op with
  | .msgRing _ kind => if e.owner = some c then some kind else none
  | _ => none

/-- The tasks posted for `c`, oldest first. -/
def tasksOf (c : Ptr) (evs : List Event) : List Workflow := (sqesOf evs).filterMap (Sqe.task c)

@[simp] theorem tasksOf_append (c : Ptr) (evs evs' : List Event) :
    tasksOf c (evs ++ evs') = tasksOf c evs ++ tasksOf c evs' := by simp [tasksOf]

/-- The calls of a handler on the request of `c`. -/
def callsOf (c : Ptr) (evs : List Event) : List (Handler × Request) :=
  evs.filterMap fun
    | .invoke q h req _ => if q = c then some (h, req) else none
    | _ => none

@[simp] theorem callsOf_append (c : Ptr) (evs evs' : List Event) :
    callsOf c (evs ++ evs') = callsOf c evs ++ callsOf c evs' := List.filterMap_append

/-- The buffers that have been appended to the queue of `c`. -/
def queuedOf (c : Ptr) (evs : List Event) : List OwnedBuf :=
  evs.filterMap fun
    | .enqueue q b => if q = c then some b else none
    | _ => none

@[simp] theorem queuedOf_append (c : Ptr) (evs evs' : List Event) :
    queuedOf c (evs ++ evs') = queuedOf c evs ++ queuedOf c evs' := List.filterMap_append

/-! ## Events of other connections -/

/-- The event is not about `c`. -/
def Event.Apart (c : Ptr) : Event → Prop
  | .sqe e => e.owner ≠ some c
  | .segment q _ | .enqueue q _ | .invoke q _ _ _ => q ≠ c

section Apart

variable {c : Ptr} {evs : List Event}

theorem tasksOf_apart (h : ∀ ev ∈ evs, ev.Apart c) : tasksOf c evs = [] :=
  List.filterMap_eq_nil_iff.mpr fun e he => by
    have hown : e.owner ≠ some c := h _ (mem_sqesOf.mp he)
    unfold Sqe.task
    split
    · rw [if_neg hown]
    · rfl

theorem callsOf_apart (h : ∀ ev ∈ evs, ev.Apart c) : callsOf c evs = [] :=
  List.filterMap_eq_nil_iff.mpr fun ev he => by
    cases ev with
    | invoke q hd req res => exact if_neg (h _ he)
    | sqe | segment | enqueue => rfl

theorem queuedOf_apart (h : ∀ ev ∈ evs, ev.Apart c) : queuedOf c evs = [] :=
  List.filterMap_eq_nil_iff.mpr fun ev he => by
    cases ev with
    | enqueue q b => exact if_neg (h _ he)
    | sqe | segment | invoke => rfl

end Apart

end IOContext
