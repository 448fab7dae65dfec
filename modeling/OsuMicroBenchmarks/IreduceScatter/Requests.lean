import OsuMicroBenchmarks.IreduceScatter.World

/-!
# The request and buffer discipline of `osu_ireduce_scatter`

Every iteration of both passes starts a non-blocking `MPI_Ireduce_scatter` into the one
`MPI_Request request` of `main` and later completes it with `MPI_Wait` (lines 138-140,
145-147, 177-179, 185-192). Between the two, the overlap pass runs `dummy_compute`, which
computes for `latency_in_secs` while testing the same request. As long as the request is in
flight MPI owns `sendbuf` and `recvbuf`: `set_buffer_validation` writes both of them and
`validate_reduce_scatter` reads `recvbuf`.

`Event` refines the collective trace `Coll` of `Passes` by these calls, and the event lists
below follow lines 128-214 in program order. `Event.request` is the discipline a single request
asks for: start it only when nothing is in flight, wait for or test it only while it is, and
touch the buffers or enter a blocking collective only when it has completed. The main result,
`request_discipline`, says that every round keeps that discipline from its first barrier to the
one before the `MPI_Allreduce`, whatever the options, counts and rank, and that its collective
calls are exactly `roundCalls`, the trace the control of `World` records.
-/

namespace OsuMicroBenchmarks.IreduceScatter

/-- What a rank does in a pass, at the grain of its request and its buffers. -/
inductive Event
  /-- A blocking collective, or the start of the non-blocking `MPI_Ireduce_scatter`. -/
  | coll (c : Coll)
  /-- `MPI_Wait(&request, &status)`. -/
  | wait
  /-- A reading of `MPI_Wtime`. -/
  | wtime
  /-- `set_buffer_validation(sendbuf, recvbuf, ...)`, which writes both buffers. -/
  | setBufferValidation
  /-- `dummy_compute(latency_in_secs, &request)`, which tests the request while it computes. -/
  | dummyCompute
  /-- `validate_reduce_scatter(recvbuf, ...)`, which reads the receive buffer. -/
  | validate
deriving DecidableEq, Repr

namespace Event

/-- The collective call an event is, if any. -/
def coll? : Event → Option Coll
  | coll c => some c
  | _ => none

/-- Whether the request is in flight after an event, from whether it is before; `none` where
the event misuses it: a second start, a wait or a test with nothing in flight, or a buffer
access or a blocking collective while MPI still owns the buffers. -/
def request (pending : Bool) : Event → Option Bool
  | coll (.ireduceScatter _) => if pending then none else some true
  | wait => if pending then some false else none
  | dummyCompute => if pending then some true else none
  | wtime => some pending
  | coll _ | setBufferValidation | validate => if pending then none else some false

end Event

/-- A list of events that keeps the discipline of `Event.request` and leaves no request in
flight, starting from none. -/
def Disciplined (evs : List Event) : Prop :=
  evs.foldlM Event.request false = some false

instance (evs : List Event) : Decidable (Disciplined evs) :=
  inferInstanceAs (Decidable (_ = _))

/- Reading `recvbuf` before the wait, or leaving the request in flight, breaks it. -/
example : ¬ Disciplined [.coll (.ireduceScatter [1, 1]), .validate, .wait] := by decide
example : ¬ Disciplined [.coll (.ireduceScatter [1, 1]), .dummyCompute] := by decide

theorem Disciplined.nil : Disciplined [] := rfl

theorem Disciplined.append {a b : List Event} (ha : Disciplined a) (hb : Disciplined b) :
    Disciplined (a ++ b) := by
  rw [Disciplined, List.foldlM_append, ha]
  exact hb

theorem Disciplined.flatMap {α : Type} {f : α → List Event} (h : ∀ x, Disciplined (f x)) :
    ∀ l : List α, Disciplined (l.flatMap f)
  | [] => .nil
  | x :: l => (h x).append (Disciplined.flatMap h l)

/-! ## The events of the code -/

/-- The validation warm-up of lines 134-143 (and 173-182), with the buffer reset that opens
it. -/
def validationEvents (o : Options) (rc : List Int) : List Event :=
  if o.validate then
    .setBufferValidation :: (List.range o.warmupValidation).flatMap
      (fun _ => [.coll .barrier, .coll (.ireduceScatter rc), .wait]) ++ [.coll .barrier]
  else []

/-- The `validate_reduce_scatter` that closes an iteration (lines 150-155, 196-201). -/
def validateEvents (o : Options) (rank : Nat) (rc : List Int) : List Event :=
  if validates o rank rc then [.validate] else []

/-- One iteration of the latency pass (lines 134-155). -/
def latencyIterationEvents (o : Options) (rank : Nat) (rc : List Int) : List Event :=
  validationEvents o rc ++ [.wtime, .coll (.ireduceScatter rc), .wait, .wtime, .coll .barrier] ++
    validateEvents o rank rc

/-- One iteration of the overlap pass (lines 173-201): the eight `MPI_Wtime` readings of
`OverlapSample` around the start, `dummy_compute` and the wait. -/
def overlapIterationEvents (o : Options) (rank : Nat) (rc : List Int) : List Event :=
  validationEvents o rc ++
    [.wtime, .wtime, .coll (.ireduceScatter rc), .wtime, .wtime, .dummyCompute, .wtime, .wtime,
      .wait, .wtime, .wtime, .coll .barrier] ++
    validateEvents o rank rc

/-- A pass of `iterations + skip` iterations. -/
def passEvents (iterations skip : Nat) (it : List Event) : List Event :=
  (List.range (iterations + skip)).flatMap fun _ => it

/-- A round of `rank` up to the `MPI_Allreduce` (lines 128-214), with the receive counts
`roundCalls` uses. -/
def roundEvents (o : Options) (numprocs rank size iterations skip : Nat) : List Event :=
  let rc := (List.range numprocs).map (share size numprocs)
  [.coll .barrier] ++ passEvents iterations skip (latencyIterationEvents o rank rc) ++
    [.coll .barrier, .coll .barrier] ++ passEvents iterations skip (overlapIterationEvents o rank rc) ++
    [.coll .barrier]

/-! ## Each piece keeps the discipline -/

section
variable (o : Options) (rank : Nat) (rc : List Int)

theorem disciplined_validationEvents : Disciplined (validationEvents o rc) := by
  unfold validationEvents
  split
  · exact Disciplined.append (a := [.setBufferValidation]) rfl
      ((Disciplined.flatMap (fun _ => by exact rfl) _).append rfl)
  · exact .nil

theorem disciplined_validateEvents : Disciplined (validateEvents o rank rc) := by
  unfold validateEvents
  split <;> rfl

theorem disciplined_latencyIterationEvents : Disciplined (latencyIterationEvents o rank rc) :=
  ((disciplined_validationEvents o rc).append (by exact rfl)).append
    (disciplined_validateEvents o rank rc)

theorem disciplined_overlapIterationEvents : Disciplined (overlapIterationEvents o rank rc) :=
  ((disciplined_validationEvents o rc).append (by exact rfl)).append
    (disciplined_validateEvents o rank rc)

end

/-! ## The collective calls among the events -/

section
variable (o : Options) (rank : Nat) (rc : List Int)

@[simp] theorem filterMap_coll_validationEvents :
    (validationEvents o rc).filterMap Event.coll? = validationCalls o rc := by
  unfold validationEvents validationCalls
  split <;> simp [List.filterMap_flatMap, Event.coll?]

@[simp] theorem filterMap_coll_validateEvents :
    (validateEvents o rank rc).filterMap Event.coll? = [] := by
  unfold validateEvents
  split <;> rfl

theorem filterMap_coll_latencyIterationEvents :
    (latencyIterationEvents o rank rc).filterMap Event.coll? = iterationCalls o rc := by
  simp [latencyIterationEvents, iterationCalls, Event.coll?]

theorem filterMap_coll_overlapIterationEvents :
    (overlapIterationEvents o rank rc).filterMap Event.coll? = iterationCalls o rc := by
  simp [overlapIterationEvents, iterationCalls, Event.coll?]

end

/-- Every round of every rank keeps the discipline of its request from its first barrier to the
one before the `MPI_Allreduce`: each `MPI_Ireduce_scatter` starts with nothing in flight and is
waited for before the next collective, `dummy_compute` runs while it is in flight, the buffers
are written and read only once it has completed, and none is left in flight. Its collective
calls are the round's `roundCalls`. -/
theorem request_discipline (o : Options) (numprocs rank size iterations skip : Nat) :
    Disciplined (roundEvents o numprocs rank size iterations skip) ∧
    (roundEvents o numprocs rank size iterations skip).filterMap Event.coll? =
      roundCalls o numprocs size iterations skip := by
  let rc := (List.range numprocs).map (share size numprocs)
  have hlat := Disciplined.flatMap (fun _ => disciplined_latencyIterationEvents o rank rc)
    (List.range (iterations + skip))
  have hov := Disciplined.flatMap (fun _ => disciplined_overlapIterationEvents o rank rc)
    (List.range (iterations + skip))
  constructor
  · exact (((Disciplined.append (by exact rfl) hlat).append (by exact rfl)).append hov).append
      (by exact rfl)
  · simp [roundEvents, roundCalls, passEvents, passCalls, List.filterMap_flatMap, Event.coll?,
      filterMap_coll_latencyIterationEvents, filterMap_coll_overlapIterationEvents]

end OsuMicroBenchmarks.IreduceScatter
