import OsuMicroBenchmarks.IreduceScatter.Recvcounts

/-!
# The two timed passes of `osu_ireduce_scatter`

One size round runs two loops of `iterations + skip` iterations each: the latency pass
(lines 129-159) and the overlap pass (lines 168-213), which surrounds the same call with a
`dummy_compute` of the latency the first pass measured. Each iteration optionally runs the
validation warm-up, makes the timed `MPI_Ireduce_scatter`, waits, meets a barrier, adds the
count `validate_reduce_scatter` returns to `local_errors`, and from iteration `skip` on adds
its samples to the accumulators. `local_errors` is an `int`, so each `+=` wraps (`intWrap`).

Timer readings, `dummy_compute` results and validation counts are rank-local values the model
does not compute: a `RoundEnv` supplies them. Timings are `Float`s, and accumulation is left to
right, so the statements below hold for IEEE sums as they are computed, without reassociation.

Each pass is a left fold of one iteration over `List.range (iterations + skip)`; every field of
its state is a fold of its own (`List.foldl_hom`), and `foldl_window` turns the accumulators'
`if (i >= options.skip)` into a sum over the window `skip .. skip + iterations - 1`.
-/

namespace OsuMicroBenchmarks.IreduceScatter

/-- The collective calls a rank makes on `MPI_COMM_WORLD`. Waits, timer readings and the
rank-local collaborators are not collective and are left out. -/
inductive Coll
  | barrier
  /-- `MPI_Ireduce_scatter` of `MPI_FLOAT` data with `MPI_SUM` and these receive counts. -/
  | ireduceScatter (recvcounts : List Int)
  /-- `MPI_Allreduce` of one `MPI_INT` with `MPI_SUM`. -/
  | allreduce
  /-- `calculate_and_print_stats` for `bytes`-byte messages over `numprocs` ranks. -/
  | stats (bytes numprocs : Nat) (errors : Int)
deriving DecidableEq, Repr

/-- The readings `t_start` and `t_stop` of one latency-pass iteration. -/
structure LatencySample where
  tStart : Float
  tStop : Float

/-- The eight `MPI_Wtime` readings of one overlap-pass iteration in program order
(lines 183-194), and the value `dummy_compute` returns. -/
structure OverlapSample where
  tStart : Float
  initStart : Float
  initStop : Float
  tcompStart : Float
  tcompStop : Float
  waitStart : Float
  waitStop : Float
  tStop : Float
  testTime : Float

/-- What a rank observes in one size round: the samples of each iteration (those of the
overlap pass for the target duration handed to `dummy_compute`) and the counts, non-negative
`int`s, that `validate_reduce_scatter` returns in each pass. -/
structure RoundEnv where
  latency : Nat → LatencySample
  overlap : Float → Nat → OverlapSample
  latencyErrors : Nat → Nat
  overlapErrors : Nat → Nat

/-- The validation warm-up of lines 134-143 (and 173-182): `warmup_validation` barriers and
calls, then a barrier. -/
def validationCalls (o : Options) (rc : List Int) : List Coll :=
  if o.validate then
    (List.range o.warmupValidation).flatMap (fun _ => [.barrier, .ireduceScatter rc]) ++ [.barrier]
  else []

/-- The collective calls of one iteration of either pass. -/
def iterationCalls (o : Options) (rc : List Int) : List Coll :=
  validationCalls o rc ++ [.ireduceScatter rc, .barrier]

/-- An iteration calls `validate_reduce_scatter` when validation is on and the rank receives
elements (lines 150-155, 196-201). -/
def validates (o : Options) (rank : Nat) (rc : List Int) : Bool :=
  o.validate && rc.getD rank 0 != 0

/-! ## The latency pass -/

/-- The state of the latency pass. -/
structure LatencyPass where
  timer : Float
  localErrors : Int
  trace : List Coll

/-- One iteration of lines 130-159. -/
def latencyIteration (o : Options) (skip rank : Nat) (rc : List Int) (e : RoundEnv)
    (p : LatencyPass) (i : Nat) : LatencyPass where
  timer := if skip ≤ i then p.timer + ((e.latency i).tStop - (e.latency i).tStart) else p.timer
  localErrors := if validates o rank rc then intWrap (p.localErrors + e.latencyErrors i)
    else p.localErrors
  trace := p.trace ++ iterationCalls o rc

/-- The latency pass, from `timer = 0.0` (line 129). -/
def latencyPass (o : Options) (iterations skip rank : Nat) (rc : List Int) (e : RoundEnv)
    (localErrors : Int) (trace : List Coll) : LatencyPass :=
  (List.range (iterations + skip)).foldl (latencyIteration o skip rank rc e)
    ⟨0.0, localErrors, trace⟩

/-! ## The overlap pass -/

/-- The state of the overlap pass; `graph` lists the writes to `omb_graph_data->data` as
(index, value) in program order. -/
structure OverlapPass where
  timer : Float
  tcompTotal : Float
  waitTotal : Float
  testTotal : Float
  initTotal : Float
  localErrors : Int
  graph : List (Nat × Float)
  trace : List Coll

/-- One iteration of lines 172-213, with `latency_in_secs` handed to `dummy_compute`. -/
def overlapIteration (o : Options) (skip rank : Nat) (rc : List Int) (latencyInSecs : Float)
    (e : RoundEnv) (p : OverlapPass) (i : Nat) : OverlapPass :=
  let x := e.overlap latencyInSecs i
  let initTime := x.initStop - x.initStart
  let tcomp := x.tcompStop - x.tcompStart
  let waitTime := x.waitStop - x.waitStart
  let localErrors :=
    if validates o rank rc then intWrap (p.localErrors + e.overlapErrors i) else p.localErrors
  let trace := p.trace ++ iterationCalls o rc
  if skip ≤ i then
    { timer := p.timer + (x.tStop - x.tStart)
      tcompTotal := p.tcompTotal + tcomp
      waitTotal := p.waitTotal + waitTime
      testTotal := p.testTotal + x.testTime
      initTotal := p.initTotal + initTime
      localErrors, trace
      graph := if o.graph && rank == 0 then p.graph ++ [(i - skip, (x.tStop - x.tStart) * 1e6)]
        else p.graph }
  else { p with localErrors, trace }

section
variable (o : Options) (skip rank : Nat) (rc : List Int) (t : Float) (e : RoundEnv)
  (p : OverlapPass) (i : Nat)

@[simp] theorem overlapIteration_localErrors : (overlapIteration o skip rank rc t e p i).localErrors =
    if validates o rank rc then intWrap (p.localErrors + e.overlapErrors i) else p.localErrors := by
  by_cases h : skip ≤ i <;> simp [overlapIteration, h]

@[simp] theorem overlapIteration_trace :
    (overlapIteration o skip rank rc t e p i).trace = p.trace ++ iterationCalls o rc := by
  by_cases h : skip ≤ i <;> simp [overlapIteration, h]

@[simp] theorem overlapIteration_graph : (overlapIteration o skip rank rc t e p i).graph =
    if skip ≤ i then (if o.graph && rank == 0 then
      p.graph ++ [(i - skip, ((e.overlap t i).tStop - (e.overlap t i).tStart) * 1e6)] else p.graph)
    else p.graph := by
  by_cases h : skip ≤ i <;> simp [overlapIteration, h]

end

/-- The overlap pass, from the accumulators zeroed at lines 168-170. -/
def overlapPass (o : Options) (iterations skip rank : Nat) (rc : List Int) (latencyInSecs : Float)
    (e : RoundEnv) (localErrors : Int) (graph : List (Nat × Float)) (trace : List Coll) :
    OverlapPass :=
  (List.range (iterations + skip)).foldl (overlapIteration o skip rank rc latencyInSecs e)
    ⟨0.0, 0.0, 0.0, 0.0, 0.0, localErrors, graph, trace⟩

/-! ## Loops over the iteration range -/

section
variable {α : Type}

/-- A loop over `iterations + skip` iterations that updates from iteration `skip` on performs
exactly the updates of the window `skip .. skip + iterations - 1`, in order. -/
theorem foldl_window (u : α → Nat → α) (a : α) (iterations skip : Nat) :
    (List.range (iterations + skip)).foldl (fun acc i => if skip ≤ i then u acc i else acc) a =
      (List.range iterations).foldl (fun acc j => u acc (skip + j)) a := by
  have hskip : ∀ (l : List Nat) (b : α), (∀ i ∈ l, i < skip) →
      l.foldl (fun acc i => if skip ≤ i then u acc i else acc) b = b := by
    intro l
    induction l with
    | nil => intro _ _; rfl
    | cons i l ih =>
      intro b h
      rw [List.foldl_cons, if_neg (by have := h i (by simp); omega)]
      exact ih b fun j hj => h j (by simp [hj])
  rw [Nat.add_comm, List.range_add, List.foldl_append,
    hskip _ _ fun i hi => List.mem_range.mp hi, List.foldl_map]
  congr 1
  funext acc j
  rw [if_pos (by omega)]

theorem foldl_const_append (l : List Nat) (xs t : List α) :
    l.foldl (fun acc _ => acc ++ xs) t = t ++ l.flatMap fun _ => xs := by
  induction l generalizing t with
  | nil => simp
  | cons i l ih => simp [ih]

theorem foldl_append_singleton (f : Nat → α) (n : Nat) :
    (List.range n).foldl (fun acc j => acc ++ [f j]) [] = (List.range n).map f := by
  induction n with
  | zero => rfl
  | succ n ih => rw [List.range_succ, List.foldl_append, ih]; simp

end

/-- A loop of wrapping `+=`, from an `int`, wraps the exact sum once. -/
theorem foldl_intWrap_add_if (c : Bool) (f : Nat → Nat) (l : List Nat) {a : Int}
    (ha : intWrap a = a) : l.foldl (fun acc i => if c then intWrap (acc + f i) else acc) a =
      intWrap (a + ((if c then (l.map f).sum else 0 : Nat) : Int)) := by
  cases c
  · simpa [List.foldl_fixed'] using ha.symm
  · induction l generalizing a with
    | nil => simpa using ha.symm
    | cons i l ih =>
      simp only [if_true, List.foldl_cons] at ih ⊢
      rw [ih (intWrap_intWrap _), intWrap_add_intWrap]
      simp [Int.add_assoc]

/-! ## What each pass computes -/

section
variable (o : Options) (iterations skip rank : Nat) (rc : List Int) (e : RoundEnv)
  (localErrors : Int) (trace : List Coll)

/-- The sum of `f` over the measured iterations, accumulated left to right from `0.0`. -/
def windowSum (iterations skip : Nat) (f : Nat → Float) : Float :=
  (List.range iterations).foldl (fun acc j => acc + f (skip + j)) 0.0

/-- The validation counts one pass of `iterations + skip` iterations adds to `local_errors`. -/
def passErrors (o : Options) (iterations skip rank : Nat) (rc : List Int) (f : Nat → Nat) : Nat :=
  if validates o rank rc then ((List.range (iterations + skip)).map f).sum else 0

theorem latencyPass_timer : (latencyPass o iterations skip rank rc e localErrors trace).timer =
    windowSum iterations skip fun i => (e.latency i).tStop - (e.latency i).tStart := by
  rw [latencyPass, ← List.foldl_hom LatencyPass.timer (latencyIteration o skip rank rc e)
    (fun acc i => if skip ≤ i then acc + ((e.latency i).tStop - (e.latency i).tStart) else acc)
    _ _ (fun _ _ => rfl), foldl_window]
  rfl

theorem latencyPass_localErrors (h : intWrap localErrors = localErrors) :
    (latencyPass o iterations skip rank rc e localErrors trace).localErrors =
      intWrap (localErrors + passErrors o iterations skip rank rc e.latencyErrors) := by
  rw [latencyPass, ← List.foldl_hom LatencyPass.localErrors (latencyIteration o skip rank rc e)
    (fun acc i => if validates o rank rc then intWrap (acc + e.latencyErrors i) else acc) _ _
    (fun _ _ => rfl), foldl_intWrap_add_if _ _ _ h]
  rfl

theorem latencyPass_trace : (latencyPass o iterations skip rank rc e localErrors trace).trace =
    trace ++ (List.range (iterations + skip)).flatMap fun _ => iterationCalls o rc := by
  rw [latencyPass, ← List.foldl_hom LatencyPass.trace (latencyIteration o skip rank rc e)
    (fun acc _ => acc ++ iterationCalls o rc) _ _ (fun _ _ => rfl), foldl_const_append]

variable (latencyInSecs : Float) (graph : List (Nat × Float))

/-- Every accumulator of the overlap pass is the window sum of its sample. -/
theorem overlapPass_accumulators :
    let p := overlapPass o iterations skip rank rc latencyInSecs e localErrors graph trace
    let x := e.overlap latencyInSecs
    p.timer = windowSum iterations skip (fun i => (x i).tStop - (x i).tStart) ∧
    p.tcompTotal = windowSum iterations skip (fun i => (x i).tcompStop - (x i).tcompStart) ∧
    p.waitTotal = windowSum iterations skip (fun i => (x i).waitStop - (x i).waitStart) ∧
    p.testTotal = windowSum iterations skip (fun i => (x i).testTime) ∧
    p.initTotal = windowSum iterations skip (fun i => (x i).initStop - (x i).initStart) := by
  have step (f : OverlapPass → Float) (g : Nat → Float)
      (hu : ∀ p i, skip ≤ i → f (overlapIteration o skip rank rc latencyInSecs e p i) = f p + g i)
      (hs : ∀ p i, ¬ skip ≤ i → f (overlapIteration o skip rank rc latencyInSecs e p i) = f p)
      (hb : f ⟨0.0, 0.0, 0.0, 0.0, 0.0, localErrors, graph, trace⟩ = 0.0) :
      f (overlapPass o iterations skip rank rc latencyInSecs e localErrors graph trace) =
        windowSum iterations skip g := by
    rw [overlapPass, ← List.foldl_hom f _ (fun acc i => if skip ≤ i then acc + g i else acc) _ _
      (fun p i => by by_cases h : skip ≤ i <;> simp [h, hu, hs]), hb, foldl_window]
    rfl
  refine ⟨step _ _ (fun _ _ h => ?_) (fun _ _ h => ?_) rfl,
    step _ _ (fun _ _ h => ?_) (fun _ _ h => ?_) rfl, step _ _ (fun _ _ h => ?_)
    (fun _ _ h => ?_) rfl, step _ _ (fun _ _ h => ?_) (fun _ _ h => ?_) rfl,
    step _ _ (fun _ _ h => ?_) (fun _ _ h => ?_) rfl⟩ <;> simp [overlapIteration, h]

theorem overlapPass_localErrors (h : intWrap localErrors = localErrors) :
    (overlapPass o iterations skip rank rc latencyInSecs e localErrors graph trace).localErrors =
      intWrap (localErrors + passErrors o iterations skip rank rc e.overlapErrors) := by
  rw [overlapPass, ← List.foldl_hom OverlapPass.localErrors _
    (fun acc i => if validates o rank rc then intWrap (acc + e.overlapErrors i) else acc) _ _
    (fun p i => (overlapIteration_localErrors ..).symm), foldl_intWrap_add_if _ _ _ h]
  rfl

theorem overlapPass_trace :
    (overlapPass o iterations skip rank rc latencyInSecs e localErrors graph trace).trace =
      trace ++ (List.range (iterations + skip)).flatMap fun _ => iterationCalls o rc := by
  rw [overlapPass, ← List.foldl_hom OverlapPass.trace _ (fun acc _ => acc ++ iterationCalls o rc)
    _ _ (fun p i => (overlapIteration_trace ..).symm), foldl_const_append]

/-- The graph writes of the overlap pass, from an empty buffer: on rank 0 with graphs on, the
indices `0 .. iterations - 1` once each in order, holding the measured latencies. -/
theorem overlapPass_graph :
    (overlapPass o iterations skip rank rc latencyInSecs e localErrors [] trace).graph =
      if o.graph && rank == 0 then (List.range iterations).map fun j =>
        (j, ((e.overlap latencyInSecs (skip + j)).tStop -
          (e.overlap latencyInSecs (skip + j)).tStart) * 1e6)
      else [] := by
  let v := fun i => ((e.overlap latencyInSecs i).tStop - (e.overlap latencyInSecs i).tStart) * 1e6
  rw [overlapPass, ← List.foldl_hom OverlapPass.graph _ (fun acc i => if skip ≤ i then
    (if o.graph && rank == 0 then acc ++ [(i - skip, v i)] else acc) else acc) _ _
    (fun p i => (overlapIteration_graph ..).symm), foldl_window]
  cases o.graph && rank == 0
  · simp only [Bool.false_eq_true, if_false]; exact List.foldl_fixed' (fun _ => rfl) _
  · simp only [if_true, Nat.add_sub_cancel_left]
    exact foldl_append_singleton (fun j => (j, v (skip + j))) iterations

end

end OsuMicroBenchmarks.IreduceScatter
