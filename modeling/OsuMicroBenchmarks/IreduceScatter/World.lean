import OsuMicroBenchmarks.IreduceScatter.Passes

/-!
# The ranks of `osu_ireduce_scatter`, round by round

Every rank runs the same `main`. Between collective calls a rank computes alone, from values
only it sees: its rank number, its timer readings, what `dummy_compute` and
`validate_reduce_scatter` return to it, and what `allocate_memory_coll` left in `recvcounts`
(a `RankEnv`). The one value that flows from the other ranks into a rank's control is the sum
the `MPI_Allreduce` of line 216 returns.

`World.step` runs one size round of every rank: each rank's part up to the `MPI_Allreduce`
(`Rank.beforeAllreduce`), the sum of the ranks' `local_errors`, and each rank's remainder of
the round (`Rank.afterAllreduce`), which breaks out of the size loop on a non-zero sum. The
counters `local_errors` and `errors` are `int`s and the sum is `MPI_SUM` over `MPI_INT`, so all
three wrap (`intWrap`).

While the counts of a round sum to at most `INT_MAX`, nothing wraps: the sum of round `k` is
the sum of the counts of round `k` alone, and the loop stops right after the first round with
an error (`World.Tally`, `local_errors_fail_fast`). Past `INT_MAX` the sum can wrap to zero
(`local_errors_sum_wraps`).

`Control` is the part of a rank's state its control flow and its collective calls depend on,
and `Control.step` a round of it, given the sum. `Rank.round_control` shows that a rank's round
is a `Control.step` whatever the rank and its local values, so every rank of a run follows the
one `Control.run` over the sums of the run (`collective_calls_agree`). What a rank hands to
`calculate_and_print_stats` besides is its own: the timings of its round's samples
(`roundTimings`, `round_statistics`).
-/

namespace OsuMicroBenchmarks.IreduceScatter

/-- The rank-local values of one rank: what `allocate_memory_coll` left in `recvcounts`, and
what the rank observes in each round. -/
structure RankEnv where
  recvcounts : Nat → Int
  round : Nat → RoundEnv

/-- The timings a rank hands to `calculate_and_print_stats` (line 219): the overlap pass's
`timer`, the latency pass's mean `latency` in microseconds, and the overlap pass's
accumulators. -/
structure Timings where
  timer : Float
  latency : Float
  testTotal : Float
  tcompTotal : Float
  waitTotal : Float
  initTotal : Float

/-- The variables of one rank's `main` that outlive a size round. `iterations` and `skip` are
`options.iterations` and `options.skip`, which the large-message switch overwrites; `timings`
are the doubles handed to `calculate_and_print_stats`, and `reports` lists those of every call
so far; `looping` says whether the rank is still in the size loop. -/
structure Rank where
  size : Nat
  iterations : Nat
  skip : Nat
  recvcounts : List Int
  localErrors : Int
  errors : Int
  timings : Timings
  reports : List Timings
  trace : List Coll
  looping : Bool

/-- A rank's round up to the `MPI_Allreduce` (lines 107-214); `latency_in_secs` is the latency
pass's mean. -/
def Rank.beforeAllreduce (M : Macros) (o : Options) (numprocs rank : Nat) (e : RoundEnv)
    (x : Rank) : Rank :=
  let iterations := (ireduceScatterSwitch M o x.size x.iterations x.skip).1
  let skip := (ireduceScatterSwitch M o x.size x.iterations x.skip).2
  let rc := fillRecvcounts x.size numprocs x.recvcounts
  let lat := latencyPass o iterations skip rank rc e x.localErrors (x.trace ++ [.barrier])
  let latencyInSecs := lat.timer / iterations.toFloat
  let ov := overlapPass o iterations skip rank rc latencyInSecs e lat.localErrors []
    (lat.trace ++ [.barrier, .barrier])
  { x with iterations, skip, recvcounts := rc, localErrors := ov.localErrors,
           timings := ⟨ov.timer, lat.timer * 1e6 / iterations.toFloat, ov.testTotal, ov.tcompTotal,
             ov.waitTotal, ov.initTotal⟩,
           trace := ov.trace ++ [.barrier] }

/-- The rest of a round once the `MPI_Allreduce` has returned `total` (lines 215-229), then the
loop's update and guard. `size * 2` is the `int` product wherever C defines it, which
`ireduceScatterSeries` says: for `max_message_size < 2^32` no doubling a run reaches passes
`INT_MAX`. -/
def Rank.afterAllreduce (o : Options) (numprocs : Nat) (total : Int) (x : Rank) : Rank :=
  let errors := if o.validate then total else x.errors
  let trace := x.trace ++ (if o.validate then [.allreduce] else []) ++
    [.stats (x.size * sizeofFloat) numprocs errors]
  let reports := x.reports ++ [x.timings]
  if errors ≠ 0 then { x with errors, reports, trace, looping := false }
  else { x with errors, reports, trace, size := x.size * 2,
                looping := ireduceScatterGuard o (x.size * 2) }

/-- The `DATA VALIDATION ERROR` exit of lines 248-252: the size rank `rank` reports, if any. -/
def Rank.exitReport (o : Options) (rank : Nat) (x : Rank) : Option Nat :=
  if x.errors ≠ 0 ∧ o.validate ∧ rank = 0 then some x.size else none

/-- Every rank, and the sums the `MPI_Allreduce` of each round so far returned. -/
structure World where
  ranks : Nat → Rank
  totals : List Int

/-- The ranks on entering the size loop. -/
def World.init (M : Macros) (o : Options) (numprocs : Nat) (env : Nat → RankEnv) : World where
  ranks r :=
    { size := ireduceScatterStart M o, iterations := o.iterations, skip := o.skip,
      recvcounts := (List.range numprocs).map (env r).recvcounts, localErrors := 0, errors := 0,
      timings := ⟨0.0, 0.0, 0.0, 0.0, 0.0, 0.0⟩, reports := [], trace := [],
      looping := ireduceScatterGuard o (ireduceScatterStart M o) }
  totals := []

/-- One size round of every rank; the `MPI_Allreduce` adds the ranks' `local_errors` as
`MPI_INT`s. -/
def World.step (M : Macros) (o : Options) (numprocs : Nat) (env : Nat → RankEnv) (w : World) :
    World :=
  let mid := fun r => (w.ranks r).beforeAllreduce M o numprocs r ((env r).round w.totals.length)
  let total := intWrap ((List.range numprocs).map fun r => (mid r).localErrors).sum
  { ranks := fun r => (mid r).afterAllreduce o numprocs total, totals := w.totals ++ [total] }

/-- Every rank is still in the size loop. -/
def World.looping (numprocs : Nat) (w : World) : Bool :=
  (List.range numprocs).all fun r => (w.ranks r).looping

/-- At most `fuel` rounds, while every rank is in the size loop. -/
def World.run (M : Macros) (o : Options) (numprocs : Nat) (env : Nat → RankEnv) :
    Nat → World → World
  | 0, w => w
  | fuel + 1, w => if w.looping numprocs then World.run M o numprocs env fuel (w.step M o numprocs env)
    else w

/-! ## The control of a rank -/

/-- What a rank's control flow and collective calls depend on. -/
structure Control where
  size : Nat
  iterations : Nat
  skip : Nat
  errors : Int
  trace : List Coll
  looping : Bool
deriving DecidableEq

def Rank.control (x : Rank) : Control := ⟨x.size, x.iterations, x.skip, x.errors, x.trace, x.looping⟩

/-- The control every rank starts the size loop with. -/
def Control.init (M : Macros) (o : Options) : Control :=
  ⟨ireduceScatterStart M o, o.iterations, o.skip, 0, [], ireduceScatterGuard o (ireduceScatterStart M o)⟩

/-- The collective calls of a pass over `iterations + skip` iterations. -/
def passCalls (o : Options) (iterations skip : Nat) (rc : List Int) : List Coll :=
  (List.range (iterations + skip)).flatMap fun _ => iterationCalls o rc

/-- The collective calls of a round up to the `MPI_Allreduce`. -/
def roundCalls (o : Options) (numprocs size iterations skip : Nat) : List Coll :=
  let rc := (List.range numprocs).map (share size numprocs)
  [.barrier] ++ passCalls o iterations skip rc ++ [.barrier, .barrier] ++
    passCalls o iterations skip rc ++ [.barrier]

/-- The control's round up to the `MPI_Allreduce`. -/
def Control.beforeAllreduce (M : Macros) (o : Options) (numprocs : Nat) (c : Control) : Control :=
  let iterations := (ireduceScatterSwitch M o c.size c.iterations c.skip).1
  let skip := (ireduceScatterSwitch M o c.size c.iterations c.skip).2
  { c with iterations, skip, trace := c.trace ++ roundCalls o numprocs c.size iterations skip }

/-- The control's remainder of a round, given the sum the `MPI_Allreduce` returns. -/
def Control.afterAllreduce (o : Options) (numprocs : Nat) (total : Int) (c : Control) : Control :=
  let errors := if o.validate then total else c.errors
  let trace := c.trace ++ (if o.validate then [.allreduce] else []) ++
    [.stats (c.size * sizeofFloat) numprocs errors]
  if errors ≠ 0 then { c with errors, trace, looping := false }
  else { c with errors, trace, size := c.size * 2, looping := ireduceScatterGuard o (c.size * 2) }

/-- A round of the control. -/
def Control.step (M : Macros) (o : Options) (numprocs : Nat) (c : Control) (total : Int) :
    Control :=
  (c.beforeAllreduce M o numprocs).afterAllreduce o numprocs total

/-- The control after the rounds whose sums are `totals`. -/
def Control.run (M : Macros) (o : Options) (numprocs : Nat) (totals : List Int) : Control :=
  totals.foldl (Control.step M o numprocs) (Control.init M o)

theorem Control.run_append_singleton (M : Macros) (o : Options) (numprocs : Nat)
    (totals : List Int) (total : Int) : Control.run M o numprocs (totals ++ [total]) =
      (Control.run M o numprocs totals).step M o numprocs total := by
  simp [Control.run]

/-- The counts `validate_reduce_scatter` returns to `rank` in the two passes of a round of
`size`, from `options.iterations` and `options.skip` before the switch. -/
def roundErrors (M : Macros) (o : Options) (numprocs rank : Nat) (e : RoundEnv)
    (size iterations skip : Nat) : Nat :=
  let it := (ireduceScatterSwitch M o size iterations skip).1
  let sk := (ireduceScatterSwitch M o size iterations skip).2
  let rc := (List.range numprocs).map (share size numprocs)
  passErrors o it sk rank rc e.latencyErrors + passErrors o it sk rank rc e.overlapErrors

/-- The timings a rank observing `e` hands to `calculate_and_print_stats` in a round of `size`,
from `options.iterations` and `options.skip` before the switch: `latency` is the mean of the
latency pass's measured samples in microseconds, and the overlap pass, whose `dummy_compute`
is given that mean in seconds, sums its own measured samples. -/
def roundTimings (M : Macros) (o : Options) (e : RoundEnv) (size iterations skip : Nat) : Timings :=
  let it := (ireduceScatterSwitch M o size iterations skip).1
  let sk := (ireduceScatterSwitch M o size iterations skip).2
  let timer := windowSum it sk fun i => (e.latency i).tStop - (e.latency i).tStart
  let x := e.overlap (timer / it.toFloat)
  ⟨windowSum it sk (fun i => (x i).tStop - (x i).tStart), timer * 1e6 / it.toFloat,
    windowSum it sk (fun i => (x i).testTime),
    windowSum it sk (fun i => (x i).tcompStop - (x i).tcompStart),
    windowSum it sk (fun i => (x i).waitStop - (x i).waitStart),
    windowSum it sk (fun i => (x i).initStop - (x i).initStart)⟩

/-! ## A rank's round refines the control's -/

section
variable (M : Macros) (o : Options) (numprocs rank : Nat) (e : RoundEnv) (x : Rank)

theorem Rank.beforeAllreduce_recvcounts_length (hlen : x.recvcounts.length = numprocs) :
    (x.beforeAllreduce M o numprocs rank e).recvcounts.length = numprocs := by
  simp [Rank.beforeAllreduce, hlen]

/-- A rank's round adds its counts to `local_errors`, wrapping as `int` arithmetic does. -/
theorem Rank.beforeAllreduce_localErrors (hlen : x.recvcounts.length = numprocs)
    (hx : intWrap x.localErrors = x.localErrors) :
    (x.beforeAllreduce M o numprocs rank e).localErrors = intWrap (x.localErrors +
      roundErrors M o numprocs rank e x.size x.iterations x.skip) := by
  have hlat := latencyPass_localErrors o (ireduceScatterSwitch M o x.size x.iterations x.skip).1
    (ireduceScatterSwitch M o x.size x.iterations x.skip).2 rank
    (fillRecvcounts x.size numprocs x.recvcounts) e x.localErrors (x.trace ++ [.barrier]) hx
  simp only [Rank.beforeAllreduce]
  rw [overlapPass_localErrors _ _ _ _ _ _ _ _ _ _ (by rw [hlat, intWrap_intWrap]), hlat,
    intWrap_add_intWrap, fillRecvcounts_eq hlen, roundErrors, Nat.cast_add, Int.add_assoc]

theorem Rank.beforeAllreduce_control (hlen : x.recvcounts.length = numprocs) :
    (x.beforeAllreduce M o numprocs rank e).control = x.control.beforeAllreduce M o numprocs := by
  simp [Rank.beforeAllreduce, Rank.control, Control.beforeAllreduce, overlapPass_trace,
    latencyPass_trace, fillRecvcounts_eq hlen, roundCalls, passCalls]

theorem Rank.afterAllreduce_control (total : Int) :
    (x.afterAllreduce o numprocs total).control = x.control.afterAllreduce o numprocs total := by
  unfold Rank.afterAllreduce Control.afterAllreduce
  rw [apply_ite Rank.control]
  rfl

/-- **A rank's round is the control's round**, whatever the rank number and its local values. -/
theorem Rank.round_control (hlen : x.recvcounts.length = numprocs) (total : Int) :
    ((x.beforeAllreduce M o numprocs rank e).afterAllreduce o numprocs total).control =
      x.control.step M o numprocs total := by
  rw [Rank.afterAllreduce_control, Rank.beforeAllreduce_control _ _ _ _ _ _ hlen]
  rfl

theorem Rank.afterAllreduce_localErrors (total : Int) :
    (x.afterAllreduce o numprocs total).localErrors = x.localErrors := by
  unfold Rank.afterAllreduce; dsimp only; rw [apply_ite Rank.localErrors, ite_self]

theorem Rank.afterAllreduce_recvcounts (total : Int) :
    (x.afterAllreduce o numprocs total).recvcounts = x.recvcounts := by
  unfold Rank.afterAllreduce; dsimp only; rw [apply_ite Rank.recvcounts, ite_self]

theorem Rank.beforeAllreduce_timings :
    (x.beforeAllreduce M o numprocs rank e).timings = roundTimings M o e x.size x.iterations x.skip := by
  let it := (ireduceScatterSwitch M o x.size x.iterations x.skip).1
  let sk := (ireduceScatterSwitch M o x.size x.iterations x.skip).2
  let rc := fillRecvcounts x.size numprocs x.recvcounts
  let lat := latencyPass o it sk rank rc e x.localErrors (x.trace ++ [.barrier])
  obtain ⟨h₁, h₂, h₃, h₄, h₅⟩ := overlapPass_accumulators o it sk rank rc e lat.localErrors
    (lat.trace ++ [.barrier, .barrier]) (lat.timer / it.toFloat) []
  simp only [Rank.beforeAllreduce, roundTimings]
  rw [h₁, h₂, h₃, h₄, h₅, latencyPass_timer]

theorem Rank.afterAllreduce_reports (total : Int) :
    (x.afterAllreduce o numprocs total).reports = x.reports ++ [x.timings] := by
  unfold Rank.afterAllreduce; dsimp only; rw [apply_ite Rank.reports, ite_self]

theorem roundErrors_of_validate_false (h : o.validate = false) (size iterations skip : Nat) :
    roundErrors M o numprocs rank e size iterations skip = 0 := by
  simp [roundErrors, passErrors, validates, h]

/-- The counts of a rank's round, with the guard of lines 150-155 and 196-201 spelled out:
`validate_reduce_scatter` runs when `options.validate` is on and `recvcounts[rank]` is not
zero. -/
theorem roundErrors_eq (hr : rank < numprocs) (size iterations skip : Nat) :
    roundErrors M o numprocs rank e size iterations skip =
      let it := (ireduceScatterSwitch M o size iterations skip).1
      let sk := (ireduceScatterSwitch M o size iterations skip).2
      if o.validate = true ∧ recvcount size numprocs rank ≠ 0 then
        ((List.range (it + sk)).map fun i => e.latencyErrors i + e.overlapErrors i).sum
      else 0 := by
  have hrc : ((List.range numprocs).map (share size numprocs)).getD rank 0 =
      recvcount size numprocs rank := by
    simp [List.getD_eq_getElem?_getD, hr, recvcount_eq]
  simp only [roundErrors, passErrors, validates, hrc, List.sum_map_add]
  cases o.validate <;> by_cases hz : recvcount size numprocs rank = 0 <;> simp [hz]

end

/-- With validation on, a rank is still in the loop after a round only if the sum was zero. -/
theorem Rank.afterAllreduce_looping {o : Options} {numprocs : Nat} {total : Int} {x : Rank}
    (h : (x.afterAllreduce o numprocs total).looping = true) (hv : o.validate = true) :
    total = 0 := by
  by_contra ht
  simp [Rank.afterAllreduce, hv, ht] at h

section
variable (M : Macros) (o : Options) (numprocs : Nat) (c : Control) (total : Int)

theorem Control.step_errors :
    (c.step M o numprocs total).errors = if o.validate then total else c.errors := by
  simp only [Control.step, Control.afterAllreduce, Control.beforeAllreduce]
  split <;> split <;> rfl

/-- A round whose `errors` is non-zero breaks out of the loop at its own size. -/
theorem Control.step_of_errors_ne_zero (h : (if o.validate then total else c.errors) ≠ 0) :
    (c.step M o numprocs total).looping = false ∧ (c.step M o numprocs total).size = c.size := by
  simp [Control.step, Control.afterAllreduce, Control.beforeAllreduce, h]

theorem Control.step_looping (h : (c.step M o numprocs total).looping = true)
    (hv : o.validate = true) : total = 0 := by
  by_contra ht
  simp [Control.step, Control.afterAllreduce, hv, ht] at h

/-- `errors` holds the last round's sum, or 0 without validation. -/
theorem Control.run_errors : ∀ totals : List Int,
    (Control.run M o numprocs totals).errors = if o.validate then totals.getLast?.getD 0 else 0 := by
  intro totals
  induction totals using List.reverseRecOn with
  | nil => simp [Control.run, Control.init]
  | append_singleton ts t ih =>
    rw [Control.run_append_singleton, Control.step_errors, ih]
    cases o.validate <;> simp

end

/-! ## Runs of the world -/

section
variable {M : Macros} {o : Options} {numprocs : Nat} {env : Nat → RankEnv}

/-- The invariant of the world along a run: every rank's control is the control's run over the
sums so far, `recvcounts` keeps its `numprocs` entries, and `local_errors` holds an `int`. -/
structure World.Inv (M : Macros) (o : Options) (numprocs : Nat) (w : World) : Prop where
  control : ∀ r < numprocs, (w.ranks r).control = Control.run M o numprocs w.totals
  recvcounts : ∀ r < numprocs, (w.ranks r).recvcounts.length = numprocs
  localErrors : ∀ r < numprocs, intWrap (w.ranks r).localErrors = (w.ranks r).localErrors

theorem World.Inv.init : (World.init M o numprocs env).Inv M o numprocs :=
  ⟨fun _ _ => rfl, fun _ _ => by simp [World.init], fun _ _ => rfl⟩

theorem World.looping_iff {w : World} :
    w.looping numprocs = true ↔ ∀ r < numprocs, (w.ranks r).looping = true := by
  simp [World.looping]

theorem World.Inv.step {w : World} (h : w.Inv M o numprocs) :
    (w.step M o numprocs env).Inv M o numprocs := by
  refine ⟨fun r hr => ?_, fun r hr => ?_, fun r hr => ?_⟩
  · simp only [World.step]
    rw [Rank.round_control _ _ _ _ _ _ (h.recvcounts r hr), h.control r hr,
      Control.run_append_singleton]
  · simp only [World.step]
    rw [Rank.afterAllreduce_recvcounts, Rank.beforeAllreduce_recvcounts_length _ _ _ _ _ _
      (h.recvcounts r hr)]
  · simp only [World.step]
    rw [Rank.afterAllreduce_localErrors, Rank.beforeAllreduce_localErrors _ _ _ _ _ _
      (h.recvcounts r hr) (h.localErrors r hr), intWrap_intWrap]

theorem World.Inv.run : ∀ (fuel : Nat) {w : World}, w.Inv M o numprocs →
    (World.run M o numprocs env fuel w).Inv M o numprocs
  | 0, _, h => h
  | fuel + 1, w, h => by
    rw [World.run]
    split
    · exact World.Inv.run fuel h.step
    · exact h

end

/-- A property that every round of a world satisfying the invariant keeps holds after any
number of rounds. -/
theorem World.run_induction (P : World → Prop)
    (step : ∀ w, w.Inv M o numprocs → w.looping numprocs = true → P w → P (w.step M o numprocs env)) :
    ∀ (fuel : Nat) {w : World}, w.Inv M o numprocs → P w → P (World.run M o numprocs env fuel w)
  | 0, _, _, h => h
  | fuel + 1, w, hi, h => by
    rw [World.run]
    split
    · exact World.run_induction P step fuel hi.step (step w hi ‹_› h)
    · exact h

/-! ## What a run records -/

section
variable {M : Macros} {o : Options} {numprocs : Nat} {env : Nat → RankEnv}

/-- Every round of a run began with the ranks in the loop. -/
def World.Record (M : Macros) (o : Options) (numprocs : Nat) (w : World) : Prop :=
  ∀ k < w.totals.length, (Control.run M o numprocs (w.totals.take k)).looping = true

theorem World.Record.step {w : World} (hn : 0 < numprocs) (h : w.Inv M o numprocs)
    (hr : w.Record M o numprocs) (hl : w.looping numprocs = true) :
    (w.step M o numprocs env).Record M o numprocs := by
  intro k hk
  simp only [World.step, List.length_append, List.length_singleton] at hk ⊢
  rw [List.take_append_of_le_length (by omega)]
  rcases Nat.lt_succ_iff_lt_or_eq.mp hk with hk | rfl
  · exact hr k hk
  · rw [List.take_length, ← h.control 0 hn]
    exact World.looping_iff.mp hl 0 hn

theorem World.Record.run (hn : 0 < numprocs) (fuel : Nat) {w : World} (h : w.Inv M o numprocs)
    (hr : w.Record M o numprocs) : (World.run M o numprocs env fuel w).Record M o numprocs :=
  World.run_induction _ (fun _ hi hl hr => hr.step hn hi hl) fuel h hr

/-- A run goes on past a round only if, with validation on, its sum was zero. -/
theorem World.Record.total_eq_zero {w : World} (hr : w.Record M o numprocs)
    (hv : o.validate = true) {k : Nat} (hk : k + 1 < w.totals.length) :
    w.totals[k] = 0 := by
  have := hr (k + 1) hk
  rw [← List.take_concat_get _ _ (by omega), List.concat_eq_append,
    Control.run_append_singleton] at this
  exact Control.step_looping _ _ _ _ _ this hv

/-- With validation on, a round whose sum is non-zero is the last of the run, and every rank
has left the loop at that round's size. -/
theorem World.Record.stop {w : World} (hi : w.Inv M o numprocs) (hr : w.Record M o numprocs)
    (hv : o.validate = true) {k : Nat} (hk : k < w.totals.length) (ht : w.totals[k] ≠ 0) :
    k + 1 = w.totals.length ∧ ∀ r < numprocs, (w.ranks r).looping = false ∧
      (w.ranks r).size = (Control.run M o numprocs (w.totals.take k)).size := by
  have hlen : k + 1 = w.totals.length := by
    by_contra hne; exact ht (hr.total_eq_zero hv (by omega))
  have hstep : Control.run M o numprocs w.totals =
      (Control.run M o numprocs (w.totals.take k)).step M o numprocs w.totals[k] := by
    rw [← Control.run_append_singleton, ← List.concat_eq_append, List.take_concat_get _ _ hk,
      hlen, List.take_length]
  have hbreak := Control.step_of_errors_ne_zero M o numprocs
    (Control.run M o numprocs (w.totals.take k)) w.totals[k] (by simpa [hv] using ht)
  refine ⟨hlen, fun r hr' => ?_⟩
  have hc := (hi.control r hr').trans hstep
  exact ⟨(congrArg Control.looping hc).trans hbreak.1, (congrArg Control.size hc).trans hbreak.2⟩

/-- Rank 0 reports a size in its `DATA VALIDATION ERROR` exit exactly when validation is on and a
round of the run had a non-zero sum, and the size it reports is that round's. -/
theorem World.Record.exitReport_iff {w : World} (hn : 0 < numprocs) (hi : w.Inv M o numprocs)
    (hr : w.Record M o numprocs) (s : Nat) :
    (w.ranks 0).exitReport o 0 = some s ↔ o.validate = true ∧ ∃ k, ∃ hk : k < w.totals.length,
      w.totals[k] ≠ 0 ∧ s = (Control.run M o numprocs (w.totals.take k)).size := by
  have he : (w.ranks 0).errors = if o.validate then w.totals.getLast?.getD 0 else 0 :=
    (congrArg Control.errors (hi.control 0 hn)).trans (Control.run_errors ..)
  by_cases hfail : o.validate = true ∧ ∃ k, ∃ hk : k < w.totals.length, w.totals[k] ≠ 0
  · obtain ⟨hv, k, hk, h0⟩ := hfail
    obtain ⟨hlen, hranks⟩ := hr.stop hi hv hk h0
    have hlast : w.totals.getLast?.getD 0 = w.totals[k] := by
      rw [List.getLast?_eq_getElem?]; simp [← hlen]
    have hrep : (w.ranks 0).exitReport o 0 = some (Control.run M o numprocs (w.totals.take k)).size := by
      simp [Rank.exitReport, he, hv, hlast, h0, (hranks 0 hn).2]
    rw [hrep]
    constructor
    · rintro ⟨⟩; exact ⟨hv, k, hk, h0, rfl⟩
    · rintro ⟨-, k', hk', h0', rfl⟩
      rw [show k' = k by have := (hr.stop hi hv hk' h0').1; omega]
  · have hz : (w.ranks 0).errors = 0 := by
      rw [he]
      split
      · next hv =>
        cases hl : w.totals.getLast? with
        | none => rfl
        | some t =>
          obtain ⟨k, hk, rfl⟩ := List.mem_iff_getElem.mp (List.mem_of_getLast?_eq_some hl)
          exact Classical.byContradiction fun h0 => hfail ⟨hv, k, hk, h0⟩
      · rfl
    simp only [Rank.exitReport, hz, ne_eq, not_true_eq_false, false_and, if_false]
    exact iff_of_false (fun h => nomatch h) fun ⟨hv, k, hk, h0, _⟩ => hfail ⟨hv, k, hk, h0⟩

end

/-! ## The timings of every round -/

section
variable {M : Macros} {o : Options} {numprocs : Nat} {env : Nat → RankEnv}

/-- Every rank has reported, for each round so far, the timings `roundTimings` gives it. -/
def World.Reported (M : Macros) (o : Options) (numprocs : Nat) (env : Nat → RankEnv) (w : World) :
    Prop :=
  ∀ r < numprocs, (w.ranks r).reports = (List.range w.totals.length).map fun k =>
    let c := Control.run M o numprocs (w.totals.take k)
    roundTimings M o ((env r).round k) c.size c.iterations c.skip

theorem World.Reported.step {w : World} (h : w.Inv M o numprocs)
    (hr : w.Reported M o numprocs env) : (w.step M o numprocs env).Reported M o numprocs env := by
  intro r hr'
  simp only [World.step, Rank.afterAllreduce_reports, List.length_append, List.length_singleton,
    List.range_succ, List.map_append, List.map_singleton, Rank.beforeAllreduce_timings]
  refine congrArg₂ _ ((hr r hr').trans (List.map_congr_left fun k hk => ?_)) ?_
  · rw [List.take_append_of_le_length (by simpa using (List.mem_range.mp hk).le)]
  · rw [List.take_append_of_le_length le_rfl, List.take_length, ← h.control r hr']
    rfl

end

/-- **The timings of every round.** Along every run, each rank has called
`calculate_and_print_stats` once per round, and the timings it handed over in round `k` come
from that round's samples alone: `latency` is the mean of the latency pass's measured
iterations in microseconds, and `timer` and the overlap accumulators sum the overlap pass's
measured iterations, whose `dummy_compute` was given that mean in seconds. -/
theorem round_statistics (M : Macros) (o : Options) (numprocs : Nat) (env : Nat → RankEnv)
    (fuel : Nat) :
    let w := World.run M o numprocs env fuel (World.init M o numprocs env)
    ∀ r < numprocs, (w.ranks r).reports = (List.range w.totals.length).map fun k =>
      let c := Control.run M o numprocs (w.totals.take k)
      roundTimings M o ((env r).round k) c.size c.iterations c.skip :=
  World.run_induction (World.Reported M o numprocs env) (fun _ hi _ hr => hr.step hi) fuel
    World.Inv.init fun _ _ => rfl

/-! ## Every rank makes the same collective calls -/

/-- **Every rank makes the same collective calls and leaves the size loop in the same round.**
After any number of rounds, every rank's control (its collective calls with their receive
counts, its size, its `errors`, whether it is still in the loop) is `Control.run` over the sums
the `MPI_Allreduce` returned: a function of the options and `numprocs` and of nothing a rank
sees alone, so the same on every rank. -/
theorem collective_calls_agree (M : Macros) (o : Options) (numprocs : Nat)
    (env : Nat → RankEnv) (fuel : Nat) :
    let w := World.run M o numprocs env fuel (World.init M o numprocs env)
    (∀ r < numprocs, (w.ranks r).control = Control.run M o numprocs w.totals) ∧
    ∀ r₁ < numprocs, ∀ r₂ < numprocs, (w.ranks r₁).trace = (w.ranks r₂).trace ∧
      (w.ranks r₁).looping = (w.ranks r₂).looping ∧ (w.ranks r₁).size = (w.ranks r₂).size := by
  intro w
  have h : w.Inv M o numprocs := World.Inv.run fuel World.Inv.init
  replace h := h.control
  refine ⟨h, fun r₁ h₁ r₂ h₂ => ?_⟩
  have := (h r₁ h₁).trans (h r₂ h₂).symm
  simp only [Rank.control, Control.mk.injEq] at this
  exact ⟨this.2.2.2.2.1, this.2.2.2.2.2, this.1⟩

/-! ## The error sums -/

section
variable {M : Macros} {o : Options} {numprocs : Nat} {env : Nat → RankEnv}

/-- The sum over the ranks of the counts `validate_reduce_scatter` returned to them in round `k`
of a run. -/
def World.roundSum (M : Macros) (o : Options) (numprocs : Nat) (env : Nat → RankEnv) (w : World)
    (k : Nat) : Nat :=
  ((List.range numprocs).map fun r =>
    let c := Control.run M o numprocs (w.totals.take k)
    roundErrors M o numprocs r ((env r).round k) c.size c.iterations c.skip).sum

/-- A round leaves the sums of the rounds before it as they were. -/
theorem World.roundSum_step {w : World} {k : Nat} (hk : k ≤ w.totals.length) :
    (w.step M o numprocs env).roundSum M o numprocs env k = w.roundSum M o numprocs env k := by
  simp only [World.roundSum, World.step, List.take_append_of_le_length hk]

/-- A rank's counts in the round after the last one are at most the sum over the ranks. -/
theorem le_roundSum {w : World} {r : Nat} (hr : r < numprocs) :
    roundErrors M o numprocs r ((env r).round w.totals.length)
        (Control.run M o numprocs w.totals).size (Control.run M o numprocs w.totals).iterations
        (Control.run M o numprocs w.totals).skip ≤
      w.roundSum M o numprocs env w.totals.length := by
  rw [World.roundSum, List.take_length]
  exact List.le_sum_of_mem (List.mem_map.mpr ⟨r, List.mem_range.mpr hr, rfl⟩)

/-- What a run tallies while no sum of counts passes `INT_MAX`: a rank still in the size loop has
no `local_errors` left over, although nothing resets it, and the sum of every round is the sum of
that round's counts. -/
structure World.Tally (M : Macros) (o : Options) (numprocs : Nat) (env : Nat → RankEnv)
    (w : World) : Prop where
  localErrors : ∀ r < numprocs, (w.ranks r).looping = true → (w.ranks r).localErrors = 0
  totals : ∀ k (hk : k < w.totals.length), w.totals[k] = w.roundSum M o numprocs env k

theorem World.Tally.init : (World.init M o numprocs env).Tally M o numprocs env :=
  ⟨fun _ _ _ => rfl, fun _ h => absurd h (Nat.not_lt_zero _)⟩

/-- In a round whose counts fit in an `int`, every rank ends its passes with its own counts. -/
theorem World.Tally.mid {w : World} (h : w.Inv M o numprocs) (ht : w.Tally M o numprocs env)
    (hl : w.looping numprocs = true)
    (hfit : w.roundSum M o numprocs env w.totals.length ≤ intMax) {r : Nat} (hr : r < numprocs) :
    ((w.ranks r).beforeAllreduce M o numprocs r ((env r).round w.totals.length)).localErrors =
      let c := Control.run M o numprocs w.totals
      roundErrors M o numprocs r ((env r).round w.totals.length) c.size c.iterations c.skip := by
  have hle := @le_roundSum M o numprocs env w r hr
  dsimp only
  obtain ⟨hs, hi, hk⟩ : (w.ranks r).size = (Control.run M o numprocs w.totals).size ∧
      (w.ranks r).iterations = (Control.run M o numprocs w.totals).iterations ∧
      (w.ranks r).skip = (Control.run M o numprocs w.totals).skip := by
    rw [← h.control r hr]; exact ⟨rfl, rfl, rfl⟩
  rw [Rank.beforeAllreduce_localErrors _ _ _ _ _ _ (h.recvcounts r hr) (h.localErrors r hr),
    ht.localErrors r hr (World.looping_iff.mp hl r hr), Int.zero_add, hs, hi, hk]
  exact intWrap_of_le (by omega) (by simp only [intMax] at hfit ⊢; omega)

/-- The `MPI_Allreduce` of such a round returns the sum of its counts. -/
theorem World.Tally.step_total {w : World} (h : w.Inv M o numprocs) (ht : w.Tally M o numprocs env)
    (hl : w.looping numprocs = true)
    (hfit : w.roundSum M o numprocs env w.totals.length ≤ intMax) :
    intWrap ((List.range numprocs).map fun r =>
        ((w.ranks r).beforeAllreduce M o numprocs r ((env r).round w.totals.length)).localErrors).sum =
      w.roundSum M o numprocs env w.totals.length := by
  rw [List.map_congr_left fun r hr => ht.mid h hl hfit (List.mem_range.mp hr)]
  have := intWrap_of_le (x := w.roundSum M o numprocs env w.totals.length) (by omega)
    (by simp only [intMax] at hfit ⊢; omega)
  simpa only [World.roundSum, List.take_length, Nat.cast_list_sum, List.map_map,
    Function.comp_def] using this

theorem World.Tally.step {w : World} (h : w.Inv M o numprocs) (ht : w.Tally M o numprocs env)
    (hl : w.looping numprocs = true)
    (hfit : w.roundSum M o numprocs env w.totals.length ≤ intMax) :
    (w.step M o numprocs env).Tally M o numprocs env := by
  have htotal := ht.step_total h hl hfit
  refine ⟨fun r hr hlr => ?_, fun k hk => ?_⟩
  · simp only [World.step] at hlr ⊢
    rw [Rank.afterAllreduce_localErrors, ht.mid h hl hfit hr, Nat.cast_eq_zero]
    cases hv : o.validate
    · exact roundErrors_of_validate_false _ _ _ _ _ hv _ _ _
    · have hz := Rank.afterAllreduce_looping hlr hv
      rw [htotal, Nat.cast_eq_zero] at hz
      have := @le_roundSum M o numprocs env w r hr
      dsimp only
      omega
  · simp only [World.step, List.length_append, List.length_singleton] at hk
    rw [World.roundSum_step (by omega)]
    simp only [World.step]
    rcases Nat.lt_succ_iff_lt_or_eq.mp hk with hk | rfl
    · rw [List.getElem_append_left hk]; exact ht.totals k hk
    · rw [List.getElem_append_right (Nat.le_refl _)]
      simpa only [Nat.sub_self, List.getElem_singleton] using htotal

/-- Every round of a run whose sums of counts fit in an `int` keeps the tally. -/
theorem World.Tally.run (fuel : Nat) {w : World} (h : w.Inv M o numprocs)
    (ht : w.Tally M o numprocs env) :
    let w' := World.run M o numprocs env fuel w
    (∀ k < w'.totals.length, w'.roundSum M o numprocs env k ≤ intMax) →
      w'.Tally M o numprocs env := by
  refine World.run_induction
    (fun w => (∀ k < w.totals.length, w.roundSum M o numprocs env k ≤ intMax) →
      w.Tally M o numprocs env) (fun w hi hl hw hfit => ?_) fuel h fun _ => ht
  have hlen : (w.step M o numprocs env).totals.length = w.totals.length + 1 := by
    simp [World.step]
  have hfit' : ∀ k ≤ w.totals.length, w.roundSum M o numprocs env k ≤ intMax := fun k hk =>
    @World.roundSum_step M o numprocs env w k hk ▸ hfit k (by omega)
  exact (hw fun k hk => hfit' k hk.le).step hi hl (hfit' _ le_rfl)

end

/-! ## Validation errors fail fast -/

/-- **Validation errors fail fast, round by round, while the error sums fit in an `int`.** Along
every run whose counts `validate_reduce_scatter` returns in a round (on the ranks where
`options.validate` is on and `recvcounts[rank]` is not zero) sum to at most `INT_MAX`: a rank
still in the size loop has no `local_errors` left over, although nothing resets it; so the sum
of round `k` is the sum over the ranks of the counts of round `k` alone; with validation on, the
loop stops right after the first round whose sum is non-zero, on every rank and at that round's
size; and rank 0 reports a size in its `DATA VALIDATION ERROR` exit exactly when such a round
occurred, that round's size. -/
theorem local_errors_fail_fast (M : Macros) (o : Options) (numprocs : Nat) (hn : 2 ≤ numprocs)
    (env : Nat → RankEnv) (fuel : Nat) :
    let w := World.run M o numprocs env fuel (World.init M o numprocs env)
    let sizeAt := fun k => (Control.run M o numprocs (w.totals.take k)).size
    let count := fun k r =>
      let c := Control.run M o numprocs (w.totals.take k)
      let it := (ireduceScatterSwitch M o c.size c.iterations c.skip).1
      let sk := (ireduceScatterSwitch M o c.size c.iterations c.skip).2
      if o.validate = true ∧ recvcount c.size numprocs r ≠ 0 then
        ((List.range (it + sk)).map fun i =>
          ((env r).round k).latencyErrors i + ((env r).round k).overlapErrors i).sum
      else 0
    (∀ k < w.totals.length, ((List.range numprocs).map (count k)).sum ≤ intMax) →
    (∀ r < numprocs, (w.ranks r).looping = true → (w.ranks r).localErrors = 0) ∧
    (∀ k (hk : k < w.totals.length),
      w.totals[k] = (((List.range numprocs).map (count k)).sum : Nat)) ∧
    (∀ k (hk : k < w.totals.length), o.validate = true → w.totals[k] ≠ 0 →
      k + 1 = w.totals.length ∧
      ∀ r < numprocs, (w.ranks r).looping = false ∧ (w.ranks r).size = sizeAt k) ∧
    ∀ s, (w.ranks 0).exitReport o 0 = some s ↔
      o.validate = true ∧ ∃ k, ∃ hk : k < w.totals.length, w.totals[k] ≠ 0 ∧ s = sizeAt k := by
  intro w sizeAt count hfit
  have hcount : ∀ k, ((List.range numprocs).map (count k)).sum = w.roundSum M o numprocs env k :=
    fun k => congrArg List.sum (List.map_congr_left fun r hr =>
      (roundErrors_eq M o numprocs r _ (List.mem_range.mp hr) _ _ _).symm)
  have hi : w.Inv M o numprocs := World.Inv.run fuel World.Inv.init
  have hr : w.Record M o numprocs := World.Record.run (by omega) fuel World.Inv.init
    fun _ h => absurd h (Nat.not_lt_zero _)
  have ht : w.Tally M o numprocs env :=
    World.Tally.run fuel World.Inv.init World.Tally.init fun k hk => hcount k ▸ hfit k hk
  exact ⟨ht.localErrors, fun k hk => (hcount k).symm ▸ ht.totals k hk,
    fun _ hk hv h0 => hr.stop hi hv hk h0, hr.exitReport_iff (by omega) hi⟩

/-- Two ranks whose `validate_reduce_scatter` returns one error, on rank 1 in the first
iteration of the second round, and none otherwise; every timer reads zero. -/
def oneErrorEnv : Nat → RankEnv := fun r => ⟨fun _ => 0, fun k => ⟨fun _ => ⟨0.0, 0.0⟩,
  fun _ _ => ⟨0.0, 0.0, 0.0, 0.0, 0.0, 0.0, 0.0, 0.0, 0.0⟩,
  fun i => if r = 1 ∧ k = 1 ∧ i = 0 then 1 else 0, fun _ => 0⟩⟩

theorem local_errors_fail_fast_two_ranks :
    let w := World.run ⟨8192, 1, 0, 0⟩ ⟨8, 32, 1, 1, 0, 0, 0, true, false, 0, 0⟩ 2 oneErrorEnv 3
      (World.init ⟨8192, 1, 0, 0⟩ ⟨8, 32, 1, 1, 0, 0, 0, true, false, 0, 0⟩ 2 oneErrorEnv)
    w.totals[1]? = some 1 ∧ (w.ranks 1).looping = false ∧ (w.ranks 1).size = 4 ∧
      (w.ranks 0).exitReport ⟨8, 32, 1, 1, 0, 0, 0, true, false, 0, 0⟩ 0 = some 4 := by
  intro w
  have h := local_errors_fail_fast ⟨8192, 1, 0, 0⟩ ⟨8, 32, 1, 1, 0, 0, 0, true, false, 0, 0⟩ 2
    le_rfl oneErrorEnv 3 (by decide)
  have h1 : 1 < w.totals.length := by decide
  have ht : w.totals[1] ≠ 0 := by rw [h.2.1 1 h1]; decide
  obtain ⟨-, hstop⟩ := h.2.2.1 1 h1 rfl ht
  exact ⟨by rw [List.getElem?_eq_getElem h1, h.2.1 1 h1]; decide, (hstop 1 (by decide)).1,
    (hstop 1 (by decide)).2.trans (by decide), (h.2.2.2 4).mpr ⟨rfl, 1, h1, ht, by decide⟩⟩

/-- Four ranks whose `validate_reduce_scatter` each return `2^30` errors in the first iteration
of the first round, and none otherwise; every timer reads zero. -/
def wrapEnv : Nat → RankEnv := fun _ => ⟨fun _ => 0, fun k => ⟨fun _ => ⟨0.0, 0.0⟩,
  fun _ _ => ⟨0.0, 0.0, 0.0, 0.0, 0.0, 0.0, 0.0, 0.0, 0.0⟩,
  fun i => if k = 0 ∧ i = 0 then 2 ^ 30 else 0, fun _ => 0⟩⟩

/-- **Past `INT_MAX` the error sum wraps.** On four ranks with the counts of `wrapEnv` and the
sizes 4, 8 and 16, the counts of the first round sum to `2^32`, which the `MPI_SUM` over
`MPI_INT` returns as 0: every rank goes on to the next round with `2^30` errors left over in
`local_errors`, every later sum wraps to 0 as well, and the loop runs to its end with rank 0
reporting no `DATA VALIDATION ERROR`. -/
theorem local_errors_sum_wraps :
    let M : Macros := ⟨8192, 1, 0, 0⟩
    let o : Options := ⟨16, 64, 1, 1, 0, 0, 0, true, false, 0, 0⟩
    let w₁ := World.run M o 4 wrapEnv 1 (World.init M o 4 wrapEnv)
    let w := World.run M o 4 wrapEnv 3 (World.init M o 4 wrapEnv)
    w₁.roundSum M o 4 wrapEnv 0 = 2 ^ 32 ∧ w₁.totals = [0] ∧
    (w₁.ranks 0).looping = true ∧ (w₁.ranks 0).localErrors = 2 ^ 30 ∧
    w.totals = [0, 0, 0] ∧ (∀ r < 4, (w.ranks r).looping = false) ∧
    (w.ranks 0).exitReport o 0 = none := by
  decide

end OsuMicroBenchmarks.IreduceScatter
