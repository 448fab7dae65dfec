import OsuMicroBenchmarks.IreduceScatter.Passes
import OsuMicroBenchmarks.Pt2pt.MultiLatDt

/-!
# Timed windows

Every timed loop of the three benchmarks runs `skip` warm-up iterations before those it
measures. In the two passes of `osu_ireduce_scatter` the accumulators sum the samples of exactly
the iterations `skip .. skip + iterations - 1`, and rank 0's graph buffer is written at exactly
the indices `0 .. iterations - 1` (`IreduceScatter.latencyPass_timer`,
`IreduceScatter.overlapPass_accumulators`, `IreduceScatter.overlapPass_graph`). In the pt2pt
benchmarks the readings of `t_start` and `t_end` enclose exactly `iterations` round trips
(`LatencyDt.round_zero_window`, `MultiLatDt.round_window_lt`, `MultiLatDt.round_window_ge`).
`measured_iterations` states them together for one `iterations` and `skip`.
-/

namespace OsuMicroBenchmarks

namespace Pt2pt

/-- **Rank 0's timed window in `osu_latency_dt`.** With measured iterations, rank 0 makes `skip`
warm-up round trips, reads `t_start`, makes exactly `iterations` round trips and reads
`t_end`. -/
theorem LatencyDt.round_zero_window (r : Round) (h : 0 < r.iterations) :
    LatencyDt.round 0 r = [.typeVector r.type, .barrier] ++
      (List.replicate r.skip [.send 1 r.type, .recv 1 r.type]).flatten ++ [.wtime] ++
      (List.replicate r.iterations [.send 1 r.type, .recv 1 r.type]).flatten ++
      [.wtime, .typeFree] := by
  simp [LatencyDt.round, timedLoop_eq, Nat.pos_iff_ne_zero.mp h]

/-- The timed window of a rank that sends first in `multi_latency`: `skip` warm-up round
trips, `t_start` and the barrier, exactly `iterations` round trips, `t_end`. -/
theorem MultiLatDt.round_window_lt {rank pairs : Nat} (hr : rank < pairs) (r : Round)
    (h : 0 < r.iterations) :
    MultiLatDt.round rank pairs r = [.typeVector r.type, .barrier] ++
      (List.replicate r.skip [.send (rank + pairs) r.type, .recv (rank + pairs) r.type]).flatten ++
      [.wtime, .barrier] ++
      (List.replicate r.iterations
        [.send (rank + pairs) r.type, .recv (rank + pairs) r.type]).flatten ++
      [.wtime, .typeFree, .reduce 0] := by
  simp [MultiLatDt.round, hr, timedLoop_eq, Nat.pos_iff_ne_zero.mp h]

/-- The timed window of a rank that receives first in `multi_latency`. -/
theorem MultiLatDt.round_window_ge {rank pairs : Nat} (hr : pairs ≤ rank) (r : Round)
    (h : 0 < r.iterations) :
    MultiLatDt.round rank pairs r = [.typeVector r.type, .barrier] ++
      (List.replicate r.skip [.recv (rank - pairs) r.type, .send (rank - pairs) r.type]).flatten ++
      [.wtime, .barrier] ++
      (List.replicate r.iterations
        [.recv (rank - pairs) r.type, .send (rank - pairs) r.type]).flatten ++
      [.wtime, .typeFree, .reduce 0] := by
  simp [MultiLatDt.round, not_lt.mpr hr, timedLoop_eq, Nat.pos_iff_ne_zero.mp h]

end Pt2pt

open IreduceScatter Pt2pt in
/-- **Warm-up iterations are discarded.** For any `skip` and any `iterations ≥ 1`: both passes of
`osu_ireduce_scatter` accumulate the samples of exactly the iterations
`skip .. skip + iterations - 1`, each once, rank 0 writes its graph buffer at exactly the
indices `0 .. iterations - 1`, and in both pt2pt benchmarks `t_start` and `t_end` enclose
exactly `iterations` round trips of the round's datatype. -/
theorem measured_iterations (o : Options) (iterations skip : Nat) (h : 0 < iterations)
    (rank : Nat) (rc : List Int) (e : RoundEnv) (latencyInSecs : Float) (localErrors : Nat)
    (graph : List (Nat × Float)) (trace : List Coll) (size pairs : Nat) (t : Datatype) :
    (latencyPass o iterations skip rank rc e localErrors trace).timer =
        windowSum iterations skip (fun i => (e.latency i).tStop - (e.latency i).tStart) ∧
    (let p := overlapPass o iterations skip rank rc latencyInSecs e localErrors graph trace
     let x := e.overlap latencyInSecs
     p.timer = windowSum iterations skip (fun i => (x i).tStop - (x i).tStart) ∧
     p.tcompTotal = windowSum iterations skip (fun i => (x i).tcompStop - (x i).tcompStart) ∧
     p.waitTotal = windowSum iterations skip (fun i => (x i).waitStop - (x i).waitStart) ∧
     p.testTotal = windowSum iterations skip (fun i => (x i).testTime) ∧
     p.initTotal = windowSum iterations skip (fun i => (x i).initStop - (x i).initStart)) ∧
    (overlapPass o iterations skip rank rc latencyInSecs e localErrors [] trace).graph =
      (if o.graph && rank == 0 then (List.range iterations).map fun j =>
        (j, ((e.overlap latencyInSecs (skip + j)).tStop -
          (e.overlap latencyInSecs (skip + j)).tStart) * 1e6)
      else []) ∧
    LatencyDt.round 0 ⟨size, t, iterations, skip⟩ = [.typeVector t, .barrier] ++
      (List.replicate skip [.send 1 t, .recv 1 t]).flatten ++ [.wtime] ++
      (List.replicate iterations [.send 1 t, .recv 1 t]).flatten ++ [.wtime, .typeFree] ∧
    (∀ r < pairs, MultiLatDt.round r pairs ⟨size, t, iterations, skip⟩ =
      [.typeVector t, .barrier] ++ (List.replicate skip [.send (r + pairs) t, .recv (r + pairs) t]).flatten ++
      [.wtime, .barrier] ++ (List.replicate iterations [.send (r + pairs) t, .recv (r + pairs) t]).flatten ++
      [.wtime, .typeFree, .reduce 0]) ∧
    ∀ r, pairs ≤ r → MultiLatDt.round r pairs ⟨size, t, iterations, skip⟩ =
      [.typeVector t, .barrier] ++ (List.replicate skip [.recv (r - pairs) t, .send (r - pairs) t]).flatten ++
      [.wtime, .barrier] ++ (List.replicate iterations [.recv (r - pairs) t, .send (r - pairs) t]).flatten ++
      [.wtime, .typeFree, .reduce 0] :=
  ⟨latencyPass_timer .., overlapPass_accumulators .., overlapPass_graph ..,
    LatencyDt.round_zero_window _ h, fun _ hr => MultiLatDt.round_window_lt hr _ h,
    fun _ hr => MultiLatDt.round_window_ge hr _ h⟩

open IreduceScatter Pt2pt in
theorem measured_iterations_two_after_one :
    0 < 2 ∧ LatencyDt.round 0 ⟨4, ⟨4, 1, 1⟩, 2, 1⟩ = [.typeVector ⟨4, 1, 1⟩, .barrier] ++
      (List.replicate 1 [.send 1 ⟨4, 1, 1⟩, .recv 1 ⟨4, 1, 1⟩]).flatten ++ [.wtime] ++
      (List.replicate 2 [.send 1 ⟨4, 1, 1⟩, .recv 1 ⟨4, 1, 1⟩]).flatten ++ [.wtime, .typeFree] :=
  ⟨by decide, (measured_iterations ⟨4, 4, 2, 1, 1, 0, 0, false, false, 1, 1⟩ 2 1 (by decide) 0 []
    ⟨fun _ => ⟨0.0, 0.0⟩, fun _ _ => ⟨0.0, 0.0, 0.0, 0.0, 0.0, 0.0, 0.0, 0.0, 0.0⟩, fun _ => 0,
      fun _ => 0⟩ 0.0 0 [] [] 4 1 ⟨4, 1, 1⟩).2.2.2.1⟩

end OsuMicroBenchmarks
