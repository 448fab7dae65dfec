import OsuMicroBenchmarks.Pt2pt.LatencyDt

/-!
# `osu_multi_lat_dt`

`main` splits the processes into `pairs = nprocs / 2` pairs, and `multi_latency` ping-pongs rank
`r < pairs` with rank `r + pairs`. `round` is the calls of one size round (lines 143-192),
`main` those of the whole run. With an even number of processes the programs are `Paired` along
`partner`: every run completes (`even_nprocs_complete`), the run of the executable scheduler
included (`scheduled_runs_finish`), and every receive matches a send of its own datatype
(`receives_match_sends`, for `osu_latency_dt` too), no more than one message is ever in
flight from one rank to another (`one_message_in_flight`), and the ranks that send first read
the clock in step with their partners (`clock_readings_in_step`). With an odd number the last rank,
`2 * pairs`, waits first for a message from rank `pairs`, whose own partner is rank 0, and no
rank ever sends to it: no run completes (`odd_nprocs_deadlock`).
-/

namespace OsuMicroBenchmarks.Pt2pt.MultiLatDt

/-- The partner of `rank` (lines 150-151 and 168-169). -/
def partner (rank pairs : Nat) : Nat := if rank < pairs then rank + pairs else rank - pairs

/-- The calls `rank` makes in the round `r` of `multi_latency` (lines 143-192). -/
def round (rank pairs : Nat) (r : Round) : List Call :=
  [.typeVector r.type, .barrier] ++
    (if rank < pairs then
      timedLoop r.iterations r.skip [.wtime, .barrier]
        [.send (rank + pairs) r.type, .recv (rank + pairs) r.type] ++ [.wtime]
    else
      timedLoop r.iterations r.skip [.wtime, .barrier]
        [.recv (rank - pairs) r.type, .send (rank - pairs) r.type] ++ [.wtime]) ++
    [.typeFree, .reduce 0]

/-- `multi_latency (rank, pairs)`, or `none` where the C code is undefined. -/
def multiLatency (M : Macros) (o : Options) (rank pairs : Nat) : Option (List Call) :=
  (plan (multiLatencySwitch M o) o).map fun rs => rs.flatMap (round rank pairs)

/-- The calls of `rank` after `process_options` (lines 31-109): none when the sanity check
fails, else `multi_latency` between two barriers. -/
def main (M : Macros) (o : Options) (nprocs rank : Nat) : Option (List Call) :=
  if !sanityCheck M o then some []
  else
    let o := o.raiseToBlock
    (multiLatency M o rank (nprocs / 2)).map fun calls => [.barrier] ++ calls ++ [.barrier]

theorem main_eq (M : Macros) (o : Options) (nprocs rank : Nat) : main M o nprocs rank =
    if sanityCheck M o then
      (plan (multiLatencySwitch M o.raiseToBlock) o.raiseToBlock).map fun rs =>
        [.barrier] ++ rs.flatMap (round rank (nprocs / 2)) ++ [.barrier]
    else some [] := by
  cases h : sanityCheck M o <;> simp [main, multiLatency, h, Function.comp_def]

theorem onlyPeer_round (rank pairs : Nat) (r : Round) :
    ∀ c ∈ round rank pairs r, c.onlyPeer (partner rank pairs) = true := by
  intro c hc
  simp only [round, List.mem_append, List.mem_cons, List.mem_singleton, List.not_mem_nil,
    or_false] at hc
  rcases hc with ((rfl | rfl) | hc) | rfl | rfl
  · rfl
  · rfl
  · unfold partner
    split at hc
    all_goals
      rcases List.mem_append.mp hc with hc | hc
      · rcases mem_timedLoop hc with hc | hc <;> simp at hc <;> rcases hc with rfl | rfl <;>
          first | rfl | simp [*]
      · simp at hc; subst hc; rfl
  · rfl
  · rfl

/-- What a partner communicates is the dual of what the rank communicates. -/
theorem comm_round_partner {rank pairs : Nat} (h : rank < 2 * pairs) (r : Round) :
    comm (round (partner rank pairs) pairs r) = (comm (round rank pairs r)).map (Call.dual rank) := by
  unfold partner
  by_cases hr : rank < pairs
  · have : ¬ rank + pairs < pairs := by omega
    simp [round, hr, this, comm_cons, Call.isLocal, Call.dual]
  · have : rank - pairs < pairs := by omega
    simp [round, hr, this, Nat.sub_add_cancel (not_lt.mp hr), comm_cons, Call.isLocal, Call.dual]

theorem collectives_round (rank pairs : Nat) (r : Round) :
    collectives (round rank pairs r) =
      [.barrier] ++ timedLoop r.iterations r.skip [.barrier] [] ++ [.reduce 0] := by
  unfold round
  split <;> simp [collectives_cons, Call.isCollective]

theorem onlyPeer_calls (rs : List Round) (rank pairs : Nat) :
    ∀ c ∈ [.barrier] ++ rs.flatMap (round rank pairs) ++ [.barrier],
      c.onlyPeer (partner rank pairs) = true := by
  intro c hc
  simp only [List.mem_append, List.mem_singleton, List.mem_flatMap] at hc
  rcases hc with (rfl | ⟨rd, -, hc⟩) | rfl
  · rfl
  · exact onlyPeer_round rank pairs rd c hc
  · rfl

/-- With an even number of processes, the ranks of the same rounds exchange along
`partner`. -/
theorem paired (rs : List Round) {nprocs : Nat} (heven : nprocs % 2 = 0) :
    Paired nprocs (partner · (nprocs / 2)) fun rank =>
      [.barrier] ++ rs.flatMap (round rank (nprocs / 2)) ++ [.barrier] where
  lt r hr := by unfold partner; split <;> omega
  ne r hr := by unfold partner; split <;> omega
  invol r hr := by
    unfold partner
    by_cases h : r < nprocs / 2
    · rw [if_pos h, if_neg (by omega)]; omega
    · rw [if_neg h, if_pos (by omega)]; omega
  onlyPeer r _ := onlyPeer_calls rs r (nprocs / 2)
  dual r hr := by
    simp [List.map_flatMap, comm_round_partner (show r < 2 * (nprocs / 2) by omega), comm_cons,
      Call.isLocal, Call.dual]
  collectives_eq r hr := by simp [collectives_round, collectives_cons, Call.isCollective]

/-- Wherever `main` is defined on an even number of processes, their programs are paired. -/
theorem paired_main {M : Macros} {o : Options} {nprocs : Nat} (heven : nprocs % 2 = 0)
    {prog : Nat → List Call} (hprog : ∀ rank < nprocs, main M o nprocs rank = some (prog rank)) :
    Paired nprocs (partner · (nprocs / 2)) prog := by
  have hpairing := (paired [] heven).toPairing
  cases hsan : sanityCheck M o
  · refine hpairing.paired_nil.congr fun r hr => ?_
    have : prog r = [] := by simpa [main_eq, hsan] using (hprog r hr).symm
    exact this.symm
  · rcases Nat.eq_zero_or_pos nprocs with rfl | hpos
    · exact hpairing.paired_nil.congr fun r hr => absurd hr (Nat.not_lt_zero r)
    obtain ⟨rs, hrs, -⟩ := Option.map_eq_some'.mp (by simpa [main_eq, hsan] using hprog 0 hpos)
    refine (paired rs heven).congr fun r hr => ?_
    simpa [main_eq, hsan, hrs] using hprog r hr

/-- What a rank communicates in a round: the barriers, its round trips with its partner, and
the `MPI_Reduce`. -/
theorem comm_round (rank pairs : Nat) (r : Round) :
    comm (round rank pairs r) = .barrier :: (timedLoop r.iterations r.skip [.barrier]
      (if rank < pairs then [.send (rank + pairs) r.type, .recv (rank + pairs) r.type]
        else [.recv (rank - pairs) r.type, .send (rank - pairs) r.type]) ++ [.reduce 0]) := by
  unfold round
  split <;> simp [comm_cons, Call.isLocal]

/-- No rank has two receives in a row within a round, and a round opens with its barrier. -/
theorem recvApart_comm_round (rank pairs : Nat) (r : Round) :
    RecvApart (comm (round rank pairs r)) ∧ ∀ c ∈ (comm (round rank pairs r)).head?,
      c.isRecv = false := by
  rw [comm_round, timedLoop_eq]
  generalize hbody : (if rank < pairs then _ else _ : List Call) = body
  have hb : RecvApart body ∧
      ∀ x ∈ body.getLast?, ∀ y ∈ body.head?, ¬ (x.isRecv = true ∧ y.isRecv = true) := by
    subst hbody; split <;> simp [RecvApart, Call.isRecv]
  have hrep := chain'_replicate hb.1 hb.2
  have hwin : RecvApart (if r.iterations = 0 then [] else [.barrier] ++ (List.replicate r.iterations body).flatten) ∧
      ∀ c ∈ (if r.iterations = 0 then [] else [.barrier] ++ (List.replicate r.iterations body).flatten).head?, c.isRecv = false := by
    split
    · simp [RecvApart]
    · exact ⟨.cons rfl (hrep _), by simp [Call.isRecv]⟩
  exact ⟨.cons rfl (.append (.append (hrep _) hwin.1 fun _ _ c hc => .inr (hwin.2 c hc))
    (by simp [RecvApart]) (by simp [Call.isRecv])), by simp [Call.isRecv]⟩

theorem recvApart_main {M : Macros} {o : Options} {nprocs rank : Nat} {p : List Call}
    (h : main M o nprocs rank = some p) : RecvApart (comm p) := by
  rw [main_eq] at h
  split at h
  · obtain ⟨rs, -, rfl⟩ := Option.map_eq_some'.mp h
    have hrs := (chain'_flatMap (fun r => ⟨(recvApart_comm_round rank (nprocs / 2) r).1,
      fun y hy => not_recv_after ((recvApart_comm_round rank (nprocs / 2) r).2 y hy)⟩) rs).1
    rw [comm_append, comm_append, comm_flatMap]
    exact .append (.cons rfl hrs) (by simp [RecvApart, comm_cons, Call.isLocal])
      (by simp [comm_cons, Call.isLocal, Call.isRecv])
  · cases h; exact List.chain'_nil

theorem clocked_round_sender {rank pairs : Nat} (h : rank < pairs) (r : Round) :
    clocked (round rank pairs r) = .barrier :: (timedLoop r.iterations r.skip [.wtime, .barrier]
      [.send (rank + pairs) r.type, .recv (rank + pairs) r.type] ++ [.wtime, .reduce 0]) := by
  simp [round, h, clocked_cons, Call.isLocal]

/-- A rank that sends first reads the clock after a reply or a barrier, and before a barrier or
the `MPI_Reduce`: its round is a clean stretch. -/
theorem clean_clocked_round_sender {rank pairs : Nat} (h : rank < pairs) (r : Round) :
    Clean (clocked (round rank pairs r)) := by
  have hB : Clean [.send (rank + pairs) r.type, .recv (rank + pairs) r.type] :=
    ⟨by simp [clockSafe], by simp [Call.isRecv], by simp [Call.isSend]⟩
  have hbarrier : Clean [.barrier] := .singleton rfl rfl (by decide)
  have hP := hbarrier.append (hB.replicate r.skip)
  have hQ : Clean ([.barrier] ++ (List.replicate r.skip
      [.send (rank + pairs) r.type, .recv (rank + pairs) r.type]).flatten ++
      if r.iterations = 0 then [] else .wtime :: ([.barrier] ++ (List.replicate r.iterations
        [.send (rank + pairs) r.type, .recv (rank + pairs) r.type]).flatten)) := by
    split
    · simpa using hP
    · exact hP.wtime (by simp) (hbarrier.append (hB.replicate _)) (by simp)
  rw [clocked_round_sender h, timedLoop_eq]
  exact hQ.wtime (by simp) (.singleton (c := .reduce 0) rfl rfl (by decide)) (by simp)

theorem clockApart_main_sender {M : Macros} {o : Options} {nprocs rank : Nat} {p : List Call}
    (hr : rank < nprocs / 2) (h : main M o nprocs rank = some p) : ClockApart p := by
  rw [main_eq] at h
  split at h
  · obtain ⟨rs, -, rfl⟩ := Option.map_eq_some'.mp h
    have hbarrier : Clean [.barrier] := .singleton rfl rfl (by decide)
    rw [ClockApart, clocked_append, clocked_append, clocked_flatMap]
    exact ((hbarrier.append (Clean.flatMap (clean_clocked_round_sender hr) rs)).append hbarrier).chain
  · cases h; exact List.chain'_nil

/-- **Even process counts complete.** Wherever the C code is defined on an even number of
processes, under every schedule and every buffering, a reachable state in which a rank has
calls left can step, and a run that can go no further ends with every rank done and every
message received. -/
theorem even_nprocs_complete (M : Macros) (o : Options) (nprocs : Nat) (heven : nprocs % 2 = 0)
    (prog : Nat → List Call) (hprog : ∀ rank < nprocs, main M o nprocs rank = some (prog rank))
    (eager : Net → Nat → Bool) :
    (∀ s, Reach nprocs eager prog s → ¬ s.Final nprocs → ∃ s', Step nprocs eager s s') ∧
    ∀ s, Reach nprocs eager prog s → (∀ s', ¬ Step nprocs eager s s') →
      s.Final nprocs ∧ ∀ r < nprocs, ∀ q, s.chan r q = [] :=
  have hP := paired_main heven hprog
  ⟨fun _ hs hnf => (hP.inv hs).progress hP.toPairing hnf, fun _ hs hstuck => hP.complete hs hstuck⟩

theorem even_nprocs_complete_four :
    4 % 2 = 0 ∧
    (∀ rank < 4, main ⟨8192, 1, 64, 64⟩ ⟨1, 4, 2, 1, 1, 0, 0, false, false, 1, 2⟩ 4 rank =
      some ((main ⟨8192, 1, 64, 64⟩ ⟨1, 4, 2, 1, 1, 0, 0, false, false, 1, 2⟩ 4 rank).getD [])) ∧
    ∀ s, Reach 4 (fun _ _ => false)
        (fun rank => (main ⟨8192, 1, 64, 64⟩ ⟨1, 4, 2, 1, 1, 0, 0, false, false, 1, 2⟩ 4 rank).getD [])
        s → (∀ s', ¬ Step 4 (fun _ _ => false) s s') →
      s.Final 4 ∧ ∀ r < 4, ∀ q, s.chan r q = [] :=
  ⟨rfl, by decide, (even_nprocs_complete ⟨8192, 1, 64, 64⟩ ⟨1, 4, 2, 1, 1, 0, 0, false, false, 1, 2⟩
    4 rfl _ (by decide) _).2⟩

/-- **Every receive matches a send of its datatype.** Wherever the C code is defined, in
`osu_latency_dt` and in `osu_multi_lat_dt` on an even number of processes, under every schedule
and every buffering, no reachable state has a receive whose matching message was sent with
another datatype. -/
theorem receives_match_sends (M : Macros) (o : Options) (eager : Net → Nat → Bool) :
    (∀ prog : Nat → List Call, (∀ myid < 2, LatencyDt.main M o 2 myid = some (prog myid)) →
      ∀ s, Reach 2 eager prog s → ¬ s.Mismatch 2) ∧
    ∀ nprocs, nprocs % 2 = 0 → ∀ prog : Nat → List Call,
      (∀ rank < nprocs, main M o nprocs rank = some (prog rank)) →
      ∀ s, Reach nprocs eager prog s → ¬ s.Mismatch nprocs :=
  ⟨fun _ hprog _ hs => (LatencyDt.paired_main hprog).not_mismatch hs,
    fun _ heven _ hprog _ hs => (paired_main heven hprog).not_mismatch hs⟩

theorem receives_match_sends_four :
    ∀ s, Reach 4 (fun _ _ => false)
        (fun rank => (main ⟨8192, 1, 64, 64⟩ ⟨1, 4, 2, 1, 1, 0, 0, false, false, 1, 2⟩ 4 rank).getD [])
        s → ¬ s.Mismatch 4 :=
  (receives_match_sends ⟨8192, 1, 64, 64⟩ ⟨1, 4, 2, 1, 1, 0, 0, false, false, 1, 2⟩ _).2 4 rfl _
    (by decide)

/-- **The scheduled runs finish.** Wherever the C code is defined, in `osu_latency_dt` and in
`osu_multi_lat_dt` on an even number of processes, the run the executable scheduler
`Net.settle` makes, under any buffering, ends with every rank done and every message
received. -/
theorem scheduled_runs_finish (M : Macros) (o : Options) (eager : Net → Nat → Bool) :
    (∀ prog : Nat → List Call, (∀ myid < 2, LatencyDt.main M o 2 myid = some (prog myid)) →
      let s := (Net.init prog).settle 2 eager
      s.Final 2 ∧ ∀ r < 2, ∀ q, s.chan r q = []) ∧
    ∀ nprocs, nprocs % 2 = 0 → ∀ prog : Nat → List Call,
      (∀ rank < nprocs, main M o nprocs rank = some (prog rank)) →
      let s := (Net.init prog).settle nprocs eager
      s.Final nprocs ∧ ∀ r < nprocs, ∀ q, s.chan r q = [] :=
  ⟨fun _ hprog => (LatencyDt.paired_main hprog).settle,
    fun _ heven _ hprog => (paired_main heven hprog).settle⟩

theorem scheduled_runs_finish_two :
    ((Net.init fun myid => (LatencyDt.main ⟨8192, 1, 64, 64⟩
      ⟨1, 4, 2, 1, 1, 0, 0, false, false, 1, 2⟩ 2 myid).getD []).settle 2 (fun _ _ => true)).Final 2 :=
  ((scheduled_runs_finish ⟨8192, 1, 64, 64⟩ ⟨1, 4, 2, 1, 1, 0, 0, false, false, 1, 2⟩ _).1 _
    (by decide)).1

example : ((Net.init fun rank => (main ⟨8192, 1, 64, 64⟩
    ⟨1, 2, 2, 1, 1, 0, 0, false, false, 1, 2⟩ 4 rank).getD []).settle 4 (fun _ _ => false)).Final 4 := by
  decide

/-- **One message in flight.** Wherever the C code is defined, in `osu_latency_dt` and in
`osu_multi_lat_dt` on an even number of processes, under every schedule and every buffering,
no reachable state has more than one message in flight from one rank to another: the library
never holds two undelivered messages of the same pair. -/
theorem one_message_in_flight (M : Macros) (o : Options) (eager : Net → Nat → Bool) :
    (∀ prog : Nat → List Call, (∀ myid < 2, LatencyDt.main M o 2 myid = some (prog myid)) →
      ∀ s, Reach 2 eager prog s → ∀ r < 2, ∀ q, (s.chan r q).length ≤ 1) ∧
    ∀ nprocs, nprocs % 2 = 0 → ∀ prog : Nat → List Call,
      (∀ rank < nprocs, main M o nprocs rank = some (prog rank)) →
      ∀ s, Reach nprocs eager prog s → ∀ r < nprocs, ∀ q, (s.chan r q).length ≤ 1 :=
  ⟨fun _ hprog _ hs => (LatencyDt.paired_main hprog).chan_length_le_one
      (fun r hr => LatencyDt.recvApart_main hr (hprog r hr)) hs,
    fun _ heven _ hprog _ hs => (paired_main heven hprog).chan_length_le_one
      (fun r hr => recvApart_main (hprog r hr)) hs⟩

theorem one_message_in_flight_eager_four :
    ∀ s, Reach 4 (fun _ _ => true)
        (fun rank => (main ⟨8192, 1, 64, 64⟩ ⟨1, 4, 2, 1, 1, 0, 0, false, false, 1, 2⟩ 4 rank).getD [])
        s → ∀ r < 4, ∀ q, (s.chan r q).length ≤ 1 :=
  (one_message_in_flight ⟨8192, 1, 64, 64⟩ ⟨1, 4, 2, 1, 1, 0, 0, false, false, 1, 2⟩ _).2 4 rfl _
    (by decide)

/-- **Timing ranks read the clock in step with their partner.** In every run of
`osu_latency_dt`, and of `osu_multi_lat_dt` on an even number of processes, under every schedule
and every buffering: whenever rank 0 of `osu_latency_dt`, or a rank `r < pairs` of
`multi_latency`, is about to read `MPI_Wtime`, no message is in flight between it and its
partner either way, and the partner has left to communicate exactly the dual of what the rank
has left. The partner has then made exactly the round trips the rank has, so the readings
`t_start` and `t_end` of such a rank enclose the partner's measured iterations and nothing else.
The ranks `r ≥ pairs` read the clock right after a send, whose message may still be in flight. -/
theorem clock_readings_in_step (M : Macros) (o : Options) (eager : Net → Nat → Bool) :
    (∀ prog : Nat → List Call, (∀ myid < 2, LatencyDt.main M o 2 myid = some (prog myid)) →
      ∀ s, Reach 2 eager prog s → ∀ post, s.rest 0 = .wtime :: post →
        s.chan 0 1 = [] ∧ s.chan 1 0 = [] ∧ comm (s.rest 1) = (comm (s.rest 0)).map (Call.dual 0)) ∧
    ∀ nprocs, nprocs % 2 = 0 → ∀ prog : Nat → List Call,
      (∀ rank < nprocs, main M o nprocs rank = some (prog rank)) →
      ∀ s, Reach nprocs eager prog s → ∀ r < nprocs / 2, ∀ post, s.rest r = .wtime :: post →
        s.chan r (r + nprocs / 2) = [] ∧ s.chan (r + nprocs / 2) r = [] ∧
          comm (s.rest (r + nprocs / 2)) = (comm (s.rest r)).map (Call.dual r) :=
  ⟨fun _ hprog _ hs _ hrest => (LatencyDt.paired_main hprog).in_step_at_clock hs (by decide)
      (LatencyDt.clockApart_main (hprog 0 (by decide))) hrest,
    fun _ heven _ hprog _ hs r hr _ hrest => by
      simpa [partner, hr] using (paired_main heven hprog).in_step_at_clock hs (by omega)
        (clockApart_main_sender hr (hprog r (by omega))) hrest⟩

theorem clock_readings_in_step_two_ranks :
    let o : Options := ⟨1, 1, 1, 1, 1, 0, 0, false, false, 1, 1⟩
    let lat := fun myid => (LatencyDt.main ⟨8192, 1, 64, 64⟩ o 2 myid).getD []
    let multi := fun rank => (main ⟨8192, 1, 64, 64⟩ o 2 rank).getD []
    let s := ((Net.init lat).run 2 (fun _ _ => true) [.localCall 0, .localCall 1, .collective,
      .buffer 0, .deliver 1, .buffer 1, .deliver 0]).getD (Net.init lat)
    let s' := ((Net.init multi).run 2 (fun _ _ => true) [.collective, .localCall 0, .localCall 1,
      .collective, .buffer 0, .deliver 1, .buffer 1, .deliver 0]).getD (Net.init multi)
    (s.rest 0).head? = some .wtime ∧ s.chan 0 1 = [] ∧ s.chan 1 0 = [] ∧
      comm (s.rest 1) = (comm (s.rest 0)).map (Call.dual 0) ∧
    (s'.rest 0).head? = some .wtime ∧ s'.chan 0 1 = [] ∧ s'.chan 1 0 = [] ∧
      comm (s'.rest 1) = (comm (s'.rest 0)).map (Call.dual 0) :=
  let lat := fun myid =>
    (LatencyDt.main ⟨8192, 1, 64, 64⟩ ⟨1, 1, 1, 1, 1, 0, 0, false, false, 1, 1⟩ 2 myid).getD []
  let multi := fun rank =>
    (main ⟨8192, 1, 64, 64⟩ ⟨1, 1, 1, 1, 1, 0, 0, false, false, 1, 1⟩ 2 rank).getD []
  let latMoves : List Move := [.localCall 0, .localCall 1, .collective, .buffer 0, .deliver 1,
    .buffer 1, .deliver 0]
  let multiMoves : List Move := [.collective, .localCall 0, .localCall 1, .collective, .buffer 0,
    .deliver 1, .buffer 1, .deliver 0]
  let s := ((Net.init lat).run 2 (fun _ _ => true) latMoves).getD (Net.init lat)
  let s' := ((Net.init multi).run 2 (fun _ _ => true) multiMoves).getD (Net.init multi)
  have h := clock_readings_in_step ⟨8192, 1, 64, 64⟩ ⟨1, 1, 1, 1, 1, 0, 0, false, false, 1, 1⟩
    (fun _ _ => true)
  have h₁ := h.1 lat (by decide) s (@Net.run_sound 2 (fun _ _ => true) (Net.init lat) s latMoves rfl)
    (s.rest 0).tail (by decide)
  have h₂ := h.2 2 rfl multi (by decide) s'
    (@Net.run_sound 2 (fun _ _ => true) (Net.init multi) s' multiMoves rfl) 0 (by decide)
    (s'.rest 0).tail (by decide)
  ⟨by decide, h₁.1, h₁.2.1, h₁.2.2, by decide, h₂⟩

/- A rank `r ≥ pairs` is not in step: with eager sends, rank 1 of two reads `t_start` while its
last warm-up reply is still in flight. -/
example : ∃ s, Reach 2 (fun _ _ => true)
      (fun rank => (main ⟨8192, 1, 64, 64⟩ ⟨1, 1, 1, 1, 1, 0, 0, false, false, 1, 1⟩ 2 rank).getD [])
      s ∧ ∃ post, s.rest 1 = .wtime :: post ∧ s.chan 1 0 ≠ [] :=
  let prog := fun rank =>
    (main ⟨8192, 1, 64, 64⟩ ⟨1, 1, 1, 1, 1, 0, 0, false, false, 1, 1⟩ 2 rank).getD []
  let moves : List Move := [.collective, .localCall 0, .localCall 1, .collective, .buffer 0,
    .deliver 1, .buffer 1]
  let s := ((Net.init prog).run 2 (fun _ _ => true) moves).getD (Net.init prog)
  ⟨s, @Net.run_sound 2 (fun _ _ => true) (Net.init prog) s moves rfl, _, rfl, by decide⟩

/-- **Odd process counts deadlock.** With an odd number of processes and a first round of at
least one iteration, no run completes, whatever the schedule and the buffering: the last rank's
first receive names rank `pairs`, which never sends to it. Since every run is finite, some run
stops with ranks still waiting. -/
theorem odd_nprocs_deadlock (M : Macros) (o : Options) (nprocs : Nat) (hodd : nprocs % 2 = 1)
    (hsan : sanityCheck M o = true) (rd : Round) (rs : List Round)
    (hplan : plan (multiLatencySwitch M o.raiseToBlock) o.raiseToBlock = some (rd :: rs))
    (hrd : 0 < rd.iterations + rd.skip) (eager : Net → Nat → Bool) :
    let prog := fun rank => (main M o nprocs rank).getD []
    (∀ s, Reach nprocs eager prog s → ¬ s.Final nprocs) ∧
      ∃ s, Reach nprocs eager prog s ∧ ¬ s.Final nprocs ∧ ∀ s', ¬ Step nprocs eager s s' := by
  intro prog
  have hprog : ∀ rank, prog rank =
      [.barrier] ++ (rd :: rs).flatMap (round rank (nprocs / 2)) ++ [.barrier] := fun rank => by
    simp [prog, main_eq, hsan, hplan]
  -- the last rank waits first for rank `pairs`
  have hL : nprocs - 1 < nprocs := by omega
  obtain ⟨rest, hrest⟩ := timedLoop_of_pos hrd [.wtime, .barrier]
    [.recv (nprocs / 2) rd.type, .send (nprocs / 2) rd.type]
  have hshape : prog (nprocs - 1) =
      ([.barrier, .typeVector rd.type, .barrier] ++ if rd.skip = 0 then [.wtime, .barrier] else []) ++
        .recv (nprocs / 2) rd.type :: (.send (nprocs / 2) rd.type :: rest ++
          [.wtime, .typeFree, .reduce 0] ++ rs.flatMap (round (nprocs - 1) (nprocs / 2)) ++
            [.barrier]) := by
    rw [hprog, List.flatMap_cons, round, if_neg (by omega), show nprocs - 1 - nprocs / 2 = nprocs / 2
      by omega, hrest]
    simp
  have hpre : ∀ c ∈ ([.barrier, .typeVector rd.type, .barrier] ++
      if rd.skip = 0 then [.wtime, .barrier] else [] : List Call),
      c.isLocal = true ∨ c.isCollective = true := by
    intro c hc
    split at hc <;> simp at hc <;> rcases hc with rfl | rfl | rfl | rfl | rfl <;>
      simp [Call.isLocal, Call.isCollective]
  -- and no other rank has a send for it
  have hsend : ∀ x < nprocs, x ≠ nprocs - 1 → ∀ t, Call.send (nprocs - 1) t ∉ prog x := by
    intro x hx hxL t hmem
    have := onlyPeer_calls (rd :: rs) x (nprocs / 2) _ (hprog x ▸ hmem)
    simp only [Call.onlyPeer_send, beq_iff_eq, partner] at this
    split at this <;> omega
  have hnf : ∀ s, Reach nprocs eager prog s → ¬ s.Final nprocs := fun _ hs =>
    not_final_of_starved hL hshape hpre hsend hs
  obtain ⟨s, hs, hstuck⟩ := exists_stuck nprocs eager prog
  exact ⟨hnf, s, hs, hnf s hs, hstuck⟩

theorem odd_nprocs_deadlock_three :
    3 % 2 = 1 ∧ sanityCheck ⟨8192, 1, 64, 64⟩ ⟨1, 1, 1, 1, 0, 0, 0, false, false, 1, 1⟩ = true ∧
    plan (multiLatencySwitch ⟨8192, 1, 64, 64⟩
        (Options.raiseToBlock ⟨1, 1, 1, 1, 0, 0, 0, false, false, 1, 1⟩))
      (Options.raiseToBlock ⟨1, 1, 1, 1, 0, 0, 0, false, false, 1, 1⟩) =
      some [⟨1, ⟨1, 1, 1⟩, 1, 0⟩] ∧
    ∃ s, Reach 3 (fun _ _ => false)
        (fun rank => (main ⟨8192, 1, 64, 64⟩ ⟨1, 1, 1, 1, 0, 0, 0, false, false, 1, 1⟩ 3 rank).getD [])
        s ∧ ¬ s.Final 3 ∧ ∀ s', ¬ Step 3 (fun _ _ => false) s s' :=
  ⟨rfl, by decide, by decide, (odd_nprocs_deadlock _ _ 3 rfl (by decide) ⟨1, ⟨1, 1, 1⟩, 1, 0⟩ []
    (by decide) (by decide) _).2⟩

example : ¬ ((Net.init fun rank => (main ⟨8192, 1, 64, 64⟩
    ⟨1, 1, 1, 1, 0, 0, 0, false, false, 1, 1⟩ 3 rank).getD []).settle 3 (fun _ _ => true)).Final 3 := by
  decide

theorem main_eq_none {M : Macros} {o : Options} (hsan : sanityCheck M o = true)
    (hplan : plan (multiLatencySwitch M o.raiseToBlock) o.raiseToBlock = none) (nprocs rank : Nat) :
    main M o nprocs rank = none := by
  simp [main_eq, hsan, hplan]

/-- **The sanity check of both pt2pt benchmarks admits `dt_block_size = 0`**, and then
`rep_count = size / dt_block_size` divides by zero at the first size of the loop: both are
undefined. -/
theorem zero_block_divides_by_zero (M : Macros) (o : Options) (hb : o.dtBlockSize = 0)
    (hstride : o.dtStrideSize ≤ M.maxDtStrideSize) (hsize : o.minMessageSize ≤ o.maxMessageSize) :
    sanityCheck M o = true ∧ o.minMessageSize ∈ pt2ptSizes o.raiseToBlock ∧
      cDiv o.minMessageSize o.dtBlockSize = none ∧
      (∀ myid, LatencyDt.main M o 2 myid = none) ∧ ∀ nprocs rank, main M o nprocs rank = none := by
  have hsan := sanityCheck_of_zero_block hb hstride
  have hplan : ∀ switch, plan switch o.raiseToBlock = none := fun switch => by
    rw [raiseToBlock_of_zero hb]; exact plan_eq_none_of_zero_block switch hb hsize
  refine ⟨hsan, ?_, cDiv_eq_none.mpr hb, LatencyDt.main_eq_none hsan (hplan _),
    main_eq_none hsan (hplan _)⟩
  rw [raiseToBlock_of_zero hb]
  exact start_mem_pt2ptSizes hsize

theorem zero_block_divides_by_zero_stride_zero :
    (⟨1, 1, 1, 1, 0, 0, 0, false, false, 0, 0⟩ : Options).dtBlockSize = 0 ∧
    sanityCheck ⟨8192, 1, 64, 64⟩ ⟨1, 1, 1, 1, 0, 0, 0, false, false, 0, 0⟩ = true ∧
      cDiv 1 0 = none :=
  have h := zero_block_divides_by_zero ⟨8192, 1, 64, 64⟩ ⟨1, 1, 1, 1, 0, 0, 0, false, false, 0, 0⟩
    rfl (by decide) (by decide)
  ⟨rfl, h.1, h.2.2.1⟩

/-- **`size` overflows.** From a first size of at most 1, with `max_message_size ≥ 2^30` the
loop reaches `size = 2^30`, and `size * 2` passes `INT_MAX`: both pt2pt benchmarks are
undefined. -/
theorem size_overflows (M : Macros) (o : Options) (hsan : sanityCheck M o = true)
    (hmin : o.raiseToBlock.minMessageSize ≤ 1) (hmax : 2 ^ 30 ≤ o.maxMessageSize) :
    2 ^ 30 ∈ pt2ptSizes o.raiseToBlock ∧ intMax < pt2ptNext (2 ^ 30) ∧
      (∀ myid, LatencyDt.main M o 2 myid = none) ∧ ∀ nprocs rank, main M o nprocs rank = none := by
  have hmem := two_pow_thirty_mem_pt2ptSizes hmin (by simpa using hmax)
  have hov : intMax < pt2ptNext (2 ^ 30) := by decide
  have hplan : ∀ switch, plan switch o.raiseToBlock = none := fun _ =>
    plan_eq_none_of_series (pt2ptSeries_eq_none_of_mem hmem hov)
  exact ⟨hmem, hov, LatencyDt.main_eq_none hsan (hplan _), main_eq_none hsan (hplan _)⟩

theorem size_overflows_one_gib :
    sanityCheck ⟨8192, 1, 64, 64⟩ ⟨1, 2 ^ 30, 1, 1, 0, 0, 0, false, false, 1, 1⟩ = true ∧
    2 ^ 30 ∈ pt2ptSizes (Options.raiseToBlock ⟨1, 2 ^ 30, 1, 1, 0, 0, 0, false, false, 1, 1⟩) ∧
      intMax < pt2ptNext (2 ^ 30) :=
  have h := size_overflows ⟨8192, 1, 64, 64⟩ ⟨1, 2 ^ 30, 1, 1, 0, 0, 0, false, false, 1, 1⟩
    (by decide) (by decide) (by decide)
  ⟨by decide, h.1, h.2.1⟩

end OsuMicroBenchmarks.Pt2pt.MultiLatDt
