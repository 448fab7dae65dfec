import OsuMicroBenchmarks.Pt2pt.Pairing
import OsuMicroBenchmarks.Pt2pt.Plan

/-!
# `osu_latency_dt`

Rank 0 sends one element of the round's vector datatype to rank 1 and waits for it to come
back; rank 1 echoes it. `round` is the calls of one size round (lines 122-163), `main` those of
the whole run after `process_options`. The programs of the two ranks are `Paired` along `other`
(`paired_main`), so whenever the C code is defined every run finishes, whatever the schedule and
whatever the library buffers (`pingPong_completes`). The sanity check admits a zero
`dt_block_size`, for which `main` divides by zero (`main_undefined_of_zero_block`).
-/

namespace OsuMicroBenchmarks.Pt2pt.LatencyDt

/-- The calls rank `myid` makes in the round `r` (lines 122-163). -/
def round (myid : Nat) (r : Round) : List Call :=
  [.typeVector r.type, .barrier] ++
    (if myid = 0 then
      timedLoop r.iterations r.skip [.wtime] [.send 1 r.type, .recv 1 r.type] ++ [.wtime]
    else if myid = 1 then
      (List.range (r.iterations + r.skip)).flatMap fun _ => [.recv 0 r.type, .send 0 r.type]
    else []) ++
    [.typeFree]

/-- The calls of rank `myid` after `process_options`, or `none` where the C code is undefined.
When the sanity check fails or there are not exactly two processes, `main` exits before its
loop. -/
def main (M : Macros) (o : Options) (numprocs myid : Nat) : Option (List Call) :=
  if !sanityCheck M o || numprocs != 2 then some []
  else
    let o := o.raiseToBlock
    (plan (latencyDtSwitch M o) o).map fun rs => rs.flatMap (round myid)

/-- The rank the other one exchanges with. -/
def other (myid : Nat) : Nat := 1 - myid

theorem comm_round_zero (r : Round) : comm (round 0 r) =
    .barrier :: (List.replicate (r.iterations + r.skip) [.send 1 r.type, .recv 1 r.type]).flatten := by
  simp [round, comm_cons, Call.isLocal, timedLoop_nil]

theorem comm_round_one (r : Round) : comm (round 1 r) =
    .barrier :: (List.replicate (r.iterations + r.skip) [.recv 0 r.type, .send 0 r.type]).flatten := by
  simp [round, comm_cons, Call.isLocal, range_flatMap_const]

theorem collectives_round {myid : Nat} (h : myid < 2) (r : Round) :
    collectives (round myid r) = [.barrier] := by
  interval_cases myid <;>
    simp [round, collectives_cons, Call.isCollective, timedLoop_nil, range_flatMap_const]

theorem onlyPeer_round {myid : Nat} (h : myid < 2) (r : Round) :
    ∀ c ∈ round myid r, c.onlyPeer (other myid) = true := by
  intro c hc
  interval_cases myid
  · simp only [round, if_true, List.mem_append, List.mem_cons, List.mem_singleton,
      List.not_mem_nil, or_false] at hc
    rcases hc with ((rfl | rfl) | hc | rfl) | rfl
    · rfl
    · rfl
    · rcases mem_timedLoop hc with hc | hc <;> simp at hc <;> rcases hc with rfl | rfl <;> rfl
    · rfl
    · rfl
  · simp only [round, one_ne_zero, if_true, if_false, List.mem_append, List.mem_cons,
      List.mem_singleton, List.not_mem_nil, or_false, List.mem_flatMap] at hc
    rcases hc with ((rfl | rfl) | ⟨_, _, rfl | rfl⟩) | rfl <;> rfl

/-- Rank 0 and rank 1 of the same rounds exchange along `other`. -/
theorem paired (rs : List Round) : Paired 2 other fun myid => rs.flatMap (round myid) where
  lt r hr := by unfold other; omega
  ne r hr := by unfold other; omega
  invol r hr := by unfold other; omega
  onlyPeer r hr c hc := by
    obtain ⟨rd, -, hc⟩ := List.mem_flatMap.mp hc
    exact onlyPeer_round hr rd c hc
  dual r hr := by
    interval_cases r <;>
      simp [other, comm_round_zero, comm_round_one, List.map_flatMap, List.map_flatten, Call.dual]
  collectives_eq r hr := by
    simp only [collectives_flatMap, collectives_round hr, collectives_round (by decide : 0 < 2)]

/-- Wherever `main` is defined on both ranks, their programs are paired. -/
theorem paired_main {M : Macros} {o : Options} {prog : Nat → List Call}
    (hprog : ∀ myid < 2, main M o 2 myid = some (prog myid)) : Paired 2 other prog := by
  have h0 := hprog 0 (by decide)
  have h1 := hprog 1 (by decide)
  simp only [main, bne_self_eq_false, Bool.or_false] at h0 h1
  cases hsan : sanityCheck M o
  · simp only [hsan, Bool.not_false, if_true, Option.some.injEq] at h0 h1
    exact (paired []).congr fun r hr => by interval_cases r <;> simp [← h0, ← h1]
  · simp only [hsan, Bool.not_true, Bool.false_eq_true, if_false, Option.map_eq_some'] at h0 h1
    obtain ⟨rs, hrs, h0⟩ := h0
    obtain ⟨rs', hrs', h1⟩ := h1
    obtain rfl : rs = rs' := Option.some.inj (hrs.symm.trans hrs')
    exact (paired rs).congr fun r hr => by interval_cases r <;> assumption

/-- Neither rank has two receives in a row within a round, and a round opens with its barrier. -/
theorem recvApart_comm_round {myid : Nat} (h : myid < 2) (r : Round) :
    RecvApart (comm (round myid r)) ∧ ∀ c ∈ (comm (round myid r)).head?, c.isRecv = false := by
  interval_cases myid <;> [rw [comm_round_zero]; rw [comm_round_one]] <;>
    exact ⟨.cons rfl (chain'_replicate (by simp [Call.isRecv]) (by simp [Call.isRecv]) _),
      by simp [Call.isRecv]⟩

theorem recvApart_main {M : Macros} {o : Options} {myid : Nat} {p : List Call} (hmyid : myid < 2)
    (h : main M o 2 myid = some p) : RecvApart (comm p) := by
  simp only [main, bne_self_eq_false, Bool.or_false] at h
  split at h
  · cases h; exact List.chain'_nil
  · obtain ⟨rs, -, rfl⟩ := Option.map_eq_some'.mp h
    rw [comm_flatMap]
    exact (chain'_flatMap (fun r => ⟨(recvApart_comm_round hmyid r).1,
      fun y hy => not_recv_after ((recvApart_comm_round hmyid r).2 y hy)⟩) rs).1

theorem clocked_round_zero (r : Round) : clocked (round 0 r) = .barrier ::
    (timedLoop r.iterations r.skip [.wtime] [.send 1 r.type, .recv 1 r.type] ++ [.wtime]) := by
  simp [round, clocked_cons, Call.isLocal]

/-- Rank 0 reads the clock after a reply or the round's barrier, and before a send or the next
round. -/
theorem clockApart_round_zero (r : Round) :
    (clocked (round 0 r)).Chain' (fun a b => clockSafe a b = true) ∧
      ∀ y ∈ (clocked (round 0 r)).head?, ∀ x, clockSafe x y = true := by
  have hB : Clean [.send 1 r.type, .recv 1 r.type] :=
    ⟨by simp [clockSafe], by simp [Call.isRecv], by simp [Call.isSend]⟩
  have hP := (Clean.singleton (c := .barrier) rfl rfl (by decide)).append (hB.replicate r.skip)
  have hQ : Clean ([.barrier] ++ (List.replicate r.skip [.send 1 r.type, .recv 1 r.type]).flatten ++
      if r.iterations = 0 then [] else .wtime :: (List.replicate r.iterations
        [.send 1 r.type, .recv 1 r.type]).flatten) := by
    split
    · simpa using hP
    · exact hP.wtime (by simp) (hB.replicate _) (by simp [*])
  have := hQ.chain.append (List.chain'_singleton .wtime) fun x hx _ _ =>
    clockSafe_of_last (hQ.last x hx) _
  rw [clocked_round_zero, timedLoop_eq]
  exact ⟨this, fun y hy x => by cases hy; exact clockSafe_of_head (y := .barrier) ⟨rfl, by decide⟩ x⟩

theorem clockApart_main {M : Macros} {o : Options} {p : List Call} (h : main M o 2 0 = some p) :
    ClockApart p := by
  simp only [main, bne_self_eq_false, Bool.or_false] at h
  split at h
  · cases h; exact List.chain'_nil
  · obtain ⟨rs, -, rfl⟩ := Option.map_eq_some'.mp h
    rw [ClockApart, clocked_flatMap]
    exact (chain'_flatMap clockApart_round_zero rs).1

/-- **The ping-pong completes.** Wherever the C code is defined, under every schedule and every
buffering, a reachable state in which a rank has calls left can step, and a run that can go no
further ends with both ranks done and every message received. -/
theorem pingPong_completes (M : Macros) (o : Options) (prog : Nat → List Call)
    (hprog : ∀ myid < 2, main M o 2 myid = some (prog myid)) (eager : Net → Nat → Bool) :
    (∀ s, Reach 2 eager prog s → ¬ s.Final 2 → ∃ s', Step 2 eager s s') ∧
    ∀ s, Reach 2 eager prog s → (∀ s', ¬ Step 2 eager s s') →
      s.Final 2 ∧ ∀ r < 2, ∀ q, s.chan r q = [] :=
  have hP := paired_main hprog
  ⟨fun _ hs hnf => (hP.inv hs).progress hP.toPairing hnf, fun _ hs hstuck => hP.complete hs hstuck⟩

theorem pingPong_completes_three_sizes :
    (∀ myid < 2, main ⟨8192, 1, 64, 64⟩ ⟨1, 4, 2, 1, 1, 0, 0, false, false, 1, 2⟩ 2 myid =
      some ((main ⟨8192, 1, 64, 64⟩ ⟨1, 4, 2, 1, 1, 0, 0, false, false, 1, 2⟩ 2 myid).getD [])) ∧
    ∀ s, Reach 2 (fun _ _ => false)
        (fun myid => (main ⟨8192, 1, 64, 64⟩ ⟨1, 4, 2, 1, 1, 0, 0, false, false, 1, 2⟩ 2 myid).getD [])
        s → (∀ s', ¬ Step 2 (fun _ _ => false) s s') →
      s.Final 2 ∧ ∀ r < 2, ∀ q, s.chan r q = [] :=
  ⟨by decide, (pingPong_completes ⟨8192, 1, 64, 64⟩ ⟨1, 4, 2, 1, 1, 0, 0, false, false, 1, 2⟩ _
    (by decide) _).2⟩

theorem main_eq_none {M : Macros} {o : Options} (hsan : sanityCheck M o = true)
    (hplan : plan (latencyDtSwitch M o.raiseToBlock) o.raiseToBlock = none) (myid : Nat) :
    main M o 2 myid = none := by
  simp [main, hsan, hplan]

/-- **The sanity check admits `dt_block_size = 0`.** The first round then divides by zero: on
two processes `main` is undefined before its exchange begins. -/
theorem main_undefined_of_zero_block (M : Macros) (o : Options) (hb : o.dtBlockSize = 0)
    (hstride : o.dtStrideSize ≤ M.maxDtStrideSize) (hsize : o.minMessageSize ≤ o.maxMessageSize)
    (myid : Nat) : sanityCheck M o = true ∧ main M o 2 myid = none := by
  have hsan := sanityCheck_of_zero_block hb hstride
  refine ⟨hsan, main_eq_none hsan ?_ myid⟩
  rw [raiseToBlock_of_zero hb]
  exact plan_eq_none_of_zero_block _ hb hsize

theorem main_undefined_of_zero_block_one_byte :
    (⟨1, 1, 1, 1, 0, 0, 0, false, false, 0, 0⟩ : Options).dtBlockSize = 0 ∧
    sanityCheck ⟨8192, 1, 64, 64⟩ ⟨1, 1, 1, 1, 0, 0, 0, false, false, 0, 0⟩ = true ∧
      main ⟨8192, 1, 64, 64⟩ ⟨1, 1, 1, 1, 0, 0, 0, false, false, 0, 0⟩ 2 0 = none :=
  ⟨rfl, main_undefined_of_zero_block _ _ rfl (by decide) (by decide) 0⟩

end OsuMicroBenchmarks.Pt2pt.LatencyDt
