import OsuMicroBenchmarks.Options

/-!
# The message-size loops

Every benchmark runs one round per message size, in a loop
`for (size = start; guard size; size = next size)`. `sizesFrom` lists the sizes such a loop
visits, with a fuel bound on the number of rounds; `sizesFrom_exits` shows that when `next`
increases and the guard bounds `size`, enough fuel makes the list exactly the rounds before the
guard first fails, so the C loop terminates after that many rounds.

The two loop headers of the repository:

* `pt2ptSizes`: `size = (size ? size * 2 : 1)` while `size <= max_message_size`, from
  `min_message_size` raised to `dt_block_size` (`osu_latency_dt`, `multi_latency`);
* `ireduceScatterSizes`: `size *= 2` while `size * sizeof(float) <= max_message_size`, from
  `min_message_size / sizeof(float)` raised to `MIN_MESSAGE_SIZE`.

`size` is an `int`; `pt2ptSeries` and `ireduceScatterSeries` are the two loops with their
updates checked against `INT_MAX`, defined where C defines them.
-/

namespace OsuMicroBenchmarks

/-- The sizes visited by `for (size = size; guard size; size = next size)`, for at most `fuel`
rounds. -/
def sizesFrom (next : Nat → Nat) (guard : Nat → Bool) : Nat → Nat → List Nat
  | 0, _ => []
  | fuel + 1, size => if guard size then size :: sizesFrom next guard fuel (next size) else []

/-- The loop runs `n` rounds from `start`: the guard holds at rounds `0 .. n-1` and fails at
round `n`. -/
def Exits (next : Nat → Nat) (guard : Nat → Bool) (start n : Nat) : Prop :=
  (∀ k < n, guard (next^[k] start) = true) ∧ guard (next^[n] start) = false

section
variable {next : Nat → Nat} {guard : Nat → Bool}

@[simp] theorem sizesFrom_zero (size : Nat) : sizesFrom next guard 0 size = [] := rfl

theorem sizesFrom_succ (fuel size : Nat) : sizesFrom next guard (fuel + 1) size =
    if guard size then size :: sizesFrom next guard fuel (next size) else [] := rfl

theorem guard_of_mem_sizesFrom {fuel size s : Nat} (h : s ∈ sizesFrom next guard fuel size) :
    guard s = true := by
  induction fuel generalizing size with
  | zero => simp at h
  | succ fuel ih =>
    rw [sizesFrom_succ] at h
    split at h
    · rcases List.mem_cons.mp h with rfl | h
      · assumption
      · exact ih h
    · simp at h

theorem Exits.succ {start n : Nat} (h : Exits next guard (next start) n)
    (hg : guard start = true) : Exits next guard start (n + 1) := by
  refine ⟨fun k hk => ?_, by rw [Function.iterate_succ_apply]; exact h.2⟩
  cases k with
  | zero => exact hg
  | succ k => rw [Function.iterate_succ_apply]; exact h.1 k (by omega)

/-- **Termination of a size loop.** If `next` increases every size from `start` on and the
guard admits no size above `B`, then `B + 1 - start` rounds of fuel suffice: `sizesFrom` lists
the sizes of exactly the rounds before the guard first fails. -/
theorem sizesFrom_exits {B : Nat} (hbound : ∀ s, guard s = true → s ≤ B) :
    ∀ (fuel start : Nat), (∀ s, start ≤ s → s < next s) → B + 1 ≤ fuel + start →
      Exits next guard start (sizesFrom next guard fuel start).length ∧
      sizesFrom next guard fuel start =
        (List.range (sizesFrom next guard fuel start).length).map (next^[·] start)
  | 0, start, _, hfuel => by
    have : guard start = false := by
      by_contra hg; have := hbound start (by simpa using hg); omega
    exact ⟨⟨by simp, this⟩, rfl⟩
  | fuel + 1, start, hinc, hfuel => by
    rw [sizesFrom_succ]
    split
    case isTrue hg =>
      have hnext := hinc start le_rfl
      obtain ⟨hex, heq⟩ := sizesFrom_exits hbound fuel (next start)
        (fun s hs => hinc s (by omega)) (by omega)
      refine ⟨hex.succ hg, ?_⟩
      rw [List.length_cons, List.range_succ_eq_map, List.map_cons, List.map_map, heq]
      simp [Function.comp_def, Function.iterate_succ_apply]
    case isFalse hg => exact ⟨⟨by simp, by simpa using hg⟩, rfl⟩

/-- A loop's first size is the one it starts from. -/
theorem head?_sizesFrom {fuel size y : Nat} (h : y ∈ (sizesFrom next guard fuel size).head?) :
    y = size := by
  cases fuel with
  | zero => simp at h
  | succ fuel => rw [sizesFrom_succ] at h; split at h <;> simp_all

/-- The sizes of a loop with increasing `next` strictly increase. -/
theorem sizesFrom_chain : ∀ (fuel start : Nat), (∀ s, start ≤ s → s < next s) →
    (sizesFrom next guard fuel start).Chain' (· < ·)
  | 0, _, _ => List.chain'_nil
  | fuel + 1, start, hinc => by
    rw [sizesFrom_succ]
    split
    · have hnext := hinc start le_rfl
      refine (sizesFrom_chain fuel (next start) fun s hs => hinc s (by omega)).cons' fun y hy => ?_
      rw [head?_sizesFrom hy]
      exact hnext
    · exact List.chain'_nil

end

/-! ## The pt2pt loop -/

/-- `size = (size ? size * 2 : 1)`. -/
def pt2ptNext (size : Nat) : Nat := if size ≠ 0 then size * 2 else 1

theorem lt_pt2ptNext (size : Nat) : size < pt2ptNext size := by
  unfold pt2ptNext; split <;> omega

/-- `options.min_message_size` after lines 40-42 of the pt2pt benchmarks raise it to
`options.dt_block_size`. -/
def Options.raiseToBlock (o : Options) : Options :=
  if o.dtBlockSize > o.minMessageSize then { o with minMessageSize := o.dtBlockSize } else o

/-- The sizes visited by the loop of `osu_latency_dt` (line 112) and of `multi_latency`
(line 133), for the options after the raise. -/
def pt2ptSizes (o : Options) : List Nat :=
  sizesFrom pt2ptNext (· ≤ o.maxMessageSize) (o.maxMessageSize + 1) o.minMessageSize

/-- The pt2pt loop with its `int` updates: undefined when one of them passes `INT_MAX`. -/
def pt2ptSeries (o : Options) : Option (List Nat) :=
  if (pt2ptSizes o).all (fun size => (pt2ptNext size ≤ intMax : Bool)) then some (pt2ptSizes o)
  else none

/-- The pt2pt loop terminates: it visits the sizes of the rounds before the first size above
`max_message_size`, strictly increasing, each within the guard. -/
theorem pt2ptSizes_exits (o : Options) :
    Exits pt2ptNext (· ≤ o.maxMessageSize) o.minMessageSize (pt2ptSizes o).length ∧
    pt2ptSizes o = (List.range (pt2ptSizes o).length).map (pt2ptNext^[·] o.minMessageSize) ∧
    (pt2ptSizes o).Chain' (· < ·) ∧ ∀ size ∈ pt2ptSizes o, size ≤ o.maxMessageSize :=
  ⟨(sizesFrom_exits (B := o.maxMessageSize) (by simp) _ _ (fun s _ => lt_pt2ptNext s)
      (by omega)).1,
   (sizesFrom_exits (B := o.maxMessageSize) (by simp) _ _ (fun s _ => lt_pt2ptNext s)
      (by omega)).2,
   sizesFrom_chain _ _ (fun s _ => lt_pt2ptNext s),
   fun _ h => by simpa using guard_of_mem_sizesFrom h⟩

@[simp] theorem raiseToBlock_maxMessageSize (o : Options) :
    o.raiseToBlock.maxMessageSize = o.maxMessageSize := by
  unfold Options.raiseToBlock; split <;> rfl

theorem raiseToBlock_of_zero {o : Options} (h : o.dtBlockSize = 0) : o.raiseToBlock = o := by
  simp [Options.raiseToBlock, h]

theorem start_mem_pt2ptSizes {o : Options} (h : o.minMessageSize ≤ o.maxMessageSize) :
    o.minMessageSize ∈ pt2ptSizes o := by
  simp [pt2ptSizes, sizesFrom_succ, h]

theorem eq_pt2ptSizes_of_pt2ptSeries {o : Options} {sizes : List Nat}
    (h : pt2ptSeries o = some sizes) : sizes = pt2ptSizes o := by
  unfold pt2ptSeries at h; split at h <;> simp_all

theorem pt2ptSeries_eq_none_of_mem {o : Options} {size : Nat} (h : size ∈ pt2ptSizes o)
    (hov : intMax < pt2ptNext size) : pt2ptSeries o = none := by
  simp only [pt2ptSeries, List.all_eq_true, decide_eq_true_eq, ite_eq_right_iff,
    reduceCtorEq, imp_false, not_forall]
  exact ⟨size, h, by omega⟩

/-- Below `2^30` no doubling of `size` passes `INT_MAX`: the loop is defined. -/
theorem pt2ptSeries_of_lt (o : Options) (h : o.maxMessageSize < 2 ^ 30) :
    pt2ptSeries o = some (pt2ptSizes o) := by
  simp only [pt2ptSeries, List.all_eq_true, decide_eq_true_eq, ite_eq_left_iff, reduceCtorEq,
    imp_false, not_not]
  intro size hs
  have := (pt2ptSizes_exits o).2.2.2 size hs
  simp only [pt2ptNext, intMax]; split <;> omega

theorem pt2ptSeries_of_lt_one_mib :
    (⟨1, 2 ^ 20, 1, 1, 0, 0, 0, false, false, 1, 1⟩ : Options).maxMessageSize < 2 ^ 30 ∧
      pt2ptSeries ⟨1, 2 ^ 20, 1, 1, 0, 0, 0, false, false, 1, 1⟩ =
        some (pt2ptSizes ⟨1, 2 ^ 20, 1, 1, 0, 0, 0, false, false, 1, 1⟩) :=
  ⟨by decide, pt2ptSeries_of_lt _ (by decide)⟩

theorem pt2ptNext_iterate_one (k : Nat) : pt2ptNext^[k] 1 = 2 ^ k := by
  induction k with
  | zero => rfl
  | succ k ih =>
    rw [Function.iterate_succ_apply', ih, pt2ptNext, if_pos (by positivity), Nat.pow_succ]

/-- A series from 0 or 1 reaches `2^30` whenever `max_message_size` allows it. -/
theorem two_pow_thirty_mem_pt2ptSizes {o : Options} (hmin : o.minMessageSize ≤ 1)
    (hmax : 2 ^ 30 ≤ o.maxMessageSize) : 2 ^ 30 ∈ pt2ptSizes o := by
  obtain ⟨⟨-, hexit⟩, heq, -⟩ := pt2ptSizes_exits o
  -- the series from `min_message_size` is the series from 1, one round later when it starts at 0
  obtain ⟨d, hd, hpow⟩ : ∃ d ≤ 1, ∀ k, pt2ptNext^[k + d] o.minMessageSize = 2 ^ k := by
    rcases Nat.le_one_iff_eq_zero_or_eq_one.mp hmin with h | h
    · exact ⟨1, le_rfl, fun k => by rw [h, Function.iterate_add_apply]; exact pt2ptNext_iterate_one k⟩
    · exact ⟨0, Nat.zero_le _, fun k => by rw [h]; exact pt2ptNext_iterate_one k⟩
  have hlen : 30 + d < (pt2ptSizes o).length := by
    by_contra hle
    obtain ⟨j, hj⟩ := Nat.exists_eq_add_of_le (not_lt.mp hle)
    have hle' : pt2ptNext^[(pt2ptSizes o).length] o.minMessageSize ≤ o.maxMessageSize := by
      rcases Nat.lt_or_ge (pt2ptSizes o).length d with hlt | hge
      · have : (pt2ptSizes o).length = 0 ∧ d = 1 := by omega
        rw [this.1]; simp only [Function.iterate_zero, id]; omega
      · obtain ⟨k, hk⟩ := Nat.exists_eq_add_of_le hge
        rw [hk, Nat.add_comm d k, hpow]
        exact le_trans (Nat.pow_le_pow_right (by decide) (by omega)) hmax
    simp [hle'] at hexit
  rw [heq, List.mem_map]
  exact ⟨30 + d, List.mem_range.mpr hlen, hpow 30⟩

/-! ## The `osu_ireduce_scatter` loop -/

/-- The first size of `osu_ireduce_scatter`, in floats: `min_message_size / sizeof(float)`,
raised to `MIN_MESSAGE_SIZE` (lines 81-84). -/
def ireduceScatterStart (M : Macros) (o : Options) : Nat :=
  if o.minMessageSize / sizeofFloat < M.minMessageSize then M.minMessageSize
  else o.minMessageSize / sizeofFloat

/-- The loop guard of line 105. -/
def ireduceScatterGuard (o : Options) (size : Nat) : Bool := size * sizeofFloat ≤ o.maxMessageSize

/-- The sizes visited by the loop of lines 105-106. -/
def ireduceScatterSizes (M : Macros) (o : Options) : List Nat :=
  sizesFrom (· * 2) (ireduceScatterGuard o) (o.maxMessageSize + 1) (ireduceScatterStart M o)

/-- Below `max_message_size = 2^32` every size of the series doubles within `INT_MAX`. -/
theorem double_le_intMax_of_mem {M : Macros} {o : Options} (hmax : o.maxMessageSize < 2 ^ 32)
    {size : Nat} (hs : size ∈ ireduceScatterSizes M o) : size * 2 ≤ intMax := by
  have := guard_of_mem_sizesFrom hs
  simp only [ireduceScatterGuard, sizeofFloat, decide_eq_true_eq] at this
  simp only [intMax]
  omega

/-- Below `max_message_size = 2^32` no doubling of `size` in `osu_ireduce_scatter` passes
`INT_MAX`. -/
theorem ireduceScatterSizes_no_overflow (M : Macros) (o : Options) (hmax : o.maxMessageSize < 2 ^ 32) :
    ∀ size ∈ ireduceScatterSizes M o, intDouble size = some (size * 2) := by
  intro size hs
  exact if_pos (double_le_intMax_of_mem hmax hs)

theorem ireduceScatterSizes_no_overflow_four_gib :
    (⟨4, 2 ^ 32 - 1, 1, 1, 0, 0, 0, true, false, 0, 0⟩ : Options).maxMessageSize < 2 ^ 32 ∧
      ∀ size ∈ ireduceScatterSizes ⟨8192, 1, 64, 64⟩ ⟨4, 2 ^ 32 - 1, 1, 1, 0, 0, 0, true, false, 0, 0⟩,
        intDouble size = some (size * 2) :=
  ⟨by decide, ireduceScatterSizes_no_overflow _ _ (by decide)⟩

end OsuMicroBenchmarks
