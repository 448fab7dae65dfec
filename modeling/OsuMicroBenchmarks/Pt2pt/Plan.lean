import OsuMicroBenchmarks.SizeLoop
import OsuMicroBenchmarks.Pt2pt.Net

/-!
# The size loop of the pt2pt benchmarks

`osu_latency_dt` and `osu_multi_lat_dt` share everything around their exchanges: the sanity
check of the layout options, the raise of `min_message_size` to `dt_block_size`, the size loop
with its large-message switch, and the vector datatype built for each size. `plan` is what the
loop computes, the same on every rank: the rounds, each with its size, its datatype and the
`iterations` and `skip` in effect. It is `none` where the C code is undefined: a division by a
zero `dt_block_size`, or a doubling of `size` past `INT_MAX`.

`timedLoop` is the shape of every timed loop of the two benchmarks; `timedLoop_eq` says which
iterations fall inside the timed window.
-/

namespace OsuMicroBenchmarks.Pt2pt

/-- The sanity check of the layout options (lines 33-38 of `osu_latency_dt`, 31-36 of
`osu_multi_lat_dt`): `true` when it leaves `po_ret` alone. -/
def sanityCheck (M : Macros) (o : Options) : Bool :=
  !(o.dtBlockSize > o.dtStrideSize || o.dtBlockSize > M.maxDtBlockSize ||
    o.dtStrideSize > M.maxDtStrideSize)

/-- `rep_count = size / options.dt_block_size` and the `MPI_Type_vector` of `rep_count` blocks
of `dt_block_size` chars, `dt_stride_size` apart. -/
def vectorType (o : Options) (size : Nat) : Option Datatype :=
  (cDiv size o.dtBlockSize).map fun repCount => ⟨repCount, o.dtBlockSize, o.dtStrideSize⟩

/-- A round of the size loop: its size, the datatype built for it, and the `iterations` and
`skip` in effect after the large-message switch. -/
structure Round where
  size : Nat
  type : Datatype
  iterations : Nat
  skip : Nat
deriving DecidableEq, Repr

/-- The rounds of the sizes `sizes`, from `iterations` and `skip` as the previous round left
them: the switch assigns to `options`, so its effect persists. -/
def rounds (switch : Nat → Nat → Nat → Nat × Nat) (o : Options) :
    List Nat → Nat → Nat → Option (List Round)
  | [], _, _ => some []
  | size :: sizes, iterations, skip => do
    let its := switch size iterations skip
    let t ← vectorType o size
    let rs ← rounds switch o sizes its.1 its.2
    pure (⟨size, t, its.1, its.2⟩ :: rs)

/-- The rounds of the size loop for `options` after the raise of `min_message_size`. -/
def plan (switch : Nat → Nat → Nat → Nat × Nat) (o : Options) : Option (List Round) :=
  (pt2ptSeries o).bind fun sizes => rounds switch o sizes o.iterations o.skip

/-- A loop `for (i = 0; i < iterations + skip; i++) { if (i == skip) { atSkip } body }`. -/
def timedLoop (iterations skip : Nat) (atSkip body : List Call) : List Call :=
  (List.range (iterations + skip)).flatMap fun i => (if i = skip then atSkip else []) ++ body

/-! ## Layouts -/

/-- The sanity check compares `dt_block_size` with upper bounds only: it admits zero. -/
theorem sanityCheck_of_zero_block {M : Macros} {o : Options} (hb : o.dtBlockSize = 0)
    (hstride : o.dtStrideSize ≤ M.maxDtStrideSize) : sanityCheck M o = true := by
  simp [sanityCheck, hb, not_lt.mpr hstride]

theorem vectorType_eq_none {o : Options} {size : Nat} :
    vectorType o size = none ↔ o.dtBlockSize = 0 := by
  simp [vectorType]

theorem rounds_eq_none_of_mem {switch : Nat → Nat → Nat → Nat × Nat} {o : Options}
    (h : o.dtBlockSize = 0) : ∀ {sizes : List Nat} {size : Nat}, size ∈ sizes →
      ∀ iterations skip, rounds switch o sizes iterations skip = none
  | _ :: _, _, .head _, _, _ => by simp [rounds, vectorType_eq_none.mpr h]
  | _ :: _, _, .tail _ hs, _, _ => by
    simp only [rounds, Option.bind_eq_bind, Option.pure_def]
    rw [rounds_eq_none_of_mem h hs]
    cases vectorType o _ <;> rfl

theorem plan_eq_none_of_series {switch : Nat → Nat → Nat → Nat × Nat} {o : Options}
    (h : pt2ptSeries o = none) : plan switch o = none := by
  simp [plan, h]

/-- With `dt_block_size = 0` the first round already divides by zero. -/
theorem plan_eq_none_of_zero_block (switch : Nat → Nat → Nat → Nat × Nat) {o : Options}
    (hb : o.dtBlockSize = 0) (h : o.minMessageSize ≤ o.maxMessageSize) : plan switch o = none := by
  unfold plan
  cases hs : pt2ptSeries o with
  | none => rfl
  | some sizes =>
    exact rounds_eq_none_of_mem hb (eq_pt2ptSizes_of_pt2ptSeries hs ▸ start_mem_pt2ptSizes h) _ _

/-- Over increasing sizes the persistent switch gives each round the `iterations` and `skip` a
switch from the options' own values would: once a size passes `LARGE_MESSAGE_SIZE`, all later
ones do. -/
theorem rounds_switch {M : Macros} {o : Options} : ∀ {sizes : List Nat} {iterations skip : Nat}
    {rs : List Round}, sizes.Pairwise (· < ·) →
    ((iterations, skip) = (o.iterations, o.skip) ∨ ((iterations, skip) =
      (o.iterationsLarge, o.skipLarge) ∧ ∀ s ∈ sizes, M.largeMessageSize < s)) →
    rounds (largeMessageSwitch M o) o sizes iterations skip = some rs →
    ∀ r ∈ rs, (r.iterations, r.skip) = largeMessageSwitch M o r.size o.iterations o.skip
  | [], _, _, rs, _, _, h => by cases h; simp
  | size :: sizes, iterations, skip, rs, hs, hinv, h => by
    simp only [rounds, Option.bind_eq_bind, Option.pure_def, Option.bind_eq_some,
      Option.some.injEq] at h
    obtain ⟨t, -, rs', hrs', rfl⟩ := h
    obtain ⟨hlt, hs'⟩ := List.pairwise_cons.mp hs
    rintro r (_ | ⟨_, hr⟩)
    · show largeMessageSwitch M o size iterations skip = _
      unfold largeMessageSwitch
      split
      · rfl
      · rcases hinv with h | ⟨-, hL⟩
        · exact h
        · exact absurd (hL size (List.mem_cons_self _ _)) (by omega)
    · refine rounds_switch hs' ?_ hrs' r hr
      unfold largeMessageSwitch
      split
      · exact .inr ⟨rfl, fun s hsz => lt_trans (by omega) (hlt s hsz)⟩
      · exact hinv.imp id fun ⟨h, hL⟩ => ⟨h, fun s hsz => hL s (List.mem_cons_of_mem _ hsz)⟩

/-- Every round of the plan runs the `iterations` and `skip` of its own size. -/
theorem plan_switch {M : Macros} {o : Options} {rs : List Round}
    (h : plan (largeMessageSwitch M o) o = some rs) :
    ∀ r ∈ rs, (r.iterations, r.skip) = largeMessageSwitch M o r.size o.iterations o.skip := by
  obtain ⟨sizes, hs, hrs⟩ := Option.bind_eq_some.mp h
  have hsorted : sizes.Pairwise (· < ·) := by
    rw [eq_pt2ptSizes_of_pt2ptSeries hs]
    exact List.chain'_iff_pairwise.mp (pt2ptSizes_exits o).2.2.1
  exact rounds_switch hsorted (.inl rfl) hrs

/-! ## Timed loops -/

private theorem flatMap_eq_flatten_replicate {α : Type} (l : List α) (f : α → List Call)
    (b : List Call) (h : ∀ x ∈ l, f x = b) : l.flatMap f = (List.replicate l.length b).flatten := by
  induction l with
  | nil => rfl
  | cons x l ih =>
    simp only [List.flatMap_cons, List.length_cons, List.replicate_succ, List.flatten_cons,
      h x (List.mem_cons_self _ _), ih fun y hy => h y (List.mem_cons_of_mem _ hy)]

/-- The iterations of a loop that does the same thing each time. -/
theorem range_flatMap_const (count : Nat) (body : List Call) :
    ((List.range count).flatMap fun _ => body) = (List.replicate count body).flatten := by
  rw [flatMap_eq_flatten_replicate _ _ body (fun _ _ => rfl), List.length_range]

/-- **The timed window.** A timed loop runs `skip` iterations of `body`, then, when there are
measured iterations at all, the calls `atSkip` that open the window followed by the `iterations`
measured iterations. -/
theorem timedLoop_eq (iterations skip : Nat) (atSkip body : List Call) :
    timedLoop iterations skip atSkip body = (List.replicate skip body).flatten ++
      if iterations = 0 then [] else atSkip ++ (List.replicate iterations body).flatten := by
  rw [timedLoop, Nat.add_comm, List.range_add, List.flatMap_append,
    flatMap_eq_flatten_replicate _ _ body fun i hi => by simp [(List.mem_range.mp hi).ne],
    List.length_range, List.flatMap_map]
  congr 1
  cases iterations with
  | zero => rfl
  | succ k =>
    rw [List.range_succ_eq_map, List.flatMap_cons, List.flatMap_map,
      flatMap_eq_flatten_replicate _ _ body fun i _ => by simp, List.length_range]
    simp [List.replicate_succ]

/-- A loop with at least one iteration begins with iteration 0. -/
theorem timedLoop_of_pos {iterations skip : Nat} (h : 0 < iterations + skip) (atSkip body : List Call) :
    ∃ rest, timedLoop iterations skip atSkip body = (if skip = 0 then atSkip else []) ++ body ++ rest := by
  obtain ⟨k, hk⟩ := Nat.exists_eq_succ_of_ne_zero (Nat.pos_iff_ne_zero.mp h)
  refine ⟨(List.range k).flatMap fun i => (if i + 1 = skip then atSkip else []) ++ body, ?_⟩
  rw [timedLoop, hk, List.range_succ_eq_map, List.flatMap_cons, List.flatMap_map]
  simp [eq_comm]

theorem timedLoop_nil (iterations skip : Nat) (body : List Call) :
    timedLoop iterations skip [] body = (List.replicate (iterations + skip) body).flatten := by
  simp only [timedLoop, ite_self, List.nil_append, range_flatMap_const]

@[simp] theorem comm_timedLoop (iterations skip : Nat) (atSkip body : List Call) :
    comm (timedLoop iterations skip atSkip body) =
      timedLoop iterations skip (comm atSkip) (comm body) := by
  simp [timedLoop, apply_ite comm]

@[simp] theorem clocked_timedLoop (iterations skip : Nat) (atSkip body : List Call) :
    clocked (timedLoop iterations skip atSkip body) =
      timedLoop iterations skip (clocked atSkip) (clocked body) := by
  simp [timedLoop, apply_ite clocked]

@[simp] theorem collectives_timedLoop (iterations skip : Nat) (atSkip body : List Call) :
    collectives (timedLoop iterations skip atSkip body) =
      timedLoop iterations skip (collectives atSkip) (collectives body) := by
  simp [timedLoop, collectives, List.filter_flatMap, apply_ite (List.filter Call.isCollective)]

@[simp] theorem map_dual_timedLoop (r iterations skip : Nat) (atSkip body : List Call) :
    (timedLoop iterations skip atSkip body).map (Call.dual r) =
      timedLoop iterations skip (atSkip.map (Call.dual r)) (body.map (Call.dual r)) := by
  simp [timedLoop, List.map_flatMap, apply_ite (List.map (Call.dual r))]

theorem mem_timedLoop {iterations skip : Nat} {atSkip body : List Call} {c : Call}
    (h : c ∈ timedLoop iterations skip atSkip body) : c ∈ atSkip ∨ c ∈ body := by
  simp only [timedLoop, List.mem_flatMap, List.mem_append] at h
  obtain ⟨i, -, h | h⟩ := h
  · split at h
    · exact .inl h
    · simp at h
  · exact .inr h

end OsuMicroBenchmarks.Pt2pt
