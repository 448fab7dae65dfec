import Mathlib

/-!
# Options, header macros and C arithmetic

The fields of the process-wide `options` record that the modelled benchmarks read, and the
macros of `osu_util.h` they use. Neither the record's declaration nor the header is among the
repository's sources, so both are parameters of the model: an `Options` value is whatever
the option parsing left behind (`process_options`, and for `osu_ireduce_scatter` also
`check_mem_limit`, which may lower `max_message_size`), a `Macros` value whatever the header
defines. Sizes and counts are unsigned, so they are natural numbers here.

The loop variable `size` of every benchmark is a C `int`: `intMax` is its range, and the
operations whose C meaning is undefined for some operands (`cDiv` by zero, `intDouble` past
`intMax`) return `Option`. The error counters of `osu_ireduce_scatter` are `int`s too, and are
summed by `MPI_SUM` over `MPI_INT`; `intWrap` gives the value they hold.
-/

namespace OsuMicroBenchmarks

/-- The fields of `options` read by the benchmark loops. -/
structure Options where
  minMessageSize : Nat
  maxMessageSize : Nat
  iterations : Nat
  iterationsLarge : Nat
  skip : Nat
  skipLarge : Nat
  warmupValidation : Nat
  validate : Bool
  graph : Bool
  dtBlockSize : Nat
  dtStrideSize : Nat
deriving DecidableEq, Repr

/-- The macros `LARGE_MESSAGE_SIZE`, `MIN_MESSAGE_SIZE`, `MAX_DT_BLOCK_SIZE` and
`MAX_DT_STRIDE_SIZE` of the utility header. -/
structure Macros where
  largeMessageSize : Nat
  minMessageSize : Nat
  maxDtBlockSize : Nat
  maxDtStrideSize : Nat
deriving DecidableEq, Repr

/-- `INT_MAX` of a 32-bit `int`. -/
def intMax : Nat := 2 ^ 31 - 1

/-- `sizeof(float)`. -/
def sizeofFloat : Nat := 4

/-- C `int` division `a / b` of non-negative operands: undefined when `b = 0`. -/
def cDiv (a b : Nat) : Option Nat := if b = 0 then none else some (a / b)

/-- C `int` product `size * 2`: undefined past `INT_MAX`. -/
def intDouble (size : Nat) : Option Nat := if size * 2 ≤ intMax then some (size * 2) else none

/-- The `int` that the 32-bit two's complement arithmetic of the targets holds for the exact
value `x`: `x` reduced modulo `2^32` into `[-2^31, 2^31)`. Signed overflow is undefined in C;
this is the wrap-around the targets perform, in `+=` and in the `MPI_SUM` of `MPI_INT`s. -/
def intWrap (x : Int) : Int := (x + 2 ^ 31) % 2 ^ 32 - 2 ^ 31

@[simp] theorem cDiv_eq_none {a b : Nat} : cDiv a b = none ↔ b = 0 := by
  unfold cDiv; split <;> simp_all

@[simp] theorem intDouble_eq_none {size : Nat} : intDouble size = none ↔ intMax < size * 2 := by
  unfold intDouble; split <;> simp_all

/-- An `int` holds every value of its range exactly. -/
theorem intWrap_of_le {x : Int} (h₀ : -2 ^ 31 ≤ x) (h₁ : x ≤ intMax) : intWrap x = x := by
  simp only [intWrap, intMax] at *
  omega

/-- A wrap inside a sum can be taken outside it: wrapping after every `+=` is wrapping once. -/
theorem intWrap_add_intWrap (x y : Int) : intWrap (intWrap x + y) = intWrap (x + y) := by
  simp only [intWrap]
  omega

@[simp] theorem intWrap_intWrap (x : Int) : intWrap (intWrap x) = intWrap x := by
  simpa using intWrap_add_intWrap x 0

/-- The large-message switch at the top of a size round: past `LARGE_MESSAGE_SIZE` the loops
run `iterations_large` iterations after `skip_large` warm-up ones. The assignment is to
`options` itself, so it persists into later rounds. -/
def largeMessageSwitch (M : Macros) (o : Options) (size iterations skip : Nat) : Nat × Nat :=
  if size > M.largeMessageSize then (o.iterationsLarge, o.skipLarge) else (iterations, skip)

/-- The switch of `osu_ireduce_scatter` (lines 107-110). -/
def ireduceScatterSwitch (M : Macros) (o : Options) (size iterations skip : Nat) : Nat × Nat :=
  largeMessageSwitch M o size iterations skip

/-- The switch of `osu_latency_dt` (lines 116-119). -/
def latencyDtSwitch (M : Macros) (o : Options) (size iterations skip : Nat) : Nat × Nat :=
  largeMessageSwitch M o size iterations skip

/-- The switch of `multi_latency` (lines 135-141); its `else` branch assigns `iterations` and
`skip` to themselves. -/
def multiLatencySwitch (M : Macros) (o : Options) (size iterations skip : Nat) : Nat × Nat :=
  if size > M.largeMessageSize then (o.iterationsLarge, o.skipLarge) else (iterations, skip)

/-- The three switches are one function: the self-assignments of `multi_latency` change
nothing. -/
theorem multiLatencySwitch_eq : multiLatencySwitch = largeMessageSwitch := rfl

end OsuMicroBenchmarks
