import OsuMicroBenchmarks.SizeLoop

/-!
# The receive counts of `osu_ireduce_scatter`

At the top of each size round the loop of lines 113-125 rewrites every entry of the `int`
array `recvcounts`, allocated once with `numprocs` entries (line 85), from `portion = size /
numprocs` and `remainder = size % numprocs`; a separate branch handles `size < numprocs`.
`fillRecvcounts` is that loop over the array's previous contents.

`fillRecvcounts_getElem` gives every entry in closed form, whatever the array held before:
`size / numprocs`, plus one below `size % numprocs`. The partition facts (entries non-negative,
non-increasing, within one of each other, summing to `size`) follow from it, and with the loop
guard `size * sizeof(float) ≤ max_message_size` so do the bounds of the `MPI_Ireduce_scatter`
call against the buffers of lines 90-101 (`ireduceScatter_within_buffers`).
-/

namespace OsuMicroBenchmarks.IreduceScatter

/-- Entry `i` in the branch `size < numprocs` (lines 115-118). -/
def smallCount (size i : Nat) : Int := if i < size then 1 else 0

/-- Entry `i` in the portion/remainder branch (lines 119-124). -/
def splitCount (size numprocs i : Nat) : Int :=
  let portion := size / numprocs
  let remainder := size % numprocs
  let count : Int := if remainder ≠ 0 ∧ i < remainder then 0 + 1 else 0
  count + portion

/-- Entry `i` as the loop body writes it. -/
def recvcount (size numprocs i : Nat) : Int :=
  if size < numprocs then smallCount size i else splitCount size numprocs i

/-- The loop of lines 113-125 over the previous contents `recvcounts` of the array. -/
def fillRecvcounts (size numprocs : Nat) (recvcounts : List Int) : List Int :=
  (List.range numprocs).foldl (fun rc i => rc.set i (recvcount size numprocs i)) recvcounts

/-- The closed form of an entry: the even share, plus one for the first `size % numprocs`
ranks. -/
def share (size numprocs i : Nat) : Int :=
  ((size / numprocs : Nat) : Int) + if i < size % numprocs then 1 else 0

theorem splitCount_eq (size numprocs i : Nat) : splitCount size numprocs i = share size numprocs i := by
  unfold splitCount share
  by_cases h : i < size % numprocs
  · simp [h, show size % numprocs ≠ 0 by omega]; omega
  · simp [h]

/-- The special branch for `size < numprocs` writes what the general branch would. -/
theorem smallCount_eq_splitCount {size numprocs : Nat} (h : size < numprocs) (i : Nat) :
    smallCount size i = splitCount size numprocs i := by
  rw [splitCount_eq, share, Nat.div_eq_of_lt h, Nat.mod_eq_of_lt h]
  simp [smallCount]

theorem recvcount_eq (size numprocs i : Nat) : recvcount size numprocs i = share size numprocs i := by
  unfold recvcount
  split
  · rw [smallCount_eq_splitCount ‹_›, splitCount_eq]
  · exact splitCount_eq ..

private theorem foldl_set_length (g : Nat → Int) :
    ∀ (xs : List Nat) (l : List Int), (xs.foldl (fun rc i => rc.set i (g i)) l).length = l.length
  | [], _ => rfl
  | x :: xs, l => by rw [List.foldl_cons, foldl_set_length g xs, List.length_set]

@[simp] theorem fillRecvcounts_length (size numprocs : Nat) (recvcounts : List Int) :
    (fillRecvcounts size numprocs recvcounts).length = recvcounts.length :=
  foldl_set_length _ _ _

/-- After the first `k` rounds of the loop the entries below `k` are written and the others
are as before. -/
private theorem foldl_set_range_getElem (g : Nat → Int) (l : List Int) :
    ∀ (k i : Nat) (h : i < l.length)
      (hk : i < ((List.range k).foldl (fun rc i => rc.set i (g i)) l).length),
      ((List.range k).foldl (fun rc i => rc.set i (g i)) l)[i] = if i < k then g i else l[i]
  | 0, i, h, _ => by simp
  | k + 1, i, h, _ => by
    simp only [List.range_succ, List.foldl_append, List.foldl_cons, List.foldl_nil,
      List.getElem_set]
    by_cases hik : k = i
    · subst hik; simp
    · rw [if_neg hik, foldl_set_range_getElem g l k i h]
      congr 1
      apply propext; omega

/-- **Every entry of the array is rewritten**, to its closed form. -/
theorem fillRecvcounts_getElem {size numprocs : Nat} {recvcounts : List Int}
    (hlen : recvcounts.length = numprocs) (i : Nat)
    (h : i < (fillRecvcounts size numprocs recvcounts).length) :
    (fillRecvcounts size numprocs recvcounts)[i] = share size numprocs i := by
  have hi : i < numprocs := by simpa [hlen] using h
  unfold fillRecvcounts
  rw [foldl_set_range_getElem _ _ _ _ (by omega), if_pos hi, recvcount_eq]

theorem fillRecvcounts_eq {size numprocs : Nat} {recvcounts : List Int}
    (hlen : recvcounts.length = numprocs) :
    fillRecvcounts size numprocs recvcounts = (List.range numprocs).map (share size numprocs) := by
  apply List.ext_getElem (by simp [hlen])
  intro i h _
  rw [fillRecvcounts_getElem hlen, List.getElem_map, List.getElem_range]

theorem share_nonneg (size numprocs i : Nat) : 0 ≤ share size numprocs i := by
  unfold share; generalize size / numprocs = q; split <;> omega

theorem share_antitone {size numprocs i j : Nat} (hij : i ≤ j) :
    share size numprocs j ≤ share size numprocs i := by
  unfold share; generalize size / numprocs = q; split <;> split <;> omega

theorem share_le_succ (size numprocs i j : Nat) :
    share size numprocs i ≤ share size numprocs j + 1 := by
  unfold share; generalize size / numprocs = q; split <;> split <;> omega

theorem share_le (size numprocs i : Nat) :
    share size numprocs i ≤ ((size / numprocs : Nat) : Int) + 1 := by
  unfold share; generalize size / numprocs = q; split <;> omega

private theorem sum_range_share (q r : Nat) : ∀ n : Nat,
    ((List.range n).map (fun i => (q : Int) + if i < r then 1 else 0)).sum =
      ((n * q + min r n : Nat) : Int)
  | 0 => by simp
  | n + 1 => by
    rw [List.range_succ, List.map_append, List.sum_append, sum_range_share q r n, Nat.succ_mul]
    simp only [List.map_cons, List.map_nil, List.sum_cons, List.sum_nil]
    split <;> omega

/-- The entries of a partition over `numprocs ≥ 1` ranks sum to `size`. -/
theorem sum_share {size numprocs : Nat} (h : 0 < numprocs) :
    ((List.range numprocs).map (share size numprocs)).sum = size := by
  unfold share
  rw [sum_range_share, min_eq_left (Nat.mod_lt _ h).le, Nat.div_add_mod]

/-- **The receive counts of a round.** For every element count `size` and every `numprocs ≥ 2`,
whatever the array held before, the loop leaves `recvcounts[i] = size / numprocs + (1 if
i < size % numprocs)`: entries are non-negative, non-increasing, within one of each other and
sum to `size`, and the branch for `size < numprocs` writes what the general branch would. -/
theorem recvcounts_partition (size numprocs : Nat) (hn : 2 ≤ numprocs) (recvcounts : List Int)
    (hlen : recvcounts.length = numprocs) :
    (fillRecvcounts size numprocs recvcounts).length = numprocs ∧
    let rc := fillRecvcounts size numprocs recvcounts
    (∀ i (h : i < rc.length), rc[i] =
      ((size / numprocs : Nat) : Int) + if i < size % numprocs then 1 else 0) ∧
    (∀ i (h : i < rc.length), 0 ≤ rc[i]) ∧
    (∀ i j (hi : i < rc.length) (hj : j < rc.length), i ≤ j → rc[j] ≤ rc[i]) ∧
    (∀ i j (hi : i < rc.length) (hj : j < rc.length), rc[i] ≤ rc[j] + 1) ∧
    rc.sum = size ∧
    (size < numprocs → ∀ i < numprocs, smallCount size i = splitCount size numprocs i) := by
  refine ⟨by simp [hlen], fun i h => fillRecvcounts_getElem hlen i h,
    fun i h => ?_, fun i j hi hj hij => ?_, fun i j hi hj => ?_, ?_,
    fun hs i _ => smallCount_eq_splitCount hs i⟩
  · rw [fillRecvcounts_getElem hlen]; exact share_nonneg ..
  · rw [fillRecvcounts_getElem hlen, fillRecvcounts_getElem hlen]; exact share_antitone hij
  · rw [fillRecvcounts_getElem hlen, fillRecvcounts_getElem hlen]; exact share_le_succ ..
  · show (fillRecvcounts size numprocs recvcounts).sum = size
    rw [fillRecvcounts_eq hlen]; exact sum_share (by omega)

theorem recvcounts_partition_ten_four :
    2 ≤ 4 ∧ [7, -1, 0, 3].length = 4 ∧ (fillRecvcounts 10 4 [7, -1, 0, 3]).sum = 10 :=
  ⟨by decide, rfl, (recvcounts_partition 10 4 (by decide) [7, -1, 0, 3] rfl).2.2.2.2.2.1⟩

/-! ## The buffers of the `MPI_Ireduce_scatter` call -/

/-- Bytes allocated for `sendbuf` (line 90). -/
def sendbufBytes (o : Options) : Nat := o.maxMessageSize

/-- Bytes allocated for `recvbuf` (lines 96-97). -/
def recvbufBytes (o : Options) (numprocs : Nat) : Nat :=
  sizeofFloat * (o.maxMessageSize / numprocs / sizeofFloat + 1)

/-- A rank's share of a size that passes the loop guard fits in `recvbuf`. -/
theorem share_mul_le_recvbufBytes {o : Options} {size numprocs : Nat}
    (hguard : size * sizeofFloat ≤ o.maxMessageSize) (i : Nat) :
    share size numprocs i * sizeofFloat ≤ (recvbufBytes o numprocs : Int) := by
  have h1 : size ≤ o.maxMessageSize / sizeofFloat :=
    (Nat.le_div_iff_mul_le (by decide)).2 hguard
  have h2 : size / numprocs ≤ o.maxMessageSize / numprocs / sizeofFloat := by
    rw [Nat.div_div_eq_div_mul, Nat.mul_comm, ← Nat.div_div_eq_div_mul]
    exact Nat.div_le_div_right h1
  have h3 := share_le size numprocs i
  unfold recvbufBytes
  push_cast
  simp only [sizeofFloat] at h2 ⊢
  omega

/-- **The `MPI_Ireduce_scatter` call stays within its buffers.** For every rank below
`numprocs` and every size the loop visits, the call reads `sum(recvcounts) * sizeof(float) =
size * sizeof(float)` bytes, at most the `max_message_size` bytes of `sendbuf`, and writes
`recvcounts[rank] * sizeof(float)` bytes, at most the size of `recvbuf`; the array is written
at the indices `0 .. numprocs-1` and read at `rank`, all below its length. -/
theorem ireduceScatter_within_buffers (M : Macros) (o : Options) (numprocs rank size : Nat)
    (hrank : rank < numprocs) (hsize : size ∈ ireduceScatterSizes M o)
    (recvcounts : List Int) (hlen : recvcounts.length = numprocs) :
    let rc := fillRecvcounts size numprocs recvcounts
    (∀ i ∈ List.range numprocs, i < recvcounts.length) ∧
    ∃ h : rank < rc.length,
      rc.sum * sizeofFloat = ((size * sizeofFloat : Nat) : Int) ∧
      size * sizeofFloat ≤ sendbufBytes o ∧
      rc[rank] * sizeofFloat ≤ (recvbufBytes o numprocs : Int) := by
  intro rc
  have hguard : size * sizeofFloat ≤ o.maxMessageSize := by
    simpa [ireduceScatterGuard] using guard_of_mem_sizesFrom hsize
  have hlen' : rank < rc.length := by simp [rc, hlen, hrank]
  refine ⟨fun i hi => hlen ▸ List.mem_range.mp hi, hlen', ?_, hguard, ?_⟩
  · show (fillRecvcounts size numprocs recvcounts).sum * _ = _
    rw [fillRecvcounts_eq hlen, sum_share (by omega)]
    push_cast; rfl
  · show (fillRecvcounts size numprocs recvcounts)[rank] * _ ≤ _
    rw [fillRecvcounts_getElem hlen]
    exact share_mul_le_recvbufBytes hguard rank

theorem ireduceScatter_within_buffers_rank_three :
    3 < 4 ∧ 16 ∈ ireduceScatterSizes ⟨8192, 1, 0, 0⟩ ⟨4, 64, 1, 1, 0, 0, 0, true, false, 0, 0⟩ ∧
    [0, 0, 0, 0].length = 4 ∧
    (fillRecvcounts 16 4 [0, 0, 0, 0]).sum * sizeofFloat = ((16 * sizeofFloat : Nat) : Int) :=
  ⟨by decide, by decide, rfl,
    (ireduceScatter_within_buffers ⟨8192, 1, 0, 0⟩ ⟨4, 64, 1, 1, 0, 0, 0, true, false, 0, 0⟩
      4 3 16 (by decide) (by decide) [0, 0, 0, 0] rfl).2.2.1⟩

end OsuMicroBenchmarks.IreduceScatter
