import OsuMicroBenchmarks.Options

/-!
# Point-to-point exchanges between ranks

The MPI semantics the pt2pt benchmarks run under. A rank is the list of calls it still has to
make. The local calls (`MPI_Type_vector` with its `MPI_Type_commit`, `MPI_Type_free`,
`MPI_Wtime`) complete alone. A collective completes once every rank has reached the same one.
An `MPI_Isend` followed by its `MPI_Wait` completes either when the library buffers the
message (the eager protocol, whenever the library so chooses) or when the receiver has posted
the matching receive (rendezvous). An `MPI_Irecv` followed by its `MPI_Wait` completes with the
oldest message in flight from its source. Messages from one rank to another are received in the
order they were sent, as MPI guarantees for one communicator and one tag.

`Step n eager` is one move of the ranks `0 .. n-1`. `eager s r` is the library's choice to
buffer rank `r`'s pending send in state `s`; a theorem over every `eager` holds whatever the
library does. Every step shortens what is left to call (`Net.measure_lt`), so every run is
finite (`Step.wellFounded`).
-/

namespace OsuMicroBenchmarks.Pt2pt

/-- A committed `MPI_Type_vector` of `MPI_CHAR`: `count` blocks of `blocklength` bytes whose
starts are `stride` bytes apart. -/
structure Datatype where
  count : Nat
  blocklength : Nat
  stride : Nat
deriving DecidableEq, Repr

/-- The MPI calls of the pt2pt benchmarks. A `send` or `recv` is the `MPI_Isend` or `MPI_Irecv`
of one element of the datatype on tag 1 of `MPI_COMM_WORLD`, with the `MPI_Wait` after it. -/
inductive Call
  | typeVector (t : Datatype)
  | typeFree
  | wtime
  | barrier
  | reduce (root : Nat)
  | send (dest : Nat) (t : Datatype)
  | recv (source : Nat) (t : Datatype)
deriving DecidableEq, Repr

namespace Call

/-- Calls a rank completes alone. -/
def isLocal : Call → Bool
  | typeVector _ | typeFree | wtime => true
  | _ => false

/-- Calls every rank of `MPI_COMM_WORLD` makes together. -/
def isCollective : Call → Bool
  | barrier | reduce _ => true
  | _ => false

/-- The call that matches `c` on the other side, when rank `rank` makes `c`. -/
def dual (rank : Nat) : Call → Call
  | send _ t => recv rank t
  | recv _ t => send rank t
  | c => c

/-- `c` names no rank but `p`. -/
def onlyPeer (p : Nat) : Call → Bool
  | send d _ | recv d _ => d == p
  | _ => true

/-- An `MPI_Irecv` with its `MPI_Wait`. -/
def isRecv : Call → Bool
  | recv _ _ => true
  | _ => false

/-- An `MPI_Isend` with its `MPI_Wait`. -/
def isSend : Call → Bool
  | send _ _ => true
  | _ => false

@[simp] theorem onlyPeer_send (p d : Nat) (t : Datatype) : (send d t).onlyPeer p = (d == p) := rfl

@[simp] theorem onlyPeer_recv (p d : Nat) (t : Datatype) : (recv d t).onlyPeer p = (d == p) := rfl

@[simp] theorem isLocal_dual (r : Nat) (c : Call) : (c.dual r).isLocal = c.isLocal := by
  cases c <;> rfl

@[simp] theorem isCollective_dual (r : Nat) (c : Call) :
    (c.dual r).isCollective = c.isCollective := by
  cases c <;> rfl

theorem isLocal_eq_false_of_isCollective {c : Call} (h : c.isCollective = true) :
    c.isLocal = false := by
  cases c <;> simp_all [isCollective, isLocal]

theorem isCollective_eq_false_of_isLocal {c : Call} (h : c.isLocal = true) :
    c.isCollective = false := by
  cases c <;> simp_all [isCollective, isLocal]

theorem dual_of_isCollective {c : Call} (h : c.isCollective = true) (r : Nat) : c.dual r = c := by
  cases c <;> simp_all [isCollective, dual]

/-- The partner undoes `dual`: what rank `r` makes opposite rank `p`'s call is that call's
dual, whose dual on `p`'s side is the call again. -/
theorem dual_dual {p : Nat} {c : Call} (h : c.onlyPeer p = true) (r : Nat) :
    (c.dual r).dual p = c := by
  cases c <;> simp_all [onlyPeer, dual]

end Call

/-- The calls of a list that wait on other ranks. -/
def comm (l : List Call) : List Call := l.filter fun c => !c.isLocal

/-- The collective calls of a list. -/
def collectives (l : List Call) : List Call := l.filter Call.isCollective

@[simp] theorem comm_nil : comm [] = [] := rfl

@[simp] theorem comm_append (l l' : List Call) : comm (l ++ l') = comm l ++ comm l' :=
  List.filter_append ..

theorem comm_cons (c : Call) (l : List Call) :
    comm (c :: l) = if c.isLocal then comm l else c :: comm l := by
  cases h : c.isLocal <;> simp [comm, List.filter_cons, h]

@[simp] theorem comm_flatten (L : List (List Call)) : comm L.flatten = (L.map comm).flatten :=
  List.filter_flatten ..

@[simp] theorem comm_flatMap {α : Type} (l : List α) (f : α → List Call) :
    comm (l.flatMap f) = l.flatMap fun a => comm (f a) :=
  List.filter_flatMap ..

@[simp] theorem collectives_nil : collectives [] = [] := rfl

@[simp] theorem collectives_append (l l' : List Call) :
    collectives (l ++ l') = collectives l ++ collectives l' :=
  List.filter_append ..

@[simp] theorem collectives_flatten (L : List (List Call)) :
    collectives L.flatten = (L.map collectives).flatten :=
  List.filter_flatten ..

@[simp] theorem collectives_flatMap {α : Type} (l : List α) (f : α → List Call) :
    collectives (l.flatMap f) = l.flatMap fun a => collectives (f a) :=
  List.filter_flatMap ..

theorem collectives_cons (c : Call) (l : List Call) :
    collectives (c :: l) = if c.isCollective then c :: collectives l else collectives l := by
  cases h : c.isCollective <;> simp [collectives, List.filter_cons, h]

/-- The head of `comm l` is the head of `l` when that call waits on other ranks. -/
theorem head?_comm {l : List Call} (h : ∀ c ∈ l.head?, c.isLocal = false) :
    (comm l).head? = l.head? := by
  cases l with
  | nil => rfl
  | cons c l => simp [comm_cons, show c.isLocal = false from h c rfl]

/-- The head of `collectives l` is the head of `l` when that call is a collective. -/
theorem head?_collectives {l : List Call} (h : ∀ c ∈ l.head?, c.isCollective = true) :
    (collectives l).head? = l.head? := by
  cases l with
  | nil => rfl
  | cons c l => simp [collectives_cons, show c.isCollective = true from h c rfl]

/-! ## Neighbouring calls

Properties of neighbouring calls are chains (`List.Chain'`). A loop repeats its body, and a run
joins its rounds: `chain'_replicate` and `chain'_flatMap` carry a chain across the seams. -/

section
variable {R : Call → Call → Prop}

/-- A loop body that chains, also across the seam between two iterations. -/
theorem chain'_replicate {b : List Call} (hb : b.Chain' R)
    (hseam : ∀ x ∈ b.getLast?, ∀ y ∈ b.head?, R x y) : ∀ k, (List.replicate k b).flatten.Chain' R
  | 0 => List.chain'_nil
  | k + 1 => by
    rw [List.replicate_succ, List.flatten_cons]
    refine hb.append (chain'_replicate hb hseam k) fun x hx y hy => hseam x hx y ?_
    cases k with
    | zero => simp at hy
    | succ k => cases b with
      | nil => simp at hx
      | cons c b => simpa [List.replicate_succ] using hy

/-- Blocks that chain, each opening with a call that may follow any call. -/
theorem chain'_flatMap {α : Type} {f : α → List Call}
    (h : ∀ a, (f a).Chain' R ∧ ∀ y ∈ (f a).head?, ∀ x, R x y) :
    ∀ l : List α, (l.flatMap f).Chain' R ∧ ∀ y ∈ (l.flatMap f).head?, ∀ x, R x y
  | [] => ⟨List.chain'_nil, by simp⟩
  | a :: l => by
    obtain ⟨ih, ihead⟩ := chain'_flatMap h l
    refine ⟨(h a).1.append ih fun x _ y hy => ihead y hy x, fun y hy => ?_⟩
    rw [List.flatMap_cons, List.head?_append] at hy
    cases hfa : (f a).head? with
    | none => rw [hfa] at hy; exact ihead y hy
    | some c => rw [hfa] at hy; exact (h a).2 y (hfa ▸ (hy : y ∈ some c))

end

/-! ### Receives kept apart

A rank whose receives never follow each other directly waits for one message, then makes
another call before it waits for the next. -/

/-- No receive of `l` directly follows another. -/
def RecvApart (l : List Call) : Prop := l.Chain' fun a b => ¬ (a.isRecv = true ∧ b.isRecv = true)

theorem RecvApart.append {l₁ l₂ : List Call} (h₁ : RecvApart l₁) (h₂ : RecvApart l₂)
    (h : ∀ a ∈ l₁.getLast?, ∀ b ∈ l₂.head?, a.isRecv = false ∨ b.isRecv = false) :
    RecvApart (l₁ ++ l₂) :=
  List.Chain'.append h₁ h₂ fun a ha b hb => by rcases h a ha b hb with h | h <;> simp [h]

theorem RecvApart.cons {c : Call} {l : List Call} (hc : c.isRecv = false) (h : RecvApart l) :
    RecvApart (c :: l) :=
  List.Chain'.cons' h fun _ _ => by simp [hc]

/-- Any call may precede one that is not a receive. -/
theorem not_recv_after {c : Call} (hc : c.isRecv = false) (x : Call) :
    ¬ (x.isRecv = true ∧ c.isRecv = true) := by
  simp [hc]

/-! ### Clock readings in step

A clock reading that neither follows a send nor precedes a receive, among the calls that wait
on other ranks, is taken when the rank has received every reply it was owed and owes nothing
it has not sent (`Paired.in_step_at_clock`). -/

/-- The calls of a list that wait on other ranks, and its clock readings. -/
def clocked (l : List Call) : List Call := l.filter fun c => !c.isLocal || c == .wtime

/-- Neighbours in `clocked`: a clock reading follows no send and precedes no receive and no other
reading. -/
def clockSafe : Call → Call → Bool
  | .send _ _, .wtime | .wtime, .recv _ _ | .wtime, .wtime => false
  | _, _ => true

/-- Every clock reading of `l` follows a call that is not a send and precedes one that is not a
receive, among the calls that wait on other ranks. -/
def ClockApart (l : List Call) : Prop := (clocked l).Chain' fun a b => clockSafe a b = true

/-- A stretch of `clocked` that may stand next to any other: it chains, and it neither opens
with a receive or a reading nor closes with a send or a reading. -/
structure Clean (l : List Call) : Prop where
  chain : l.Chain' fun a b => clockSafe a b = true
  head : ∀ y ∈ l.head?, y.isRecv = false ∧ y ≠ .wtime
  last : ∀ x ∈ l.getLast?, x.isSend = false ∧ x ≠ .wtime

theorem clockSafe_of_last {x : Call} (hx : x.isSend = false ∧ x ≠ .wtime) (y : Call) :
    clockSafe x y = true := by
  cases x <;> first | rfl | simp [Call.isSend] at hx

theorem clockSafe_of_head {y : Call} (hy : y.isRecv = false ∧ y ≠ .wtime) (x : Call) :
    clockSafe x y = true := by
  cases x <;> cases y <;> first | rfl | simp [Call.isRecv] at hy

@[simp] theorem clocked_nil : clocked [] = [] := rfl

@[simp] theorem clocked_append (l l' : List Call) : clocked (l ++ l') = clocked l ++ clocked l' :=
  List.filter_append ..

@[simp] theorem clocked_flatten (L : List (List Call)) :
    clocked L.flatten = (L.map clocked).flatten :=
  List.filter_flatten ..

@[simp] theorem clocked_flatMap {α : Type} (l : List α) (f : α → List Call) :
    clocked (l.flatMap f) = l.flatMap fun a => clocked (f a) :=
  List.filter_flatMap ..

theorem clocked_cons (c : Call) (l : List Call) :
    clocked (c :: l) = if !c.isLocal || c == .wtime then c :: clocked l else clocked l :=
  List.filter_cons

@[simp] theorem clocked_wtime_cons (l : List Call) : clocked (.wtime :: l) = .wtime :: clocked l :=
  List.filter_cons_of_pos rfl

theorem comm_eq_filter_clocked (l : List Call) : comm l = (clocked l).filter fun c => !c.isLocal := by
  rw [comm, clocked, List.filter_filter]
  congr 1
  funext c
  cases c.isLocal <;> rfl

theorem isLocal_of_mem_clocked {c : Call} {l : List Call} (h : c ∈ clocked l) (hw : c ≠ .wtime) :
    c.isLocal = false := by
  simpa [hw] using (List.mem_filter.mp h).2

theorem clockSafe_wtime_right {x : Call} (h : clockSafe x .wtime = true) :
    x.isSend = false ∧ x ≠ .wtime := by
  cases x <;> simp_all [clockSafe, Call.isSend]

theorem clockSafe_wtime_left {y : Call} (h : clockSafe .wtime y = true) :
    y.isRecv = false ∧ y ≠ .wtime := by
  cases y <;> simp_all [clockSafe, Call.isRecv]

/-- Around a clock reading of a program that keeps its readings apart, the last call before it
that waits on other ranks is not a send, and the first one after it is not a receive. -/
theorem ClockApart.around {pre post : List Call} (h : ClockApart (pre ++ .wtime :: post)) :
    (∀ c ∈ (comm pre).getLast?, c.isSend = false) ∧ ∀ c ∈ (comm post).head?, c.isRecv = false := by
  rw [ClockApart, clocked_append, clocked_wtime_cons, List.chain'_append, List.chain'_cons'] at h
  obtain ⟨-, ⟨hnext, -⟩, hprev⟩ := h
  constructor
  · rcases List.eq_nil_or_concat (clocked pre) with hnil | ⟨L, x, hx⟩
    · simp [comm_eq_filter_clocked, hnil]
    · obtain ⟨hs, hw⟩ := clockSafe_wtime_right (hprev x (by simp [hx]) _ rfl)
      rw [comm_eq_filter_clocked, hx, List.concat_eq_append, List.filter_append, List.filter_singleton,
        isLocal_of_mem_clocked (by simp [hx] : x ∈ clocked pre) hw]
      simpa using hs
  · rcases hcl : clocked post with _ | ⟨y, ys⟩
    · simp [comm_eq_filter_clocked, hcl]
    · obtain ⟨hr, hw⟩ := clockSafe_wtime_left (hnext y (by simp [hcl]))
      rw [comm_eq_filter_clocked, hcl, List.filter_cons,
        isLocal_of_mem_clocked (by simp [hcl] : y ∈ clocked post) hw]
      simpa using hr

namespace Clean

theorem nil : Clean [] := ⟨List.chain'_nil, by simp, by simp⟩

theorem singleton {c : Call} (hr : c.isRecv = false) (hs : c.isSend = false) (hw : c ≠ .wtime) :
    Clean [c] :=
  ⟨List.chain'_singleton c, by simp [hr, hw], by simp [hs, hw]⟩

theorem append {a b : List Call} (ha : Clean a) (hb : Clean b) : Clean (a ++ b) where
  chain := ha.chain.append hb.chain fun x hx y _ => clockSafe_of_last (ha.last x hx) y
  head y hy := by
    rw [List.head?_append] at hy
    cases h : a.head? with
    | none => rw [h] at hy; exact hb.head y hy
    | some c => rw [h] at hy; exact ha.head y (h ▸ (hy : y ∈ some c))
  last x hx := by
    rw [List.getLast?_append] at hx
    cases h : b.getLast? with
    | none => rw [h] at hx; exact ha.last x hx
    | some c => rw [h] at hx; exact hb.last x (h ▸ (hx : x ∈ some c))

theorem replicate {b : List Call} (hb : Clean b) : ∀ k, Clean (List.replicate k b).flatten
  | 0 => nil
  | k + 1 => by rw [List.replicate_succ, List.flatten_cons]; exact hb.append (replicate hb k)

theorem flatMap {α : Type} {f : α → List Call} (h : ∀ a, Clean (f a)) :
    ∀ l : List α, Clean (l.flatMap f)
  | [] => nil
  | a :: l => by rw [List.flatMap_cons]; exact (h a).append (flatMap h l)

/-- A clock reading between two clean stretches that are not empty. -/
theorem wtime {a c : List Call} (ha : Clean a) (hne : a ≠ []) (hc : Clean c) (hcne : c ≠ []) :
    Clean (a ++ .wtime :: c) where
  chain := ha.chain.append (hc.chain.cons' fun y hy => clockSafe_of_head (hc.head y hy) _)
    fun x hx _ _ => clockSafe_of_last (ha.last x hx) _
  head y hy := ha.head y (by rwa [List.head?_append_of_ne_nil _ hne] at hy)
  last x hx := hc.last x (by rwa [List.getLast?_append_of_ne_nil _ (by simp),
    ← List.singleton_append, List.getLast?_append_of_ne_nil _ hcne] at hx)

end Clean

/-- The state of the exchange: the calls each rank still has to make, and the messages in
flight from one rank to another, oldest first. -/
structure Net where
  rest : Nat → List Call
  chan : Nat → Nat → List Datatype

namespace Net

/-- Before any call: every rank has its whole program ahead, and nothing is in flight. -/
def init (prog : Nat → List Call) : Net := ⟨prog, fun _ _ => []⟩

/-- Rank `r` has made its next call; `l` is what it has left. -/
def setRest (s : Net) (r : Nat) (l : List Call) : Net := { s with rest := Function.update s.rest r l }

/-- The messages in flight from `src` to `dst` are now `ms`. -/
def setChan (s : Net) (src dst : Nat) (ms : List Datatype) : Net :=
  { s with chan := Function.update s.chan src (Function.update (s.chan src) dst ms) }

/-- Every rank has made its next call. -/
def popAll (s : Net) : Net := { s with rest := fun r => (s.rest r).tail }

/-- Every rank has made all its calls. -/
def Final (n : Nat) (s : Net) : Prop := ∀ r < n, s.rest r = []

/-- The number of calls the ranks `0 .. n-1` have left. -/
def measure (n : Nat) (s : Net) : Nat := ∑ r in Finset.range n, (s.rest r).length

@[simp] theorem init_rest (prog : Nat → List Call) : (init prog).rest = prog := rfl

@[simp] theorem init_chan (prog : Nat → List Call) (a b : Nat) : (init prog).chan a b = [] := rfl

@[simp] theorem setRest_rest (s : Net) (r : Nat) (l : List Call) (q : Nat) :
    (s.setRest r l).rest q = if q = r then l else s.rest q :=
  Function.update_apply ..

@[simp] theorem setRest_chan (s : Net) (r : Nat) (l : List Call) :
    (s.setRest r l).chan = s.chan := rfl

@[simp] theorem setChan_rest (s : Net) (src dst : Nat) (ms : List Datatype) :
    (s.setChan src dst ms).rest = s.rest := rfl

@[simp] theorem setChan_chan (s : Net) (src dst : Nat) (ms : List Datatype) (a b : Nat) :
    (s.setChan src dst ms).chan a b = if a = src ∧ b = dst then ms else s.chan a b := by
  by_cases ha : a = src <;> by_cases hb : b = dst <;> simp [setChan, Function.update_apply, ha, hb]

@[simp] theorem popAll_rest (s : Net) (r : Nat) : s.popAll.rest r = (s.rest r).tail := rfl

@[simp] theorem popAll_chan (s : Net) : s.popAll.chan = s.chan := rfl

/-- A state whose ranks have no fewer calls left, and one rank strictly fewer, has a smaller
measure. -/
theorem measure_lt_of {n : Nat} {s s' : Net}
    (hle : ∀ q, (s'.rest q).length ≤ (s.rest q).length)
    {r : Nat} (hr : r < n) (hlt : (s'.rest r).length < (s.rest r).length) :
    s'.measure n < s.measure n :=
  Finset.sum_lt_sum (fun q _ => hle q) ⟨r, Finset.mem_range.mpr hr, hlt⟩

theorem setRest_length_le {s : Net} {r : Nat} {c : Call} {l : List Call} (h : s.rest r = c :: l)
    (q : Nat) : ((s.setRest r l).rest q).length ≤ (s.rest q).length := by
  by_cases hq : q = r
  · simp [hq, h]
  · simp [hq]

end Net

theorem collectives_tail {l : List Call} {c : Call} (h : l.head? = some c)
    (hc : c.isCollective = true) : collectives l.tail = (collectives l).tail := by
  obtain ⟨l, rfl⟩ := List.head?_eq_some_iff.mp h
  simp [collectives_cons, hc]

theorem collectives_setRest {s : Net} {r : Nat} {c : Call} {l : List Call} (hs : s.rest r = c :: l)
    (hc : c.isCollective = false) (q : Nat) :
    collectives ((s.setRest r l).rest q) = collectives (s.rest q) := by
  by_cases hq : q = r
  · simp [hq, hs, collectives_cons, hc]
  · simp [hq]

/-- One move of the ranks `0 .. n-1`. -/
inductive Step (n : Nat) (eager : Net → Nat → Bool) : Net → Net → Prop
  /-- Rank `r` makes a local call. -/
  | localCall {s : Net} {r : Nat} {c : Call} {l : List Call} (hr : r < n)
      (hs : s.rest r = c :: l) (hc : c.isLocal = true) : Step n eager s (s.setRest r l)
  /-- The library buffers rank `r`'s send. -/
  | buffer {s : Net} {r d : Nat} {t : Datatype} {l : List Call} (hr : r < n)
      (hs : s.rest r = .send d t :: l) (he : eager s r = true) :
      Step n eager s ((s.setRest r l).setChan r d (s.chan r d ++ [t]))
  /-- Rank `r`'s send meets the receive rank `d` has posted, with nothing older in flight. -/
  | rendezvous {s : Net} {r d : Nat} {t : Datatype} {l l' : List Call} (hr : r < n) (hd : d < n)
      (hs : s.rest r = .send d t :: l) (hs' : s.rest d = .recv r t :: l')
      (hc : s.chan r d = []) : Step n eager s ((s.setRest r l).setRest d l')
  /-- Rank `r`'s receive takes the oldest message in flight from its source. -/
  | deliver {s : Net} {r src : Nat} {t : Datatype} {l : List Call} {ms : List Datatype}
      (hr : r < n) (hs : s.rest r = .recv src t :: l) (hc : s.chan src r = t :: ms) :
      Step n eager s ((s.setRest r l).setChan src r ms)
  /-- Every rank has reached the collective `c`. -/
  | collective {s : Net} {c : Call} (hn : 0 < n) (hc : c.isCollective = true)
      (hall : ∀ r < n, (s.rest r).head? = some c) : Step n eager s s.popAll

/-- The states a run of the programs `prog` can reach. -/
def Reach (n : Nat) (eager : Net → Nat → Bool) (prog : Nat → List Call) (s : Net) : Prop :=
  Relation.ReflTransGen (Step n eager) (Net.init prog) s

/-- A rank `r < n` is at a receive whose match has another datatype: the oldest message in flight
from its source, or, with none in flight, the send its source is at. MPI requires the type
signatures of a send and the receive it matches to agree; `Step` never matches the two when
they differ. -/
def Net.Mismatch (n : Nat) (s : Net) : Prop :=
  ∃ r < n, ∃ src t l, s.rest r = .recv src t :: l ∧
    ((∃ t' ms, s.chan src r = t' :: ms ∧ t' ≠ t) ∨
      (s.chan src r = [] ∧ ∃ t' l', s.rest src = .send r t' :: l' ∧ t' ≠ t))

section
variable {n : Nat} {eager : Net → Nat → Bool} {s s' : Net}

/-- Every step makes at least one call of a rank `r < n`. -/
theorem Net.measure_lt (h : Step n eager s s') : s'.measure n < s.measure n := by
  cases h with
  | localCall hr hs => exact Net.measure_lt_of (Net.setRest_length_le hs) hr (by simp [hs])
  | buffer hr hs => exact Net.measure_lt_of (Net.setRest_length_le hs) hr (by simp [hs])
  | deliver hr hs => exact Net.measure_lt_of (Net.setRest_length_le hs) hr (by simp [hs])
  | @rendezvous r d _ _ _ hr _ hs hs' =>
    have hne : d ≠ r := by rintro rfl; simp [hs] at hs'
    refine Net.measure_lt_of (fun q => ?_) hr (by simp [hne.symm, hs])
    by_cases hq : q = d
    · simp [hq, hs']
    · simpa [hq] using Net.setRest_length_le hs q
  | collective hn hc hall =>
    obtain ⟨c', l, h0⟩ : ∃ c' l, s.rest 0 = c' :: l := by
      cases h : s.rest 0 with
      | nil => simpa [h] using hall 0 hn
      | cons c' l => exact ⟨c', l, rfl⟩
    exact Net.measure_lt_of (fun q => by simp) hn (by simp [h0])

/-- A step only makes calls: what a rank has left afterwards is the end of what it had left. -/
theorem Step.rest_suffix (h : Step n eager s s') (q : Nat) : s'.rest q <:+ s.rest q := by
  have hset : ∀ {s : Net} {r : Nat} {c : Call} {l : List Call}, s.rest r = c :: l →
      (s.setRest r l).rest q <:+ s.rest q := fun {s r c l} hs => by
    by_cases hq : q = r
    · simp [hq, hs, List.suffix_cons]
    · simp [hq]
  cases h with
  | localCall _ hs | buffer _ hs | deliver _ hs => exact hset hs
  | @rendezvous r d _ _ _ _ _ hs hs' =>
    by_cases hq : q = d
    · simp [hq, hs', List.suffix_cons]
    · simpa [hq] using hset hs
  | collective => exact List.tail_suffix _

theorem Step.rest_subset (h : Step n eager s s') (q : Nat) : s'.rest q ⊆ s.rest q :=
  (h.rest_suffix q).subset

/-- A step makes no collective call, or makes the same one on every rank `q < n`. -/
theorem Step.collectives_cases (h : Step n eager s s') :
    (∀ q, collectives (s'.rest q) = collectives (s.rest q)) ∨
      ∀ q < n, collectives (s'.rest q) = (collectives (s.rest q)).tail := by
  cases h with
  | localCall _ hs hc => exact .inl (collectives_setRest hs (Call.isCollective_eq_false_of_isLocal hc))
  | buffer _ hs | deliver _ hs => exact .inl (collectives_setRest hs rfl)
  | @rendezvous r d t l l' _ _ hs hs' _ =>
    have hne : d ≠ r := by rintro rfl; simp [hs] at hs'
    have hs'' : (s.setRest r l).rest d = .recv r t :: l' := by simp [hne, hs']
    exact .inl fun q => (collectives_setRest hs'' rfl q).trans (collectives_setRest hs rfl q)
  | collective _ hc hall => exact .inr fun q hq => collectives_tail (hall q hq) hc

/-- Every run is finite. -/
theorem Step.wellFounded : WellFounded fun s' s => Step n eager s s' :=
  Subrelation.wf (fun h => Net.measure_lt h) (InvImage.wf (Net.measure n) wellFounded_lt)

end

/-! ## Schedules

An executable form of `Step`: a scheduler names the move, `Net.fire` makes it if `Step` allows
it, and `Net.run` follows a whole schedule (`Net.run_sound`). Every step is a move `fire` makes
(`Net.fire_complete`), so `Net.settle`, which always makes the first move allowed, runs a state
to one where no step is possible (`Net.settle_spec`). -/

/-- The moves of a schedule. `rendezvous r` is rank `r`'s send meeting its receiver. -/
inductive Move
  | localCall (r : Nat)
  | buffer (r : Nat)
  | rendezvous (r : Nat)
  | deliver (r : Nat)
  | collective
deriving DecidableEq, Repr

namespace Net

/-- The state after the move `m`, when `Step` allows it. -/
def fire (n : Nat) (eager : Net → Nat → Bool) (s : Net) : Move → Option Net
  | .localCall r =>
    match s.rest r with
    | c :: l => if r < n ∧ c.isLocal = true then some (s.setRest r l) else none
    | [] => none
  | .buffer r =>
    match s.rest r with
    | .send d t :: l =>
      if r < n ∧ eager s r = true then some ((s.setRest r l).setChan r d (s.chan r d ++ [t]))
      else none
    | _ => none
  | .rendezvous r =>
    match s.rest r with
    | .send d t :: l =>
      match s.rest d with
      | .recv r' t' :: l' =>
        if r < n ∧ d < n ∧ r' = r ∧ t' = t ∧ s.chan r d = [] then
          some ((s.setRest r l).setRest d l')
        else none
      | _ => none
    | _ => none
  | .deliver r =>
    match s.rest r with
    | .recv src t :: l =>
      match s.chan src r with
      | m :: ms => if r < n ∧ m = t then some ((s.setRest r l).setChan src r ms) else none
      | [] => none
    | _ => none
  | .collective =>
    match s.rest 0 with
    | c :: _ =>
      if 0 < n ∧ c.isCollective = true ∧ ∀ r < n, (s.rest r).head? = some c then some s.popAll
      else none
    | [] => none

/-- The state after the schedule `ms`, when every move of it is allowed. -/
def run (n : Nat) (eager : Net → Nat → Bool) : Net → List Move → Option Net
  | s, [] => some s
  | s, m :: ms => (s.fire n eager m).bind fun s' => run n eager s' ms

variable {n : Nat} {eager : Net → Nat → Bool} {s s' : Net}

theorem fire_sound {m : Move} (h : s.fire n eager m = some s') : Step n eager s s' := by
  cases m <;> simp only [fire] at h <;> split at h <;> try cases h
  case localCall.h_1 c l hs =>
    obtain ⟨⟨hr, hc⟩, ⟨⟩⟩ := Option.ite_none_right_eq_some.mp h
    exact .localCall hr hs hc
  case buffer.h_1 d t l hs =>
    obtain ⟨⟨hr, he⟩, ⟨⟩⟩ := Option.ite_none_right_eq_some.mp h
    exact .buffer hr hs he
  case rendezvous.h_1 d t l hs =>
    split at h
    · next r' t' l' hs' =>
      obtain ⟨⟨hr, hd, rfl, rfl, hc⟩, ⟨⟩⟩ := Option.ite_none_right_eq_some.mp h
      exact .rendezvous hr hd hs hs' hc
    · cases h
  case deliver.h_1 src t l hs =>
    split at h
    · next m ms hc =>
      obtain ⟨⟨hr, rfl⟩, ⟨⟩⟩ := Option.ite_none_right_eq_some.mp h
      exact .deliver hr hs hc
    · cases h
  case collective.h_1 c l _ =>
    obtain ⟨⟨hn, hc, hall⟩, ⟨⟩⟩ := Option.ite_none_right_eq_some.mp h
    exact .collective hn hc hall

theorem run_sound : ∀ {s s' : Net} {ms : List Move}, s.run n eager ms = some s' →
    Relation.ReflTransGen (Step n eager) s s'
  | _, _, [], h => by cases h; exact .refl
  | s, s', m :: ms, h => by
    simp only [run, Option.bind_eq_some] at h
    obtain ⟨s₁, h₁, h₂⟩ := h
    exact .head (fire_sound h₁) (run_sound h₂)

/-- The moves a scheduler tries, in order: the collective, then each rank's local call, buffered
send, rendezvous and delivery. -/
def moves (n : Nat) : List Move :=
  .collective :: (List.range n).flatMap fun r => [.localCall r, .buffer r, .rendezvous r, .deliver r]

/-- The state after the first move of `moves n` that `Step` allows, if any. -/
def next? (n : Nat) (eager : Net → Nat → Bool) (s : Net) : Option Net :=
  (moves n).findSome? (s.fire n eager)

/-- At most `fuel` moves, each the first one allowed. -/
def drive (n : Nat) (eager : Net → Nat → Bool) : Nat → Net → Net
  | 0, s => s
  | fuel + 1, s =>
    match s.next? n eager with
    | some s' => drive n eager fuel s'
    | none => s

/-- The state a run scheduled by `next?` stops in. -/
def settle (n : Nat) (eager : Net → Nat → Bool) (s : Net) : Net := drive n eager (s.measure n) s

instance (n : Nat) (s : Net) : Decidable (s.Final n) :=
  inferInstanceAs (Decidable (∀ r < n, s.rest r = []))

/-- Every step `Step` allows is a move of `moves n` that `fire` makes. -/
theorem fire_complete (h : Step n eager s s') : ∃ m ∈ moves n, s.fire n eager m ≠ none := by
  have hmem : ∀ {r}, r < n → ∀ m ∈ [Move.localCall r, .buffer r, .rendezvous r, .deliver r],
      m ∈ moves n := fun hr _ hm =>
    List.mem_cons_of_mem _ (List.mem_flatMap.mpr ⟨_, List.mem_range.mpr hr, hm⟩)
  cases h with
  | @localCall r _ _ hr hs hc => exact ⟨.localCall r, hmem hr _ (by simp), by simp [fire, hs, hr, hc]⟩
  | @buffer r _ _ _ hr hs he => exact ⟨.buffer r, hmem hr _ (by simp), by simp [fire, hs, hr, he]⟩
  | @rendezvous r _ _ _ _ hr hd hs hs' hc =>
    exact ⟨.rendezvous r, hmem hr _ (by simp), by simp [fire, hs, hs', hr, hd, hc]⟩
  | @deliver r _ _ _ _ hr hs hc => exact ⟨.deliver r, hmem hr _ (by simp), by simp [fire, hs, hr, hc]⟩
  | collective hn hc hall =>
    obtain ⟨l, h0⟩ := List.head?_eq_some_iff.mp (hall 0 hn)
    exact ⟨_, List.mem_cons_self _ _, by simp [fire, h0, hn, hc]; exact hall⟩

theorem next?_sound (h : s.next? n eager = some s') : Step n eager s s' :=
  let ⟨_, _, hm⟩ := List.exists_of_findSome?_eq_some h
  fire_sound hm

/-- When no move fires, no step is possible. -/
theorem next?_eq_none (h : s.next? n eager = none) (s' : Net) : ¬ Step n eager s s' := fun hs =>
  let ⟨m, hm, hfire⟩ := fire_complete hs
  hfire (List.findSome?_eq_none_iff.mp h m hm)

theorem drive_reach : ∀ (fuel : Nat) (s : Net),
    Relation.ReflTransGen (Step n eager) s (s.drive n eager fuel)
  | 0, _ => .refl
  | fuel + 1, s => by
    unfold drive
    split
    · next s' h => exact .head (next?_sound h) (drive_reach fuel s')
    · exact .refl

/-- With at least as much fuel as calls left, `drive` stops where no step is possible. -/
theorem drive_stuck : ∀ (fuel : Nat) (s : Net), s.measure n ≤ fuel →
    ∀ s', ¬ Step n eager (s.drive n eager fuel) s'
  | 0, _, h, _, hs => absurd (Nat.lt_of_lt_of_le (measure_lt hs) h) (Nat.not_lt_zero _)
  | fuel + 1, s, h, s'', hs => by
    unfold drive at hs
    split at hs
    · next s' hn => exact drive_stuck fuel s' (by have := measure_lt (next?_sound hn); omega) s'' hs
    · next hn => exact next?_eq_none hn s'' hs

/-- `settle` follows a run of `Step` to a state where no step is possible. -/
theorem settle_spec (s : Net) : Relation.ReflTransGen (Step n eager) s (s.settle n eager) ∧
    ∀ s', ¬ Step n eager (s.settle n eager) s' :=
  ⟨drive_reach _ s, drive_stuck _ s le_rfl⟩

end Net

/-! ## Starvation

A rank whose receive no other rank ever sends to waits forever: no run of its program
completes (`not_final_of_starved`). Since every run is finite, some run then stops short of
the end (`exists_stuck`). -/

section
variable {n : Nat} {eager : Net → Nat → Bool} {prog : Nat → List Call} {s s' : Net}

theorem Reach.rest_suffix (h : Reach n eager prog s) (q : Nat) : s.rest q <:+ prog q := by
  induction h with
  | refl => exact List.suffix_refl _
  | tail _ hstep ih => exact (hstep.rest_suffix q).trans ih

theorem Reach.rest_subset (h : Reach n eager prog s) (q : Nat) : s.rest q ⊆ prog q :=
  (h.rest_suffix q).subset

/-- Some state a run of `prog` reaches can step no further. -/
theorem exists_stuck (n : Nat) (eager : Net → Nat → Bool) (prog : Nat → List Call) :
    ∃ s, Reach n eager prog s ∧ ∀ s', ¬ Step n eager s s' := by
  obtain ⟨s, hs, hmin⟩ := (Step.wellFounded : WellFounded fun s' s => Step n eager s s').has_min
    {s | Reach n eager prog s} ⟨_, .refl⟩
  exact ⟨s, hs, fun s' h => hmin s' (.tail hs h) h⟩

variable {L src : Nat} {t : Datatype} {pre post : List Call}

/-- Rank `L` has not passed its receive from `src`, which follows the calls `pre`, and nothing is
in flight to it. -/
def Starved (L src : Nat) (t : Datatype) (pre post : List Call) (s : Net) : Prop :=
  (∃ pre', pre' <:+ pre ∧ s.rest L = pre' ++ .recv src t :: post) ∧ ∀ x, s.chan x L = []

/-- The next call of a starved rank is its receive, or one of `pre`. -/
theorem Starved.next (h : Starved L src t pre post s) {c : Call} {l : List Call}
    (hs : s.rest L = c :: l) :
    c = .recv src t ∨ (c ∈ pre ∧ ∃ pre', pre' <:+ pre ∧ l = pre' ++ .recv src t :: post) := by
  obtain ⟨⟨pre', hsuf, hrest⟩, _⟩ := h
  rw [hrest] at hs
  cases pre' with
  | nil => exact .inl (List.cons.inj hs).1.symm
  | cons c' pre'' =>
    obtain ⟨rfl, rfl⟩ := List.cons.inj hs
    exact .inr ⟨hsuf.subset (List.mem_cons_self _ _), pre'', (List.suffix_cons _ _).trans hsuf, rfl⟩

theorem Starved.frame (h : Starved L src t pre post s) (hrest : s'.rest L = s.rest L)
    (hchan : ∀ x, s'.chan x L = s.chan x L) : Starved L src t pre post s' :=
  ⟨hrest ▸ h.1, fun x => (hchan x).trans (h.2 x)⟩

/-- A step keeps a rank starved when `pre` holds only local calls and collectives and no other
rank has a send to it left. -/
theorem Starved.step (hL : L < n) (hpre : ∀ c ∈ pre, c.isLocal = true ∨ c.isCollective = true)
    (hsend : ∀ x < n, x ≠ L → ∀ t', Call.send L t' ∉ s.rest x)
    (h : Starved L src t pre post s) (hstep : Step n eager s s') : Starved L src t pre post s' := by
  have hnosend : ∀ {d t' l}, s.rest L ≠ .send d t' :: l := fun hs => by
    rcases h.next hs with h' | ⟨h', -⟩
    · cases h'
    · simpa [Call.isLocal, Call.isCollective] using hpre _ h'
  cases hstep with
  | @localCall r c l hr hs hc =>
    by_cases hrL : r = L
    · subst hrL
      rcases h.next hs with rfl | ⟨-, pre', hsuf, rfl⟩
      · simp [Call.isLocal] at hc
      · exact ⟨⟨pre', hsuf, by simp⟩, h.2⟩
    · exact h.frame (by simp [Ne.symm hrL]) fun _ => rfl
  | @buffer r d t' l hr hs he =>
    have hrL : r ≠ L := by rintro rfl; exact hnosend hs
    have hdL : d ≠ L := by rintro rfl; exact hsend r hr hrL t' (by simp [hs])
    exact h.frame (by simp [Ne.symm hrL]) fun x => by simp [Ne.symm hdL]
  | @rendezvous r d t' l l' hr hd hs hs' hc =>
    have hrL : r ≠ L := by rintro rfl; exact hnosend hs
    have hdL : d ≠ L := by rintro rfl; exact hsend r hr hrL t' (by simp [hs])
    exact h.frame (by simp [Ne.symm hrL, Ne.symm hdL]) fun _ => rfl
  | @deliver r src' t' l ms hr hs hc =>
    have hrL : r ≠ L := by rintro rfl; simp [h.2 src'] at hc
    exact h.frame (by simp [Ne.symm hrL]) fun x => by simp [Ne.symm hrL]
  | @collective c hn hc hall =>
    obtain ⟨l, hs⟩ := List.head?_eq_some_iff.mp (hall L hL)
    rcases h.next hs with rfl | ⟨-, pre', hsuf, rfl⟩
    · simp [Call.isCollective] at hc
    · exact ⟨⟨pre', hsuf, by simp [hs]⟩, h.2⟩

/-- **A starved rank never finishes.** If rank `L` reaches, after local calls and collectives
only, a receive that no other rank has a send for, no reachable state is final. -/
theorem not_final_of_starved (hL : L < n) (hprog : prog L = pre ++ .recv src t :: post)
    (hpre : ∀ c ∈ pre, c.isLocal = true ∨ c.isCollective = true)
    (hsend : ∀ x < n, x ≠ L → ∀ t', Call.send L t' ∉ prog x) (hs : Reach n eager prog s) :
    ¬ s.Final n := by
  have hstarved : Starved L src t pre post s := by
    induction hs with
    | refl => exact ⟨⟨pre, List.suffix_refl _, hprog⟩, fun _ => rfl⟩
    | tail hr hstep ih =>
      exact ih.step hL hpre (fun x hx hxL t' h => hsend x hx hxL t' (Reach.rest_subset hr x h)) hstep
  intro hf
  obtain ⟨⟨pre', -, hrest⟩, -⟩ := hstarved
  simp [hf L hL] at hrest

end

end OsuMicroBenchmarks.Pt2pt
