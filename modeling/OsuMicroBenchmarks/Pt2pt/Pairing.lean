import OsuMicroBenchmarks.Pt2pt.Net

/-!
# Paired programs complete

In the pt2pt benchmarks rank `r` exchanges messages only with `partner r`. `Paired` collects
what the programs of the ranks must satisfy for every run to finish, whatever the schedule and
whatever the library buffers: `partner` pairs up the ranks, each rank's sends and receives name
its partner, what a rank's partner communicates is the dual of what the rank communicates, and
every rank makes the same collectives in the same order.

The invariant `Inv` relates each rank to its partner: one of the two is ahead by the messages it
has sent that are still in flight, and what the other has left to communicate is receiving
those, then the dual of what the leader has left (`Ahead`). It holds initially
(`Paired.inv_init`) and after every step (`Inv.step`). Under it a state that is not final can
step (`Inv.progress`), and a final state has nothing in flight (`Inv.chan_eq_nil`). Together with
the finiteness of runs (`Step.wellFounded`) this is `Paired.complete`: every run that cannot be
extended ends with every rank done and every message received; in particular the run the
executable scheduler `Net.settle` makes does (`Paired.settle`). Under the invariant a receive and
the message it matches always have the same datatype (`Inv.not_mismatch`), and when no program
has two receives in a row no channel ever holds more than one message
(`Paired.chan_length_le_one`). A rank that reads the clock neither right after a send nor right
before a receive reads it in step with its partner: nothing in flight, and the same exchange
left on both sides (`Paired.in_step_at_clock`).
-/

namespace OsuMicroBenchmarks.Pt2pt

/-- `partner` pairs up the ranks `0 .. n-1`. -/
structure Pairing (n : Nat) (partner : Nat → Nat) : Prop where
  lt : ∀ r < n, partner r < n
  ne : ∀ r < n, partner r ≠ r
  invol : ∀ r < n, partner (partner r) = r

/-- The programs `prog` of the ranks `0 .. n-1` exchange along `partner`. -/
structure Paired (n : Nat) (partner : Nat → Nat) (prog : Nat → List Call)
    extends Pairing n partner : Prop where
  onlyPeer : ∀ r < n, ∀ c ∈ prog r, c.onlyPeer (partner r) = true
  dual : ∀ r < n, comm (prog (partner r)) = (comm (prog r)).map (Call.dual r)
  collectives_eq : ∀ r < n, collectives (prog r) = collectives (prog 0)

/-- Rank `r` is ahead of `p` by the messages in flight from `r` to `p`: nothing is in flight the
other way, and what `p` has left to communicate is receiving those messages, then the dual of
what `r` has left. -/
def Ahead (s : Net) (r p : Nat) : Prop :=
  s.chan p r = [] ∧
    comm (s.rest p) = (s.chan r p).map (Call.recv r) ++ (comm (s.rest r)).map (Call.dual r)

/-- The invariant of an exchange along `partner`. -/
structure Inv (n : Nat) (partner : Nat → Nat) (s : Net) : Prop where
  onlyPeer : ∀ r < n, ∀ c ∈ s.rest r, c.onlyPeer (partner r) = true
  pair : ∀ r < n, Ahead s r (partner r) ∨ Ahead s (partner r) r
  quiet : ∀ r < n, ∀ q, q ≠ partner r → s.chan r q = []
  collectives_eq : ∀ r < n, collectives (s.rest r) = collectives (s.rest 0)

theorem map_dual_map_dual {p : Nat} {l : List Call} (h : ∀ c ∈ l, c.onlyPeer p = true)
    (r : Nat) : (l.map (Call.dual r)).map (Call.dual p) = l := by
  induction l with
  | nil => rfl
  | cons c l ih => simp_all [Call.dual_dual]

theorem mem_of_mem_comm {c : Call} {l : List Call} (h : c ∈ comm l) : c ∈ l :=
  (List.mem_filter.mp h).1

section
variable {n : Nat} {partner : Nat → Nat} {eager : Net → Nat → Bool} {s s' : Net}

theorem Pairing.partner_inj (hP : Pairing n partner) {q r : Nat} (hq : q < n) (hr : r < n)
    (h : partner q = partner r) : q = r := by
  rw [← hP.invol q hq, h, hP.invol r hr]

/-! ## The partners -/

namespace Inv

theorem onlyPeer_partner (hP : Pairing n partner) (hI : Inv n partner s) {r : Nat} (hr : r < n) :
    ∀ c ∈ s.rest (partner r), c.onlyPeer r = true := fun c hc => by
  simpa only [hP.invol r hr] using hI.onlyPeer _ (hP.lt r hr) c hc

theorem send_partner (hI : Inv n partner s) {r d : Nat} {t : Datatype} {l : List Call}
    (hr : r < n) (hs : s.rest r = .send d t :: l) : d = partner r := by
  simpa using hI.onlyPeer r hr (.send d t) (by rw [hs]; exact List.mem_cons_self _ _)

theorem recv_partner (hI : Inv n partner s) {r src : Nat} {t : Datatype} {l : List Call}
    (hr : r < n) (hs : s.rest r = .recv src t :: l) : src = partner r := by
  simpa using hI.onlyPeer r hr (.recv src t) (by rw [hs]; exact List.mem_cons_self _ _)

end Inv

/-! ## What each step does to a pair -/

/-- With nothing in flight either way, the two sides of `Ahead` trade places. -/
theorem Ahead.swap {r p : Nat} (h : Ahead s p r) (hc : s.chan p r = [])
    (hpeer : ∀ c ∈ s.rest p, c.onlyPeer r = true) : Ahead s r p := by
  refine ⟨hc, ?_⟩
  rw [h.2, hc, h.1, List.map_nil, List.nil_append, List.map_nil, List.nil_append,
    map_dual_map_dual (fun c hc => hpeer c (mem_of_mem_comm hc))]

/-- Unless `r` is about to receive from `p`, `r` is the one ahead. -/
theorem ahead_of_not_recv {r p : Nat} (h : Ahead s r p ∨ Ahead s p r)
    (hpeer : ∀ c ∈ s.rest p, c.onlyPeer r = true)
    (hnot : ∀ m, (comm (s.rest r)).head? ≠ some (.recv p m)) : Ahead s r p := by
  refine h.elim id fun h => h.swap ?_ hpeer
  cases hc : s.chan p r with
  | nil => rfl
  | cons m ms => exact absurd (by rw [h.2, hc]; rfl) (hnot m)

theorem Ahead.buffer {r p : Nat} {t : Datatype} {l : List Call} (hne : p ≠ r)
    (hs : s.rest r = .send p t :: l) (h : Ahead s r p) :
    Ahead ((s.setRest r l).setChan r p (s.chan r p ++ [t])) r p := by
  obtain ⟨hpr, hcomm⟩ := h
  refine ⟨by simp [hne, hpr], ?_⟩
  simp [hne, hcomm, hs, comm_cons, Call.isLocal, Call.dual]

theorem Ahead.rendezvous {r p : Nat} {t : Datatype} {l l' : List Call} (hne : p ≠ r)
    (hs : s.rest r = .send p t :: l) (hs' : s.rest p = .recv r t :: l') (hc : s.chan r p = [])
    (h : Ahead s r p) : Ahead ((s.setRest r l).setRest p l') r p := by
  obtain ⟨hpr, hcomm⟩ := h
  rw [hs, hs', hc] at hcomm
  refine ⟨hpr, ?_⟩
  simpa [hne.symm, hc, comm_cons, Call.isLocal, Call.dual] using hcomm

theorem Ahead.deliver {r p : Nat} {t : Datatype} {l : List Call} {ms : List Datatype}
    (hne : p ≠ r) (hs : s.rest r = .recv p t :: l) (hc : s.chan p r = t :: ms)
    (h : Ahead s p r) : Ahead ((s.setRest r l).setChan p r ms) p r := by
  obtain ⟨hrp, hcomm⟩ := h
  rw [hs, hc] at hcomm
  refine ⟨by simp [hne.symm, hrp], ?_⟩
  simpa [hne, comm_cons, Call.isLocal] using hcomm

theorem Ahead.popAll {c : Call} (hc : c.isCollective = true) {r p : Nat}
    (hr : (s.rest r).head? = some c) (hp : (s.rest p).head? = some c) (h : Ahead s r p) :
    Ahead s.popAll r p := by
  obtain ⟨lr, hr⟩ := List.head?_eq_some_iff.mp hr
  obtain ⟨lp, hp⟩ := List.head?_eq_some_iff.mp hp
  obtain ⟨hpr, hcomm⟩ := h
  simp only [hr, hp, comm_cons, Call.isLocal_eq_false_of_isCollective hc, Call.dual_of_isCollective hc,
    Bool.false_eq_true, if_false, List.map_cons] at hcomm
  cases hm : s.chan r p with
  | nil => exact ⟨hpr, by simpa [hr, hp, hm] using hcomm⟩
  | cons m ms =>
    obtain ⟨rfl, -⟩ : c = .recv r m ∧ _ := by simpa [hm] using hcomm
    simp [Call.isCollective] at hc

/-! ## The invariant -/

namespace Inv

/-- A step of `r` that leaves every rank other than `r` and its partner alone keeps the pairs
of those ranks. -/
theorem pair_frame (hP : Pairing n partner) (hI : Inv n partner s) {r : Nat} (hr : r < n)
    (hpair : Ahead s' r (partner r) ∨ Ahead s' (partner r) r)
    (hrest : ∀ q, q ≠ r → q ≠ partner r → s'.rest q = s.rest q)
    (hchan : ∀ q x, q ≠ r → q ≠ partner r → s'.chan q x = s.chan q x) :
    ∀ q < n, Ahead s' q (partner q) ∨ Ahead s' (partner q) q := by
  intro q hq
  by_cases hqr : q = r
  · subst hqr; exact hpair
  by_cases hqp : q = partner r
  · subst hqp; rw [hP.invol r hr]; exact hpair.symm
  have hpr : partner q ≠ r := fun h => hqp (by rw [← h, hP.invol q hq])
  have hpp : partner q ≠ partner r := fun h => hqr (hP.partner_inj hq hr h)
  simp only [Ahead, hrest q hqr hqp, hrest _ hpr hpp, hchan q _ hqr hqp, hchan _ _ hpr hpp]
  exact hI.pair q hq

/-- A rank at a send is the one ahead of its partner. -/
theorem ahead_of_send (hP : Pairing n partner) (hI : Inv n partner s) {r d : Nat} {t : Datatype}
    {l : List Call} (hr : r < n) (hs : s.rest r = .send d t :: l) : Ahead s r (partner r) :=
  ahead_of_not_recv (hI.pair r hr) (hI.onlyPeer_partner hP hr) (by simp [hs, comm_cons, Call.isLocal])

/-- After a step every rank still makes the same collectives as rank 0. -/
theorem collectives_step (hI : Inv n partner s) (h : Step n eager s s') :
    ∀ q < n, collectives (s'.rest q) = collectives (s'.rest 0) := fun q hq => by
  rcases h.collectives_cases with h' | h'
  · rw [h', h', hI.collectives_eq q hq]
  · rw [h' q hq, h' 0 (Nat.zero_lt_of_lt hq), hI.collectives_eq q hq]

/-- The invariant holds after every step. -/
theorem step (hP : Pairing n partner) (hI : Inv n partner s) (h : Step n eager s s') :
    Inv n partner s' := by
  have hpeer : ∀ r < n, ∀ c ∈ s'.rest r, c.onlyPeer (partner r) = true :=
    fun r hr c hc => hI.onlyPeer r hr c (h.rest_subset r hc)
  have hcoll := hI.collectives_step h
  cases h with
  | @localCall r c l hr hs hc =>
    have hcomm : ∀ q, comm ((s.setRest r l).rest q) = comm (s.rest q) := fun q => by
      by_cases hq : q = r
      · simp [hq, hs, comm_cons, hc]
      · simp [hq]
    exact ⟨hpeer, fun q hq => by simpa only [Ahead, hcomm, Net.setRest_chan] using hI.pair q hq,
      hI.quiet, hcoll⟩
  | @buffer r d t l hr hs he =>
    obtain rfl := hI.send_partner hr hs
    refine ⟨hpeer, hI.pair_frame hP hr (.inl (Ahead.buffer (hP.ne r hr) hs (hI.ahead_of_send hP hr hs)))
      (fun q hq _ => by simp [hq]) (fun q x hq _ => by simp [hq]), fun a ha q hq => ?_, hcoll⟩
    simp only [Net.setChan_chan, Net.setRest_chan]
    split
    · next h => obtain ⟨rfl, rfl⟩ := h; exact absurd rfl hq
    · exact hI.quiet a ha q hq
  | @rendezvous r d t l l' hr hd hs hs' hc =>
    obtain rfl := hI.send_partner hr hs
    exact ⟨hpeer, hI.pair_frame hP hr
      (.inl (Ahead.rendezvous (hP.ne r hr) hs hs' hc (hI.ahead_of_send hP hr hs)))
      (fun q hq hq' => by simp [hq, hq']) (fun _ _ _ _ => rfl), hI.quiet, hcoll⟩
  | @deliver r src t l ms hr hs hc =>
    obtain rfl := hI.recv_partner hr hs
    have hbehind := (hI.pair r hr).resolve_left fun h => by simp [h.1] at hc
    refine ⟨hpeer, hI.pair_frame hP hr (.inr (Ahead.deliver (hP.ne r hr) hs hc hbehind))
      (fun q hq _ => by simp [hq]) (fun q x _ hq => by simp [hq]), fun a ha q hq => ?_, hcoll⟩
    simp only [Net.setChan_chan, Net.setRest_chan]
    split
    · next h => exact absurd (by rw [h.1, h.2, hP.invol r hr]) hq
    · exact hI.quiet a ha q hq
  | @collective c hn hc hall =>
    refine ⟨hpeer, fun q hq => ?_, hI.quiet, hcoll⟩
    have hp := hall _ (hP.lt q hq)
    exact (hI.pair q hq).imp (Ahead.popAll hc (hall q hq) hp) (Ahead.popAll hc hp (hall q hq))

/-- The oldest message in flight to a rank at a receive has the receive's datatype. -/
theorem deliver_type (hI : Inv n partner s) {r src : Nat} {t t' : Datatype} {l : List Call}
    {ms : List Datatype} (hr : r < n) (hs : s.rest r = .recv src t :: l)
    (hc : s.chan src r = t' :: ms) : t' = t := by
  obtain rfl := hI.recv_partner hr hs
  have hcomm := ((hI.pair r hr).resolve_left fun h => by simp [h.1] at hc).2
  simp only [hs, hc, comm_cons, Call.isLocal, Bool.false_eq_true, if_false, List.map_cons,
    List.cons_append, List.cons.injEq, Call.recv.injEq, true_and] at hcomm
  exact hcomm.1.symm

/-- A send that meets its partner's receive, with nothing in flight, has the receive's
datatype. -/
theorem rendezvous_type (hP : Pairing n partner) (hI : Inv n partner s) {r d : Nat}
    {t t' : Datatype} {l l' : List Call} (hr : r < n) (hs : s.rest r = .send d t :: l)
    (hs' : s.rest d = .recv r t' :: l') (hc : s.chan r d = []) : t' = t := by
  obtain rfl := hI.send_partner hr hs
  have hcomm := (hI.ahead_of_send hP hr hs).2
  simp only [hs, hs', hc, comm_cons, Call.isLocal, Bool.false_eq_true, if_false, List.map_nil,
    List.nil_append, List.map_cons, Call.dual, List.cons.injEq, Call.recv.injEq, true_and] at hcomm
  exact hcomm.1

/-- No receive is matched with a message of another datatype. -/
theorem not_mismatch (hP : Pairing n partner) (hI : Inv n partner s) : ¬ s.Mismatch n := by
  rintro ⟨r, hr, src, t, l, hs, ⟨t', ms, hc, hne⟩ | ⟨hc, t', l', hs', hne⟩⟩
  · exact hne (hI.deliver_type hr hs hc)
  · obtain rfl := hI.recv_partner hr hs
    exact hne (hI.rendezvous_type hP (hP.lt r hr) hs' hs hc).symm

/-- A rank at a send or a receive, when no pending receive has a message waiting, meets its
partner at the matching call. -/
theorem meet (hP : Pairing n partner) (hI : Inv n partner s)
    (hhead : ∀ q < n, (comm (s.rest q)).head? = (s.rest q).head?)
    (hwait : ∀ q < n, ∀ src t l, s.rest q = .recv src t :: l → s.chan src q = [])
    {r : Nat} (hr : r < n) {c : Call} {l : List Call} (hs : s.rest r = c :: l)
    (hl : c.isLocal = false) (hcoll : c.isCollective = false) : ∃ s', Step n eager s s' := by
  have hp := hP.lt r hr
  -- nothing is in flight from the partner, or `r` would be receiving it
  have hpr : s.chan (partner r) r = [] := by
    cases hm : s.chan (partner r) r with
    | nil => rfl
    | cons m ms =>
      have hbehind := (hI.pair r hr).resolve_left fun h => by simp [h.1] at hm
      have hc : c = .recv (partner r) m := by
        have := hhead r hr
        rw [hbehind.2, hm, hs] at this
        simpa using this.symm
      subst hc
      simpa [hm] using hwait r hr _ _ _ hs
  have hahead : Ahead s r (partner r) :=
    (hI.pair r hr).elim id fun h => h.swap hpr (hI.onlyPeer_partner hP hr)
  -- nothing is in flight from `r` either, or the partner would be receiving it
  have hrp : s.chan r (partner r) = [] := by
    cases hm : s.chan r (partner r) with
    | nil => rfl
    | cons m ms =>
      obtain ⟨l', hl'⟩ : ∃ l', s.rest (partner r) = .recv r m :: l' :=
        List.head?_eq_some_iff.mp (by rw [← hhead _ hp, hahead.2, hm]; rfl)
      simpa [hm] using hwait _ hp _ _ _ hl'
  -- so the partner's next call is the dual of `r`'s
  obtain ⟨l', hl'⟩ : ∃ l', s.rest (partner r) = c.dual r :: l' :=
    List.head?_eq_some_iff.mp (by
      rw [← hhead _ hp, hahead.2, hrp, List.map_nil, List.nil_append, List.head?_map, hhead r hr, hs]
      rfl)
  cases c with
  | send d t =>
    obtain rfl := hI.send_partner hr hs
    exact ⟨_, .rendezvous hr hp hs hl' hrp⟩
  | recv d t =>
    obtain rfl := hI.recv_partner hr hs
    exact ⟨_, .rendezvous hp hr hl' hs hpr⟩
  | _ => simp [Call.isLocal, Call.isCollective] at hl hcoll

/-- Deadlock freedom: under the invariant, a state in which some rank has calls left can step. -/
theorem progress (hP : Pairing n partner) (hI : Inv n partner s) (hnf : ¬ s.Final n) :
    ∃ s', Step n eager s s' := by
  -- a rank at a local call moves alone
  by_cases hloc : ∃ r < n, ∃ c l, s.rest r = c :: l ∧ c.isLocal = true
  · obtain ⟨r, hr, c, l, hs, hc⟩ := hloc
    exact ⟨_, .localCall hr hs hc⟩
  have hhead : ∀ q < n, (comm (s.rest q)).head? = (s.rest q).head? := fun q hq =>
    head?_comm fun c hc => by
      obtain ⟨l, hl⟩ := List.head?_eq_some_iff.mp hc
      simpa using fun h => hloc ⟨q, hq, c, l, hl, h⟩
  -- a receive with a message in flight takes it
  by_cases hdel : ∃ r < n, ∃ src t l, s.rest r = .recv src t :: l ∧ s.chan src r ≠ []
  · obtain ⟨r, hr, src, t, l, hs, hc⟩ := hdel
    obtain ⟨m, ms, hm⟩ := List.exists_cons_of_ne_nil hc
    obtain rfl := hI.deliver_type hr hs hm
    exact ⟨_, .deliver hr hs hm⟩
  have hwait : ∀ q < n, ∀ src t l, s.rest q = .recv src t :: l → s.chan src q = [] :=
    fun q hq src t l hs => Classical.byContradiction fun hc => hdel ⟨q, hq, src, t, l, hs, hc⟩
  -- a send or a receive meets the partner
  by_cases hp2p : ∃ r < n, ∃ c l, s.rest r = c :: l ∧ c.isLocal = false ∧ c.isCollective = false
  · obtain ⟨r, hr, c, l, hs, hl, hc⟩ := hp2p
    exact hI.meet hP hhead hwait hr hs hl hc
  -- the ranks that have calls left are at collectives, hence at the same one
  have hcoll : ∀ q < n, ∀ c ∈ (s.rest q).head?, c.isCollective = true := fun q hq c hc => by
    obtain ⟨l, hl⟩ := List.head?_eq_some_iff.mp hc
    by_contra h
    exact hp2p ⟨q, hq, c, l, hl, by simpa using fun h' => hloc ⟨q, hq, c, l, hl, h'⟩, by simpa using h⟩
  by_cases hany : ∃ r < n, ∃ c l, s.rest r = c :: l
  · obtain ⟨r, hr, c, l, hs⟩ := hany
    refine ⟨_, .collective (by omega) (hcoll r hr c (by simp [hs])) fun q hq => ?_⟩
    rw [← head?_collectives (hcoll q hq), hI.collectives_eq q hq, ← hI.collectives_eq r hr,
      head?_collectives (hcoll r hr), hs]
    rfl
  refine absurd (fun r hr => ?_) hnf
  cases h : s.rest r with
  | nil => rfl
  | cons c l => exact absurd ⟨r, hr, c, l, h⟩ hany

/-- When every rank is done, nothing is in flight. -/
theorem chan_eq_nil (hP : Pairing n partner) (hI : Inv n partner s) (hf : s.Final n) :
    ∀ r < n, ∀ q, s.chan r q = [] := by
  intro r hr q
  by_cases hq : q = partner r
  · subst hq
    rcases hI.pair r hr with ⟨_, h⟩ | ⟨h, _⟩
    · simpa [hf r hr, hf _ (hP.lt r hr)] using h.symm
    · exact h
  · exact hI.quiet r hr q hq

end Inv

/-! ## Runs -/

/-- Ranks with nothing to do are paired along any pairing. -/
theorem Pairing.paired_nil (hP : Pairing n partner) : Paired n partner fun _ => [] where
  toPairing := hP
  onlyPeer _ _ _ h := absurd h (List.not_mem_nil _)
  dual _ _ := rfl
  collectives_eq _ _ := rfl

/-- Only the programs of the ranks `0 .. n-1` matter. -/
theorem Paired.congr {prog prog' : Nat → List Call} (hP : Paired n partner prog)
    (h : ∀ r < n, prog r = prog' r) : Paired n partner prog' where
  toPairing := hP.toPairing
  onlyPeer r hr := h r hr ▸ hP.onlyPeer r hr
  dual r hr := by rw [← h r hr, ← h _ (hP.lt r hr)]; exact hP.dual r hr
  collectives_eq r hr := by
    rw [← h r hr, ← h 0 (Nat.lt_of_le_of_lt (Nat.zero_le r) hr)]; exact hP.collectives_eq r hr

theorem Paired.inv_init {prog : Nat → List Call} (hP : Paired n partner prog) :
    Inv n partner (Net.init prog) where
  onlyPeer := hP.onlyPeer
  pair r hr := .inl ⟨rfl, by simpa using hP.dual r hr⟩
  quiet _ _ _ _ := rfl
  collectives_eq := hP.collectives_eq

theorem Paired.inv {prog : Nat → List Call} (hP : Paired n partner prog)
    (h : Reach n eager prog s) : Inv n partner s := by
  induction h with
  | refl => exact hP.inv_init
  | tail _ hstep ih => exact ih.step hP.toPairing hstep

/-- Paired programs complete under every schedule and every buffering: a run that cannot be
extended ends with every rank done and every message received. With `Step.wellFounded`, every
run can be extended only finitely often, so every maximal run ends so. -/
theorem Paired.complete {prog : Nat → List Call} (hP : Paired n partner prog)
    (hs : Reach n eager prog s) (hstuck : ∀ s', ¬ Step n eager s s') :
    s.Final n ∧ ∀ r < n, ∀ q, s.chan r q = [] := by
  have hI := hP.inv hs
  have hf : s.Final n := Classical.byContradiction fun hnf =>
    let ⟨s', h⟩ := hI.progress hP.toPairing hnf
    hstuck s' h
  exact ⟨hf, hI.chan_eq_nil hP.toPairing hf⟩

/-- In no run of paired programs is a receive matched with a message of another datatype. -/
theorem Paired.not_mismatch {prog : Nat → List Call} (hP : Paired n partner prog)
    (hs : Reach n eager prog s) : ¬ s.Mismatch n :=
  (hP.inv hs).not_mismatch hP.toPairing

/-- **At most one message in flight.** When no rank's program has two receives in a row, a run
of paired programs never has more than one message in flight from one rank to another: the
messages ahead of a receiver are receives at the head of what it has left to do, and what it
has left is the end of its program. -/
theorem Paired.chan_length_le_one {prog : Nat → List Call} (hP : Paired n partner prog)
    (hprog : ∀ r < n, RecvApart (comm (prog r))) (hs : Reach n eager prog s) :
    ∀ r < n, ∀ q, (s.chan r q).length ≤ 1 := by
  have hI := hP.inv hs
  intro r hr q
  by_cases hq : q = partner r
  · subst hq
    rcases hI.pair r hr with h | h
    · have hapart : RecvApart (comm (s.rest (partner r))) :=
         List.Chain'.infix (hprog _ (hP.lt r hr)) ((hs.rest_suffix _).filter _).isInfix
      rw [h.2] at hapart
      match hm : s.chan r (partner r), hapart with
      | [], _ | [_], _ => simp
      | _ :: _ :: _, hapart => simp [hm, RecvApart, Call.isRecv] at hapart
    · simp [h.1]
  · simp [hI.quiet r hr q hq]

/-- **Clock readings in step.** When a rank whose program keeps its clock readings apart
(`ClockApart`) is about to read the clock, nothing is in flight between it and its partner
either way, and the partner has left to communicate exactly the dual of what the rank has left.
The rank is the one ahead, since it does not wait on a receive next; a message of its own in
flight would be a send just before the reading. -/
theorem Paired.in_step_at_clock {prog : Nat → List Call} (hP : Paired n partner prog)
    (hs : Reach n eager prog s) {r : Nat} (hr : r < n) (hclock : ClockApart (prog r))
    {post : List Call} (hrest : s.rest r = .wtime :: post) :
    s.chan r (partner r) = [] ∧ s.chan (partner r) r = [] ∧
      comm (s.rest (partner r)) = (comm (s.rest r)).map (Call.dual r) := by
  have hI := hP.inv hs
  obtain ⟨done, hdone⟩ := hs.rest_suffix r
  rw [hrest] at hdone
  obtain ⟨hlast, hnext⟩ := (hdone ▸ hclock : ClockApart (done ++ .wtime :: post)).around
  have hw : comm (.wtime :: post) = comm post := by rw [comm_cons]; rfl
  have hcomm_r : comm (s.rest r) = comm post := by rw [hrest, hw]
  obtain ⟨hpr, hcomm⟩ := ahead_of_not_recv (hI.pair r hr) (hI.onlyPeer_partner hP.toPairing hr)
    fun m hm => Bool.noConfusion (hnext (.recv (partner r) m) (by rw [← hcomm_r]; exact hm) :
      true = false)
  -- What the partner has left is the end of its program, the dual of `r`'s.
  obtain ⟨t, ht⟩ : comm (s.rest (partner r)) <:+ comm (prog (partner r)) :=
    (hs.rest_suffix _).filter _
  rw [hcomm, hP.dual r hr, ← hdone, comm_append, hw, hcomm_r, List.map_append,
    ← List.append_assoc] at ht
  have hdual := List.append_cancel_right ht
  have hr_p : s.chan r (partner r) = [] := by
    rcases List.eq_nil_or_concat (s.chan r (partner r)) with h | ⟨ms, m, h⟩
    · exact h
    · have hend : ((comm done).getLast?).map (Call.dual r) = some (.recv r m) := by
        rw [← List.getLast?_map, ← hdual, h]; simp
      obtain ⟨c, hc, hcm⟩ := Option.map_eq_some'.mp hend
      have := hlast c hc
      cases c <;> simp_all [Call.dual, Call.isSend]
  refine ⟨hr_p, hpr, ?_⟩
  rw [hcomm, hr_p, List.map_nil, List.nil_append]

/-- The run `Net.settle` schedules for paired programs ends with every rank done and every
message received. -/
theorem Paired.settle {prog : Nat → List Call} (hP : Paired n partner prog) :
    let s := (Net.init prog).settle n eager
    s.Final n ∧ ∀ r < n, ∀ q, s.chan r q = [] :=
  hP.complete (Net.settle_spec _).1 (Net.settle_spec _).2

end

end OsuMicroBenchmarks.Pt2pt
