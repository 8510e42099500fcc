import CachePool.Lib.Arbiter
import CachePool.Lib.Machine
import CachePool.Pkg

/-!
# The burst lock of the refill responses (`cachepool_cluster`: `gen_burst_ext_sel`, `i_cluster_xbar`)

One refill port of the cluster, with all response channels of the memory in front of it.  The response side of
the crossbar grants the first channel with a beat for the port, searched from an external priority; between
the crossbar and the port is a register for one beat that an empty cycle falls through.  While a burst is open
the priority is locked; no channel is masked.

* `port` — the machine of one port; the pick `l2_rr` of the separate round-robin arbiter is an input.
* `openAfter`, `Contiguous` — the burst a sequence of beats leaves open, and no beat of another channel inside
  it.
* `kept_run` — the lock is set exactly while the accepted beats leave a burst open.
* `accepted_contiguous_iff` — the accepted beats come in contiguous bursts exactly when, with the lock set,
  the first channel with a beat is always the one whose burst is open.
* `bursts_contiguous_iff` — the same of the delivered beats; where the round-robin pick always has a beat,
  exactly when no burst has a gap in which another channel has a beat.
-/

set_option autoImplicit false

namespace CachePool

namespace BurstLock

/-- `burst_req_t`. -/
structure BurstReq where
  isBurst : Bool
  burstLen : Nat
  deriving DecidableEq, Repr

/-- A beat on a response channel, with the fields of its user part that name the port and the burst. -/
structure RspChan where
  tileId : Nat
  bankId : Nat
  burst : BurstReq
  deriving DecidableEq, Repr

/-- A beat with the channel it came from. -/
structure Beat where
  channel : Nat
  rsp : RspChan
  deriving DecidableEq, Repr

/-- The parameters of the cluster's crossbar. -/
structure Cfg where
  numTiles : Nat
  numClusterMst : Nat
  clusterWideOutAxiPorts : Nat
  deriving DecidableEq, Repr

/-- One cycle: the valid beat of each channel, the pick of `i_rr_arb_tree`, and the port's ready. -/
structure Inputs where
  l2Rsp : Nat → Option RspChan
  l2Rr : Nat
  tileRspReady : Bool

/-- The registers of one port (`rr_lock_q`, `l2_prio_q`, the fall-through register), with the beats that
entered the register and those the port has taken, oldest first. -/
structure State where
  rrLockQ : Bool
  l2PrioQ : Nat
  rspReg : Option Beat
  accepted : List Beat
  delivered : List Beat
  deriving DecidableEq, Repr

/-! ## The logic of one port -/

variable (P : Cfg) (p : Nat)

/-- `port_id`, which is also the crossbar's `l2_sel`. -/
def portId (r : RspChan) : Nat :=
  (r.tileId * P.numClusterMst + r.bankId) % 2 ^ clog2 (P.numClusterMst * P.numTiles)

/-- `arb_valid[i]` of port `p`. -/
def arbValid (x : Inputs) (i : Nat) : Bool :=
  match x.l2Rsp i with
  | some r => portId P r == p
  | none => false

/-- `|arb_valid`. -/
def anyArbValid (x : Inputs) : Bool := (List.range P.clusterWideOutAxiPorts).any (arbValid P p x)

/-- `l2_prio_d`. -/
def l2PrioD (s : State) (x : Inputs) : Nat :=
  if anyArbValid P p x then
    if s.rrLockQ then s.l2PrioQ else x.l2Rr
  else s.l2PrioQ

/-- `l2_rsp_rr`, the priority the crossbar is given. -/
def l2RspRr (s : State) (x : Inputs) : Nat := l2PrioD P p s x

/-- The beat of the granted channel (`core_rsp`). -/
def coreRsp (s : State) (x : Inputs) : Option Beat :=
  match Arbiter.firstFrom P.clusterWideOutAxiPorts (l2RspRr P p s x) (arbValid P p x) with
  | some g => (x.l2Rsp g).map (Beat.mk g)
  | none => none

/-- The output of the fall-through register (`tile_rsp_chan` with its valid). -/
def tileRspChan (s : State) (x : Inputs) : Option Beat :=
  match s.rspReg with
  | some b => some b
  | none => coreRsp P p s x

/-- `rr_lock_d`. -/
def rrLockD (s : State) (x : Inputs) : Bool :=
  match tileRspChan P p s x with
  | some b =>
    if b.rsp.burst.isBurst && anyArbValid P p x then
      if b.rsp.burst.burstLen = 0 then false else true
    else s.rrLockQ
  | none => s.rrLockQ

/-- The beat that enters the register in this cycle: one if it is empty. -/
def newAccepted (s : State) (x : Inputs) : Option Beat :=
  match s.rspReg with
  | some _ => none
  | none => coreRsp P p s x

/-- The beat the port takes in this cycle. -/
def newDelivered (s : State) (x : Inputs) : Option Beat :=
  if x.tileRspReady then tileRspChan P p s x else none

def reset : State := ⟨false, 0, none, [], []⟩

def next (s : State) (x : Inputs) : State where
  rrLockQ := rrLockD P p s x
  l2PrioQ := l2PrioD P p s x
  rspReg := if x.tileRspReady then none else tileRspChan P p s x
  accepted := s.accepted ++ (newAccepted P p s x).toList
  delivered := s.delivered ++ (newDelivered P p s x).toList

/-- Port `p` of the cluster. -/
def port : Machine State Inputs := ⟨reset, next P p⟩

/-! ## Bursts in a sequence of beats -/

/-- The channel whose burst is open after one more beat: a burst's last beat has length 0. -/
def openStep (o : Option Nat) (b : Beat) : Option Nat :=
  if b.rsp.burst.isBurst then
    if b.rsp.burst.burstLen = 0 then none else some b.channel
  else o

/-- The channel whose burst the beats leave open. -/
def openAfter (bs : List Beat) : Option Nat := bs.foldl openStep none

/-- While a burst is open, only its channel has beats. -/
def Contiguous (bs : List Beat) : Prop :=
  ∀ pre b post, bs = pre ++ b :: post → ∀ k, openAfter pre = some k → b.channel = k

variable {P p} {bs : List Beat} {b : Beat}

@[simp] theorem openAfter_concat : openAfter (bs ++ [b]) = openStep (openAfter bs) b := by
  simp [openAfter]

theorem isSome_openStep {o : Option Nat} :
    (openStep o b).isSome =
      if b.rsp.burst.isBurst then (if b.rsp.burst.burstLen = 0 then false else true) else o.isSome := by
  unfold openStep
  split
  · split <;> rfl
  · rfl

/-- What the last beat says about the open burst, it says once more. -/
theorem isSome_openAfter_concat_of_isBurst (h : b.rsp.burst.isBurst = true) :
    (openAfter (bs ++ [b])).isSome = if b.rsp.burst.burstLen = 0 then false else true := by
  rw [openAfter_concat, isSome_openStep, if_pos h]

theorem Contiguous.nil : Contiguous [] := by
  intro pre b post h
  simp at h

theorem contiguous_concat :
    Contiguous (bs ++ [b]) ↔ Contiguous bs ∧ ∀ k, openAfter bs = some k → b.channel = k := by
  constructor
  · intro h
    exact ⟨fun pre c post heq => h pre c (post ++ [b]) (by simp [heq]), h bs b [] rfl⟩
  · rintro ⟨h, hb⟩ pre c post heq
    rcases post.eq_nil_or_concat with rfl | ⟨post', d, rfl⟩
    · obtain ⟨rfl, hc⟩ := List.append_inj' heq rfl
      cases hc
      exact hb
    · have heq' : bs ++ [b] = (pre ++ c :: post') ++ [d] := by simpa using heq
      exact h pre c post' (List.append_inj' heq' rfl).1

theorem Contiguous.beginning {bs' : List Beat} (h : Contiguous (bs ++ bs')) : Contiguous bs :=
  fun pre c post heq => h pre c (post ++ bs') (by simp [heq])

/-! ## What every run keeps -/

variable {s : State} {x : Inputs}

/-- The lock follows the accepted beats, and these are the delivered ones and the one in the register. -/
structure Kept (s : State) : Prop where
  lock : s.rrLockQ = (openAfter s.accepted).isSome
  stored : ∀ b, s.rspReg = some b → ∃ bs, s.accepted = bs ++ [b]
  stream : s.accepted = s.delivered ++ s.rspReg.toList

theorem anyArbValid_iff :
    anyArbValid P p x = true ↔ ∃ i < P.clusterWideOutAxiPorts, arbValid P p x i = true := by
  simp [anyArbValid]

theorem coreRsp_eq_some_iff :
    coreRsp P p s x = some b ↔
      Arbiter.firstFrom P.clusterWideOutAxiPorts (l2RspRr P p s x) (arbValid P p x) = some b.channel ∧
        x.l2Rsp b.channel = some b.rsp := by
  unfold coreRsp
  cases hg : Arbiter.firstFrom P.clusterWideOutAxiPorts (l2RspRr P p s x) (arbValid P p x) with
  | none => simp
  | some g =>
    constructor
    · intro h
      obtain ⟨r, hr, rfl⟩ := Option.map_eq_some_iff.mp h
      exact ⟨rfl, hr⟩
    · rintro ⟨heq, hr⟩
      cases heq
      simp [hr]

theorem exists_coreRsp {g : Nat}
    (h : Arbiter.firstFrom P.clusterWideOutAxiPorts (l2RspRr P p s x) (arbValid P p x) = some g) :
    ∃ r, coreRsp P p s x = some ⟨g, r⟩ := by
  have hvalid := Arbiter.valid_of_firstFrom h
  unfold arbValid at hvalid
  cases hr : x.l2Rsp g with
  | none => simp [hr] at hvalid
  | some r => exact ⟨r, coreRsp_eq_some_iff.mpr ⟨h, hr⟩⟩

theorem anyArbValid_of_coreRsp (h : coreRsp P p s x = some b) : anyArbValid P p x = true := by
  obtain ⟨hg, -⟩ := coreRsp_eq_some_iff.mp h
  exact anyArbValid_iff.mpr ⟨b.channel, Arbiter.lt_of_firstFrom hg, Arbiter.valid_of_firstFrom hg⟩

theorem Kept.next_lock (h : Kept s) :
    (next P p s x).rrLockQ = (openAfter (next P p s x).accepted).isSome := by
  unfold next rrLockD newAccepted tileRspChan
  cases hreg : s.rspReg with
  | some b =>
    -- A beat that waits in the register is judged again, with the verdict it had when it entered.
    obtain ⟨bs, hbs⟩ := h.stored b hreg
    simp only [Option.toList_none, List.append_nil]
    split
    · rename_i hb
      rw [Bool.and_eq_true] at hb
      rw [hbs, isSome_openAfter_concat_of_isBurst hb.1]
    · exact h.lock
  | none =>
    cases hc : coreRsp P p s x with
    | none => simpa using h.lock
    | some b =>
      simp only [anyArbValid_of_coreRsp hc, Bool.and_true, Option.toList_some, openAfter_concat,
        isSome_openStep, h.lock]

theorem Kept.next_stored (h : Kept s) (hb : (next P p s x).rspReg = some b) :
    ∃ bs, (next P p s x).accepted = bs ++ [b] := by
  unfold next tileRspChan at hb
  unfold next newAccepted
  cases hr : x.tileRspReady with
  | true => simp [hr] at hb
  | false =>
    cases hreg : s.rspReg with
    | some c =>
      simp only [hr, hreg, Bool.false_eq_true, ↓reduceIte, Option.some.injEq] at hb
      subst hb
      simpa using h.stored c hreg
    | none =>
      simp only [hr, hreg, Bool.false_eq_true, ↓reduceIte] at hb
      exact ⟨s.accepted, by simp [hb]⟩

theorem Kept.next_stream (h : Kept s) :
    (next P p s x).accepted = (next P p s x).delivered ++ (next P p s x).rspReg.toList := by
  unfold next newAccepted newDelivered tileRspChan
  cases hr : x.tileRspReady <;> cases hreg : s.rspReg <;> simp [h.stream, hreg]

theorem kept_run (xs : List Inputs) : Kept ((port P p).run xs) := by
  apply Machine.invariant (M := port P p) (C := fun _ _ => True) (P := Kept)
  · exact ⟨rfl, by simp [port, reset], rfl⟩
  · intro s x h _
    exact ⟨h.next_lock, fun _ => h.next_stored, h.next_stream⟩
  · exact fun _ _ _ _ => trivial

/-! ## The conditions -/

variable (P p)

/-- With the lock set, the first channel with a beat for the port, from the locked priority on, is the one
whose burst is open. -/
def LockedFirst (s : State) (x : Inputs) : Prop :=
  ∀ k, openAfter s.accepted = some k → s.rspReg = none →
    ∀ g, Arbiter.firstFrom P.clusterWideOutAxiPorts s.l2PrioQ (arbValid P p x) = some g → g = k

/-- Without the lock, the round-robin arbiter picks a channel that has a beat for the port, if there is one.
-/
def PicksValid (s : State) (x : Inputs) : Prop :=
  s.rrLockQ = false → anyArbValid P p x = true →
    x.l2Rr < P.clusterWideOutAxiPorts ∧ arbValid P p x x.l2Rr = true

/-- With the lock set and the register empty, a channel has a beat for the port only if the locked one has. -/
def NoGap (s : State) (x : Inputs) : Prop :=
  s.rrLockQ = true → s.rspReg = none → anyArbValid P p x = true → arbValid P p x s.l2PrioQ = true

variable {P p}

theorem l2RspRr_of_lock (h : s.rrLockQ = true) : l2RspRr P p s x = s.l2PrioQ := by
  unfold l2RspRr l2PrioD
  rw [h]
  split <;> rfl

/-- **One cycle.**  The beats stay contiguous exactly if the granted channel is the one whose burst is open.
-/
theorem contiguous_next_iff (h : Kept s) :
    Contiguous (next P p s x).accepted ↔ Contiguous s.accepted ∧ LockedFirst P p s x := by
  have hacc : (next P p s x).accepted = s.accepted ++ (newAccepted P p s x).toList := rfl
  rw [hacc]
  unfold newAccepted
  cases hreg : s.rspReg with
  | some b =>
    have hfirst : LockedFirst P p s x := by
      intro k _ hnone
      rw [hreg] at hnone
      cases hnone
    simp [hfirst]
  | none =>
    cases hc : coreRsp P p s x with
    | none =>
      have hfirst : LockedFirst P p s x := by
        intro k hk _ g hg
        have hlock : s.rrLockQ = true := by rw [h.lock, hk, Option.isSome_some]
        rw [← l2RspRr_of_lock (P := P) (p := p) (x := x) hlock] at hg
        obtain ⟨r, hr⟩ := exists_coreRsp hg
        rw [hc] at hr
        cases hr
      simp [hfirst]
    | some b =>
      obtain ⟨hg, -⟩ := coreRsp_eq_some_iff.mp hc
      rw [Option.toList_some, contiguous_concat]
      apply and_congr_right
      intro _
      constructor
      · intro hb k hk _ g hg'
        have hlock : s.rrLockQ = true := by rw [h.lock, hk, Option.isSome_some]
        rw [l2RspRr_of_lock hlock, hg'] at hg
        cases hg
        exact hb k hk
      · intro hfirst k hk
        have hlock : s.rrLockQ = true := by rw [h.lock, hk, Option.isSome_some]
        rw [l2RspRr_of_lock hlock] at hg
        exact hfirst k hk hreg b.channel hg

theorem accepted_contiguous_iff (xs : List Inputs) :
    Contiguous ((port P p).run xs).accepted ↔ (port P p).Meets (LockedFirst P p) xs := by
  induction xs using List.reverseRecOn with
  | nil => exact ⟨fun _ => Machine.Meets.nil _, fun _ => Contiguous.nil⟩
  | append_singleton xs x ih =>
    rw [Machine.run_concat, Machine.meets_concat, ← ih]
    exact contiguous_next_iff (kept_run xs)

theorem delivered_contiguous {xs : List Inputs} (h : (port P p).Meets (LockedFirst P p) xs) :
    Contiguous ((port P p).run xs).delivered := by
  have hacc := (accepted_contiguous_iff xs).mpr h
  rw [(kept_run xs).stream] at hacc
  exact hacc.beginning

/-- An accepted beat is delivered by the next cycle in which the port is ready. -/
theorem accepted_contiguous_of_delivered {xs : List Inputs} (hx : x.tileRspReady = true)
    (h : Contiguous ((port P p).run (xs ++ [x])).delivered) : Contiguous ((port P p).run xs).accepted := by
  have hreg : ((port P p).run (xs ++ [x])).rspReg = none := by
    simp [port, next, hx]
  have hstream := (kept_run (P := P) (p := p) (xs ++ [x])).stream
  rw [hreg, Option.toList_none, List.append_nil] at hstream
  have hacc : ((port P p).run (xs ++ [x])).accepted =
      ((port P p).run xs).accepted ++ (newAccepted P p ((port P p).run xs) x).toList := by
    rw [Machine.run_concat]
    rfl
  rw [← hstream, hacc] at h
  exact h.beginning

/-! ## The locked priority -/

/-- The locked priority is the channel whose burst is open. -/
def PrioOpen (P : Cfg) (s : State) : Prop :=
  ∀ k, openAfter s.accepted = some k → s.l2PrioQ = k ∧ k < P.clusterWideOutAxiPorts

theorem PrioOpen.lockedFirst_iff (h : Kept s) (hprio : PrioOpen P s) :
    LockedFirst P p s x ↔ NoGap P p s x := by
  constructor
  · intro hfirst hlock hreg hany
    rw [h.lock] at hlock
    obtain ⟨k, hk⟩ := Option.isSome_iff_exists.mp hlock
    obtain ⟨rfl, -⟩ := hprio k hk
    cases hg : Arbiter.firstFrom P.clusterWideOutAxiPorts s.l2PrioQ (arbValid P p x) with
    | none =>
      obtain ⟨i, hi, hvalid⟩ := anyArbValid_iff.mp hany
      rw [Arbiter.firstFrom_eq_none_iff.mp hg i hi] at hvalid
      cases hvalid
    | some g =>
      have hgk := hfirst _ hk hreg g hg
      rw [← hgk]
      exact Arbiter.valid_of_firstFrom hg
  · intro hgap k hk hreg g hg
    obtain ⟨rfl, hlt⟩ := hprio k hk
    have hlock : s.rrLockQ = true := by rw [h.lock, hk, Option.isSome_some]
    have hany : anyArbValid P p x = true :=
      anyArbValid_iff.mpr ⟨g, Arbiter.lt_of_firstFrom hg, Arbiter.valid_of_firstFrom hg⟩
    rw [Arbiter.firstFrom_of_valid hlt (hgap hlock hreg hany)] at hg
    exact (Option.some.inj hg).symm

/-- A cycle without a gap that opens or continues a burst leaves the priority at its channel. -/
theorem PrioOpen.next (h : Kept s) (hprio : PrioOpen P s) (hpick : PicksValid P p s x)
    (hgap : NoGap P p s x) : PrioOpen P (next P p s x) := by
  intro k hk
  have hacc : (BurstLock.next P p s x).accepted = s.accepted ++ (newAccepted P p s x).toList := rfl
  have hq : (BurstLock.next P p s x).l2PrioQ = l2PrioD P p s x := rfl
  rw [hacc] at hk
  rw [hq]
  cases hnew : newAccepted P p s x with
  | none =>
    rw [hnew, Option.toList_none, List.append_nil] at hk
    have hlock : s.rrLockQ = true := by rw [h.lock, hk, Option.isSome_some]
    rw [show l2PrioD P p s x = s.l2PrioQ from l2RspRr_of_lock hlock]
    exact hprio k hk
  | some b =>
    rw [hnew, Option.toList_some, openAfter_concat] at hk
    have hreg : s.rspReg = none := by
      unfold newAccepted at hnew
      cases hreg : s.rspReg with
      | none => rfl
      | some c => simp [hreg] at hnew
    have hc : coreRsp P p s x = some b := by simpa [newAccepted, hreg] using hnew
    have hany := anyArbValid_of_coreRsp hc
    obtain ⟨hg, -⟩ := coreRsp_eq_some_iff.mp hc
    cases hlock : s.rrLockQ with
    | true =>
      have hkept : l2PrioD P p s x = s.l2PrioQ := l2RspRr_of_lock hlock
      have hopen := hlock
      rw [h.lock] at hopen
      obtain ⟨j, hj⟩ := Option.isSome_iff_exists.mp hopen
      obtain ⟨hjq, hlt⟩ := hprio j hj
      have hvalid := hgap hlock hreg hany
      rw [l2RspRr_of_lock hlock, Arbiter.firstFrom_of_valid (hjq ▸ hlt) hvalid, hjq] at hg
      cases hg
      rw [hkept, hjq]
      unfold openStep at hk
      split at hk
      · split at hk
        · cases hk
        · cases hk
          exact ⟨rfl, hlt⟩
      · rw [hj] at hk
        cases hk
        exact ⟨rfl, hlt⟩
    | false =>
      obtain ⟨hlt, hvalid⟩ := hpick hlock hany
      have hrr : l2PrioD P p s x = x.l2Rr := by simp [l2PrioD, hany, hlock]
      have hnone : openAfter s.accepted = none := by
        rw [h.lock] at hlock
        simpa using hlock
      rw [show l2RspRr P p s x = x.l2Rr from hrr, Arbiter.firstFrom_of_valid hlt hvalid] at hg
      have hbc : x.l2Rr = b.channel := Option.some.inj hg
      rw [hrr]
      unfold openStep at hk
      split at hk
      · split at hk
        · cases hk
        · cases hk
          exact ⟨hbc, hbc ▸ hlt⟩
      · rw [hnone] at hk
        cases hk

/-- **Contiguous bursts.**  The beats delivered to a port come in contiguous bursts if, with the lock set, the
first channel with a beat for the port is always the one whose burst is open; with a cycle more in which the
port is ready, only then.  In the runs in which the round-robin pick has a beat, that is so exactly when no
burst has a gap in which another channel has a beat. -/
theorem bursts_contiguous_iff (P : Cfg) (p : Nat) (xs : List Inputs) :
    ((port P p).Meets (LockedFirst P p) xs → Contiguous ((port P p).run xs).delivered) ∧
      (∀ x, x.tileRspReady = true → Contiguous ((port P p).run (xs ++ [x])).delivered →
        (port P p).Meets (LockedFirst P p) xs) ∧
      ((port P p).Meets (PicksValid P p) xs →
        ((port P p).Meets (LockedFirst P p) xs ↔ (port P p).Meets (NoGap P p) xs)) := by
  refine ⟨delivered_contiguous, fun x hx h => ?_, fun hpick => ?_⟩
  · exact (accepted_contiguous_iff xs).mp (accepted_contiguous_of_delivered hx h)
  have hiff := Machine.meets_congr_upon (M := port P p) (P := fun s => Kept s ∧ PrioOpen P s)
    (C := fun s x => PicksValid P p s x ∧ LockedFirst P p s x)
    (D := fun s x => PicksValid P p s x ∧ NoGap P p s x)
    ⟨kept_run [], by intro k hk; simp [port, reset, openAfter] at hk⟩
    (fun s x h => and_congr_right fun _ => h.2.lockedFirst_iff h.1)
    (fun s x h hx => ⟨⟨h.1.next_lock, fun _ => h.1.next_stored, h.1.next_stream⟩, h.2.next h.1 hx.1 hx.2⟩) xs
  constructor
  · intro h pre x post heq
    exact (hiff.mp (hpick.and h) pre x post heq).2
  · intro h pre x post heq
    exact (hiff.mpr (hpick.and h) pre x post heq).2

instance (P : Cfg) (p : Nat) (s : State) (x : Inputs) : Decidable (NoGap P p s x) :=
  inferInstanceAs (Decidable (_ = _ → _ = _ → _ = _ → _ = _))

instance (P : Cfg) (p : Nat) (s : State) (x : Inputs) : Decidable (PicksValid P p s x) :=
  inferInstanceAs (Decidable (_ = _ → _ = _ → _ < _ ∧ _ = _))

/-- Two channels, one port: channel 0 has a burst of two beats in two cycles, and channel 1 one of two beats
in the second of them and the two after it. -/
def backToBack : List Inputs :=
  let beat (len : Nat) : Option RspChan := some ⟨0, 0, ⟨true, len⟩⟩
  [⟨fun i => if i = 0 then beat 1 else none, 0, true⟩,
   ⟨fun i => if i = 0 then beat 0 else beat 1, 1, true⟩,
   ⟨fun i => if i = 0 then none else beat 1, 1, true⟩,
   ⟨fun i => if i = 0 then none else beat 0, 1, true⟩]

/-- No gap, so the two bursts are delivered one after the other. -/
theorem bursts_contiguous_backToBack : Contiguous ((port ⟨1, 1, 2⟩ 0).run backToBack).delivered := by
  have hpick : (port ⟨1, 1, 2⟩ 0).Meets (PicksValid ⟨1, 1, 2⟩ 0) backToBack := by decide
  have hgap : (port ⟨1, 1, 2⟩ 0).Meets (NoGap ⟨1, 1, 2⟩ 0) backToBack := by decide
  obtain ⟨hdelivered, -, hiff⟩ := bursts_contiguous_iff ⟨1, 1, 2⟩ 0 backToBack
  exact hdelivered ((hiff hpick).mpr hgap)

/-- Two channels, one port: channel 0 opens a burst of two beats and has none in the next cycle, in which
channel 1 has one. -/
def gapRun : List Inputs :=
  let beat (len : Nat) : RspChan := ⟨0, 0, ⟨true, len⟩⟩
  [⟨fun i => if i = 0 then some (beat 1) else none, 0, true⟩,
   ⟨fun i => if i = 1 then some (beat 1) else none, 1, true⟩]

/-- The second channel's beat is delivered inside the first channel's burst. -/
theorem burst_interleaved : ¬ Contiguous ((port ⟨1, 1, 2⟩ 0).run gapRun).delivered := by
  intro h
  have hrun : ((port ⟨1, 1, 2⟩ 0).run gapRun).delivered =
      [⟨0, ⟨0, 0, ⟨true, 1⟩⟩⟩] ++ ⟨1, ⟨0, 0, ⟨true, 1⟩⟩⟩ :: [] := by decide
  have := h _ _ _ hrun 0 rfl
  cases this

end BurstLock

end CachePool
