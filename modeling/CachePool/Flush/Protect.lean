import CachePool.Remote
import CachePool.Lib.Machine
import CachePool.Lib.Bag

/-!
# The remote-in ports of a tile during a flush (`remote_flush_protection`)

One remote-in port: the request handshake with the group crossbar, the requests inside the tile, the
fall-through response register of the interconnect, the response handshake, and the responses on
their way back through the group crossbar to the issuing tile.  Every accepted request gets a number;
the number stands for the request and later for its response.  The tile's flush-busy signal, all ready
signals, and the time and order in which requests are answered are inputs.

While the tile is busy, `remote_in_pready` keeps the response register from popping, but the valid
signal the group crossbar sees is not gated.

* `ExactlyOnce` — every accepted request is at one place: in the tile, in the response register, or
  taken by the group crossbar once; and every response taken is on its way or delivered, once.
* `load_next` — a cycle takes a response without popping it exactly when the tile is busy.
* `one_response_iff` — a run keeps `ExactlyOnce` exactly when no response is taken while the tile is
  busy; then it can be continued until everything is delivered.
-/

set_option autoImplicit false

namespace CachePool

namespace Flush

open Remote

/-- Remote slot `slot` of interconnect `xbar` of tile `tile`. -/
structure RemoteInPort (P : Params) where
  tile : Nat
  xbar : Nat
  slot : Nat
  tile_lt : tile < P.numTiles
  xbar_lt : xbar < nrTCDMPortsPerCore
  slot_lt : slot < P.numRemotePort

/-- A request the group crossbar presents at a port: its user fields name a core of another tile, and
the slot is the one responses to that tile leave by. -/
structure RemoteReq {P : Params} (p : RemoteInPort P) where
  chan : TcdmReqChan
  core_lt : chan.user.coreId < P.numCores
  tile_lt : chan.user.tileId < P.numTiles
  tile_ne : chan.user.tileId ≠ p.tile
  slot_eq : chan.user.tileId % P.numRemotePort = p.slot

/-- The signals `remote_flush_protection` drives. -/
structure PortWires where
  /-- `remote_req_gated.q_valid` -/
  reqGatedValid : Bool
  /-- `remote_rsp_o.q_ready` -/
  rspQReady : Bool
  /-- `remote_rsp_o.p_valid` -/
  rspPValid : Bool
  /-- `remote_in_pready` -/
  inPready : Bool

/-- `remote_flush_protection` for one port. -/
def remoteFlushProtection (l1dBusy qValid xbarQReady xbarPValid rspReady : Bool) : PortWires where
  reqGatedValid := qValid && !l1dBusy
  rspQReady := xbarQReady && !l1dBusy
  rspPValid := xbarPValid
  inPready := rspReady && !l1dBusy

namespace Port

variable {P : Params}

structure State (p : RemoteInPort P) where
  /-- requests in the tile whose responses have not reached the response register -/
  inside : List Nat
  /-- the fall-through register behind the response crossbar -/
  rspReg : Option Nat
  /-- the requests handshaken at the port, by number -/
  accepted : List (RemoteReq p)
  /-- the responses the group crossbar has taken at the port -/
  taken : List Nat
  /-- responses between the port and the issuing cores -/
  returning : List Nat
  /-- responses handed to the issuing core ports -/
  delivered : List Nat

/-- The inputs of one cycle. -/
structure In (p : RemoteInPort P) where
  l1dBusy : Bool
  /-- `remote_req_i.q`, when valid -/
  req : Option (RemoteReq p)
  /-- `remote_rsp_xbar.q_ready` -/
  xbarQReady : Bool
  /-- the position of the request whose response the response crossbar offers -/
  answer : Option Nat
  /-- `remote_rsp_ready_i` -/
  rspReady : Bool
  /-- the position of the response that reaches its core port -/
  deliver : Option Nat

variable {p : RemoteInPort P}

def reset : State p := ⟨[], none, [], [], [], []⟩

variable (s : State p) (x : In p)

/-- The response offered to the response register, with the requests left behind it. -/
def offered : Option (Nat × List Nat) := x.answer.bind (Bag.draw s.inside)

/-- `remote_rsp_xbar.p` and its valid: the register's content, or what falls through it. -/
def xbarP : Option Nat := s.rspReg <|> (offered s x).map Prod.fst

def wires : PortWires :=
  remoteFlushProtection x.l1dBusy x.req.isSome x.xbarQReady (xbarP s x).isSome x.rspReady

/-- What stays inside once the register has taken the offered response. -/
def insideLeft : List Nat :=
  match s.rspReg, offered s x with
  | none, some (_, rest) => rest
  | _, _ => s.inside

/-- The requests the group crossbar hands over. -/
def newReq : List (RemoteReq p) := if (wires s x).rspQReady then x.req.toList else []

/-- The responses the group crossbar takes. -/
def newTaken : List Nat :=
  if (wires s x).rspPValid && x.rspReady then (xbarP s x).toList else []

/-- The response that reaches its core port, with those still on their way. -/
def arriving : Option (Nat × List Nat) := x.deliver.bind (Bag.draw s.returning)

def next : State p where
  -- the request register takes what the gated valid shows it
  inside := insideLeft s x ++
    if (wires s x).reqGatedValid && x.xbarQReady then [s.accepted.length] else []
  rspReg := if (wires s x).inPready then none else xbarP s x
  accepted := s.accepted ++ newReq s x
  taken := s.taken ++ newTaken s x
  returning := ((arriving s x).map Prod.snd).getD s.returning ++ newTaken s x
  delivered := s.delivered ++ ((arriving s x).map Prod.fst).toList

def machine (p : RemoteInPort P) : Machine (State p) (In p) := ⟨reset, next⟩

/-- **Every accepted request has one response**, wherever it is. -/
structure ExactlyOnce : Prop where
  conserved : (s.inside ++ s.rspReg.toList ++ s.taken).Perm (List.range s.accepted.length)
  returned : s.taken.Perm (s.returning ++ s.delivered)

/-- The group crossbar takes a response while the tile is busy. -/
def TakesWhileBusy : Prop :=
  x.l1dBusy = true ∧ x.rspReady = true ∧ (xbarP s x).isSome = true

instance : Decidable (TakesWhileBusy s x) := by
  unfold TakesWhileBusy
  exact inferInstance

variable {s x}

theorem exactlyOnce_reset : ExactlyOnce (reset : State p) := ⟨.refl _, .refl _⟩

/-! ## One cycle -/

/-- Both sides of the request handshake agree. -/
theorem newReq_length :
    (newReq s x).length = if (wires s x).reqGatedValid && x.xbarQReady then 1 else 0 := by
  unfold newReq wires remoteFlushProtection
  cases x.req <;> cases x.xbarQReady <;> cases x.l1dBusy <;> rfl

/-- What the response side holds is what it held, in another place. -/
theorem insideLeft_perm :
    (insideLeft s x ++ (xbarP s x).toList).Perm (s.inside ++ s.rspReg.toList) := by
  unfold insideLeft xbarP
  cases hr : s.rspReg with
  | some a => exact .refl _
  | none =>
    cases ho : offered s x with
    | none => exact .refl _
    | some q =>
      obtain ⟨a, rest⟩ := q
      obtain ⟨i, -, hi⟩ := Option.bind_eq_some_iff.mp ho
      have hperm := Bag.perm_of_draw hi
      show (rest ++ [a]).Perm (s.inside ++ [])
      rw [List.append_nil]
      exact List.perm_append_comm.trans hperm.symm

theorem next_rspReg :
    (next s x).rspReg = if x.rspReady && !x.l1dBusy then none else xbarP s x := rfl

theorem newTaken_eq : newTaken s x = if x.rspReady then (xbarP s x).toList else [] := by
  unfold newTaken wires remoteFlushProtection
  cases x.rspReady <;> cases xbarP s x <;> rfl

/-- A response that is taken also pops, unless the tile is busy. -/
theorem pop_perm (h : ¬ TakesWhileBusy s x) :
    ((next s x).rspReg.toList ++ newTaken s x).Perm (xbarP s x).toList := by
  rw [next_rspReg, newTaken_eq]
  cases hr : x.rspReady
  · simp
  · cases hb : x.l1dBusy
    · simp
    · have hnone : xbarP s x = none := by
        cases hp : xbarP s x
        · rfl
        · exact absurd ⟨hb, hr, by rw [hp]; rfl⟩ h
      simp [hnone]

theorem ExactlyOnce.next_conserved (I : ExactlyOnce s) (h : ¬ TakesWhileBusy s x) :
    ((next s x).inside ++ (next s x).rspReg.toList ++ (next s x).taken).Perm
      (List.range (next s x).accepted.length) := by
  have hin := insideLeft_perm (s := s) (x := x)
  have hpop := pop_perm h
  have hlen := newReq_length (s := s) (x := x)
  have hkeep : (insideLeft s x ++ (next s x).rspReg.toList ++ (s.taken ++ newTaken s x)).Perm
      (List.range s.accepted.length) := by
    refine List.Perm.trans ?_ I.conserved
    rw [List.perm_iff_count] at hin hpop ⊢
    intro a
    have h1 := hin a
    have h2 := hpop a
    simp only [List.count_append] at h1 h2 ⊢
    omega
  show ((insideLeft s x ++ if (wires s x).reqGatedValid && x.xbarQReady then [s.accepted.length]
    else []) ++ (next s x).rspReg.toList ++ (s.taken ++ newTaken s x)).Perm
    (List.range (s.accepted ++ newReq s x).length)
  rw [List.length_append, hlen]
  split
  · rw [List.range_succ]
    rw [List.perm_iff_count] at hkeep ⊢
    intro a
    have h1 := hkeep a
    simp only [List.count_append] at h1 ⊢
    omega
  · simpa using hkeep

theorem ExactlyOnce.next_returned (I : ExactlyOnce s) :
    (next s x).taken.Perm ((next s x).returning ++ (next s x).delivered) := by
  have hret := I.returned
  show (s.taken ++ newTaken s x).Perm
    ((((arriving s x).map Prod.snd).getD s.returning ++ newTaken s x) ++
      (s.delivered ++ ((arriving s x).map Prod.fst).toList))
  cases ha : arriving s x with
  | none =>
    rw [List.perm_iff_count] at hret ⊢
    intro a
    have h1 := hret a
    simp only [Option.map_none, Option.getD_none, Option.toList_none, List.count_append,
      List.count_nil] at h1 ⊢
    omega
  | some q =>
    obtain ⟨b, rest⟩ := q
    obtain ⟨i, -, hi⟩ := Option.bind_eq_some_iff.mp ha
    have hperm := Bag.perm_of_draw hi
    rw [List.perm_iff_count] at hret hperm ⊢
    intro a
    have h1 := hret a
    have h2 := hperm a
    simp only [Option.map_some, Option.getD_some, Option.toList_some, List.count_append,
      List.count_cons, List.count_nil] at h1 h2 ⊢
    omega

theorem exactlyOnce_next (I : ExactlyOnce s) (h : ¬ TakesWhileBusy s x) : ExactlyOnce (next s x) :=
  ⟨I.next_conserved h, I.next_returned⟩

/-- The responses and requests that are somewhere. -/
def load (s : State p) : Nat := s.inside.length + s.rspReg.toList.length + s.taken.length

/-- A cycle in which the group takes a response from a busy tile adds one that nobody asked for. -/
theorem load_next (h : TakesWhileBusy s x) :
    load (next s x) = load s + 1 + ((next s x).accepted.length - s.accepted.length) := by
  obtain ⟨hb, hr, hp⟩ := h
  have hin := (insideLeft_perm (s := s) (x := x)).length_eq
  obtain ⟨a, ha⟩ := Option.isSome_iff_exists.mp hp
  have hreq : (newReq s x).length = 0 := by
    rw [newReq_length]
    simp [wires, remoteFlushProtection, hb]
  have hinside : (next s x).inside = insideLeft s x := by
    show insideLeft s x ++ (if (wires s x).reqGatedValid && x.xbarQReady then _ else []) = _
    simp [wires, remoteFlushProtection, hb]
  have hreg : (next s x).rspReg = some a := by rw [next_rspReg, hr, hb, ha]; rfl
  have htaken : (next s x).taken = s.taken ++ [a] := by
    show s.taken ++ newTaken s x = _
    rw [newTaken_eq, hr, ha]
    rfl
  have hacc : (next s x).accepted.length = s.accepted.length := by
    show (s.accepted ++ newReq s x).length = _
    rw [List.length_append, hreq, Nat.add_zero]
  rw [ha, List.length_append, List.length_append] at hin
  rw [load, load, hinside, hreg, htaken, hacc, List.length_append]
  simp only [Option.toList_some, List.length_singleton] at hin ⊢
  omega

theorem ExactlyOnce.load_eq (I : ExactlyOnce s) : load s = s.accepted.length := by
  have h := I.conserved.length_eq
  rw [List.length_append, List.length_append, List.length_range] at h
  exact h

/-! ## Runs -/

theorem exactlyOnce_run (xs : List (In p))
    (h : (machine p).Meets (fun s x => ¬ TakesWhileBusy s x) xs) :
    ExactlyOnce ((machine p).run xs) :=
  Machine.invariant (M := machine p) exactlyOnce_reset (fun _ _ I hx => exactlyOnce_next I hx) xs h

/-- The cycle that drains the port: not busy, nothing new, everything ready. -/
def drain : In p := ⟨false, none, false, some 0, true, some 0⟩

/-- What is left to do before everything is delivered. -/
def pendingWork (s : State p) : Nat :=
  2 * (s.inside.length + s.rspReg.toList.length) + s.returning.length

theorem not_takesWhileBusy_drain : ¬ TakesWhileBusy s (drain : In p) := by
  rintro ⟨h, -⟩
  cases h

theorem accepted_drain : (next s (drain : In p)).accepted = s.accepted := by
  show s.accepted ++ newReq s drain = _
  simp [newReq, wires, remoteFlushProtection, drain]

theorem pendingWork_drain (h : pendingWork s ≠ 0) : pendingWork (next s drain) < pendingWork s := by
  have hout : newTaken s drain = (xbarP s drain).toList := newTaken_eq
  have hin := (insideLeft_perm (s := s) (x := drain)).length_eq
  rw [List.length_append, List.length_append] at hin
  have hnext : pendingWork (next s drain) = 2 * (insideLeft s drain).length +
      ((((arriving s drain).map Prod.snd).getD s.returning).length +
        (xbarP s drain).toList.length) := by
    have hinside : (next s drain).inside = insideLeft s drain := List.append_nil _
    have hreg : (next s drain).rspReg = none := next_rspReg
    have hret : (next s drain).returning =
        ((arriving s drain).map Prod.snd).getD s.returning ++ newTaken s drain := rfl
    rw [pendingWork, hinside, hreg, hret, hout, List.length_append]
    rfl
  have harr : (((arriving s drain).map Prod.snd).getD s.returning).length = s.returning.length - 1 := by
    cases hr : s.returning with
    | nil => simp [arriving, drain, hr]
    | cons a l => simp [arriving, drain, hr]
  have hsome : s.inside.length + s.rspReg.toList.length ≠ 0 →
      (xbarP s drain).toList.length = 1 := by
    intro hne
    unfold xbarP offered
    cases hreg : s.rspReg with
    | some a => rfl
    | none =>
      cases hi : s.inside with
      | nil => simp [hreg, hi] at hne
      | cons a l => rfl
  have hle : (xbarP s drain).toList.length ≤ 1 := by
    cases xbarP s drain <;> simp
  rw [hnext, harr]
  unfold pendingWork at h ⊢
  omega

/-- Any run that keeps the condition can be continued, without busy cycles, until nothing is left. -/
theorem exists_drained (xs : List (In p))
    (h : (machine p).Meets (fun s x => ¬ TakesWhileBusy s x) xs) :
    ∃ ys, (machine p).Meets (fun s x => ¬ TakesWhileBusy s x) (xs ++ ys) ∧
      pendingWork ((machine p).run (xs ++ ys)) = 0 ∧
      ((machine p).run (xs ++ ys)).accepted = ((machine p).run xs).accepted := by
  obtain ⟨k, hk⟩ := Machine.exists_drained (M := machine p) (x := drain) (μ := pendingWork)
    (fun _ h0 => pendingWork_drain h0) xs
  exact ⟨List.replicate k drain, h.append_replicate (fun _ => not_takesWhileBusy_drain) k, hk,
    Machine.run_append_replicate (M := machine p) State.accepted (fun _ => accepted_drain) xs k⟩

theorem ExactlyOnce.delivered_of_drained (I : ExactlyOnce s) (h : pendingWork s = 0) :
    s.delivered.Perm (List.range s.accepted.length) := by
  unfold pendingWork at h
  have hi : s.inside = [] := List.length_eq_zero_iff.mp (by omega)
  have hr : s.rspReg.toList = [] := List.length_eq_zero_iff.mp (by omega)
  have hret : s.returning = [] := List.length_eq_zero_iff.mp (by omega)
  have hc := I.conserved
  have ht := I.returned
  rw [hi, hr, List.nil_append, List.nil_append] at hc
  rw [hret, List.nil_append] at ht
  exact ht.symm.trans hc

/-- Responses to an accepted request leave by this port and end at the core port that issued it. -/
theorem response_route (q : RemoteReq p) (b : Nat) {r : TcdmRspChan} (hr : r.user = q.chan.user) :
    intercoRsp P p.tile p.xbar r.user = some (.remoteIn p.tile (flatPort p.xbar p.slot)) ∧
    ∀ d, Route.Delivers (rspHop P) (.bank p.tile p.xbar b, r) d ↔
      d = (.core q.chan.user.tileId q.chan.user.coreId p.xbar, r) := by
  have hR : 1 ≤ P.numRemotePort := Nat.lt_of_le_of_lt (Nat.zero_le _) p.slot_lt
  constructor
  · have hsel : Interco.genRspSel P p.tile r.user = P.numCores + p.slot := by
      rw [hr, Interco.genRspSel_remote q.tile_ne hR, q.slot_eq]
    have hslot := p.slot_lt
    simp only [intercoRsp, hsel]
    rw [if_neg (by omega), if_pos (by omega), Nat.add_sub_cancel_left]
  · exact Route.delivers_iff (rsp_delivered hR b q.tile_lt p.tile_lt q.core_lt p.xbar_lt
      (by rw [hr]) (by rw [hr]))

/-- **When every accepted remote request gets exactly one response.**  Over a run, every request
handshaken at the port stays at one place and is taken and delivered at most once exactly when the
group crossbar takes no response in a cycle in which the tile is busy.  Such a run can be continued
until every request's response has been delivered once; and a response leaves by the port its request
came through and ends at the issuing core port. -/
theorem one_response_iff {P : Params} (p : RemoteInPort P) (xs : List (In p)) :
    ((∀ pre post, xs = pre ++ post → ExactlyOnce ((machine p).run pre)) ↔
      (machine p).Meets (fun s x => ¬ TakesWhileBusy s x) xs) ∧
    ((machine p).Meets (fun s x => ¬ TakesWhileBusy s x) xs →
      ∃ ys, ((machine p).run (xs ++ ys)).accepted = ((machine p).run xs).accepted ∧
        ((machine p).run (xs ++ ys)).taken.Perm (List.range ((machine p).run xs).accepted.length) ∧
        ((machine p).run (xs ++ ys)).delivered.Perm
          (List.range ((machine p).run xs).accepted.length)) ∧
    ∀ q, q ∈ ((machine p).run xs).accepted → ∀ b (r : TcdmRspChan), r.user = q.chan.user →
      intercoRsp P p.tile p.xbar r.user = some (.remoteIn p.tile (flatPort p.xbar p.slot)) ∧
      ∀ d, Route.Delivers (rspHop P) (.bank p.tile p.xbar b, r) d ↔
        d = (.core q.chan.user.tileId q.chan.user.coreId p.xbar, r) := by
  refine ⟨⟨?_, ?_⟩, ?_, fun q _ b r hr => response_route q b hr⟩
  · intro h pre x post heq hbusy
    have I := h pre (x :: post) heq
    have J := h (pre ++ [x]) post (by simp [heq])
    have hrun : (machine p).run (pre ++ [x]) = next ((machine p).run pre) x :=
      Machine.run_concat _ pre x
    rw [hrun] at J
    have hload := load_next hbusy
    rw [I.load_eq, J.load_eq] at hload
    have hmono : ((machine p).run pre).accepted.length ≤
        (next ((machine p).run pre) x).accepted.length := by
      simp [next]
    omega
  · intro h pre post heq
    exact exactlyOnce_run pre (h.beginning heq)
  · intro h
    obtain ⟨ys, hmeets, hzero, hacc⟩ := exists_drained xs h
    have I := exactlyOnce_run (xs ++ ys) hmeets
    have hdel := I.delivered_of_drained hzero
    have htaken : ((machine p).run (xs ++ ys)).taken.Perm
        ((machine p).run (xs ++ ys)).delivered := by
      have hret : ((machine p).run (xs ++ ys)).returning = [] :=
        List.length_eq_zero_iff.mp (by unfold pendingWork at hzero; omega)
      have := I.returned
      rwa [hret, List.nil_append] at this
    rw [hacc] at hdel
    exact ⟨ys, hacc, htaken.trans hdel, hdel⟩

/-- Two tiles: tile 1 turns busy while the response to a request of tile 0 waits at its port and the
group crossbar is ready; the response is taken and delivered twice. -/
theorem response_taken_twice :
    let p : RemoteInPort ⟨2, 1, 1, 1⟩ := ⟨1, 0, 0, by decide, by decide, by decide⟩
    let q : RemoteReq p := ⟨⟨0, false, .AMONone, 0, 0, ⟨0, 0, false, 0, false⟩⟩, by decide, by decide,
      by decide, by decide⟩
    let xs : List (In p) := [⟨false, some q, true, none, true, none⟩,
      ⟨true, none, true, some 0, true, none⟩, ⟨false, none, true, none, true, some 0⟩,
      ⟨false, none, true, none, true, some 0⟩]
    ((machine p).run xs).accepted.length = 1 ∧ ((machine p).run xs).taken = [0, 0] ∧
      ((machine p).run xs).delivered = [0, 0] ∧ ¬ ExactlyOnce ((machine p).run xs) := by
  intro p q xs
  refine ⟨rfl, rfl, rfl, fun I => ?_⟩
  have hlen := I.load_eq
  revert hlen
  decide

end Port

end Flush

end CachePool
