import CachePool.Remote
import CachePool.Lib.FifoNet

/-!
# The order of a core port's requests (`tcdm_cache_interco`, `reqrsp_xbar`, `cachepool_group`)

The request side of all tiles and of the group as one network, under one configuration that does not
change.  Its lanes are the input registers of the tile interconnects and the crossbars, a crossbar having one
for each pair of an input and an output.
`stream_xbar` and `spill_register` are not part of the sources: all that is used of them is
`FifoNet.KeepsOrder`, that a lane gives its requests out in the order they entered it.  When a lane gives
one out, which output serves which input, and how long a full or busy tile holds a request back, is left
open.

* `ends_on_route` — a request that reaches a bank port has gone the way of `Remote.reqHop`.
* `sameLanes_of_addr` — requests of one core port to one address pass the same lanes.
* `point_to_point_order` — and reach one bank port, in the order they were issued in.
-/

set_option autoImplicit false

namespace CachePool

namespace ReqNet

open Interco Remote

/-- A request put on port `port` of core `core` of tile `tile`. -/
structure CoreReq where
  tile : Nat
  core : Nat
  port : Nat
  q : TcdmReqChan
  deriving DecidableEq

inductive Lane where
  /-- `i_tcdm_req_reg` at input `p` of interconnect `j` of tile `t` -/
  | coreReqReg (t j p : Nat)
  /-- the request crossbar of that interconnect, from input `p` to output `sel` -/
  | cacheXbar (t j p sel : Nat)
  /-- group crossbar `j` with its input registers, from input `s` to output `sel`; the register holds
  `sel` beside the request (`reg_data_t`) -/
  | remoteXbar (j s sel : Nat)
  deriving DecidableEq, Repr

/-- The request port of cache bank `bank` behind interconnect `interco`. -/
structure BankPort where
  tile : Nat
  interco : Nat
  bank : Nat
  deriving DecidableEq, Repr

variable (P : Params) (cfg : PartCfg)

/-- A request enters the register of its core's input, tagged with its tile and core. -/
def enter (r : CoreReq) : Lane × TcdmReqChan :=
  (.coreReqReg r.tile r.port r.core, { r.q with user := tagUser P r.tile r.core r.q.user })

/-- The wires behind a lane, up to the next lane or the bank port. -/
def pass : Lane → TcdmReqChan → Option ((Lane × TcdmReqChan) ⊕ (BankPort × TcdmReqChan))
  | .coreReqReg t j p, q =>
    -- `core_req_sel` is computed behind the register; an output that does not exist takes nothing
    let sel := (genReqSel P cfg t q.addr).coreReqSel
    if sel < P.numCache + P.numRemotePort then some (.inl (.cacheXbar t j p sel, q)) else none
  | .cacheXbar t j _ sel, q =>
    if sel < P.numCache then
      some (.inr (⟨t, j, sel⟩, { q with addr := genScramble P cfg sel q.addr }))
    else
      let flat := flatPort j (sel - P.numCache)
      some (.inl (.remoteXbar (flat % nrTCDMPortsPerCore)
        (t * P.numRemotePort + flat / nrTCDMPortsPerCore)
        (remoteOutSelXbar P t (addrTile P cfg q.addr)), q))
  | .remoteXbar j _ sel, q =>
    if sel < P.numTiles * P.numRemotePort then
      let flat := flatPort j (sel % P.numRemotePort)
      some (.inl (.coreReqReg (sel / P.numRemotePort) (flat % nrTCDMPortsPerCore)
        (P.numCores + flat / nrTCDMPortsPerCore), q))
    else none

def reqNet : FifoNet.Net CoreReq Lane TcdmReqChan (BankPort × TcdmReqChan) where
  enter := enter P
  pass := pass P cfg

variable {P cfg}

/-! ## The way of a request -/

/-- The place of `ReqNode` a request in a lane is at. -/
def Lane.node : Lane → ReqNode
  | .coreReqReg t j p => .interco t j p
  | .cacheXbar t j p _ => .interco t j p
  | .remoteXbar j s sel => .groupSlv j s sel

def BankPort.node (b : BankPort) : ReqNode := .bank b.tile b.interco b.bank

/-- A crossbar lane holds requests to its output. -/
def Lane.Selected (P : Params) (cfg : PartCfg) : Lane → TcdmReqChan → Prop
  | .cacheXbar t _ _ sel, q =>
    sel = (genReqSel P cfg t q.addr).coreReqSel ∧ sel < P.numCache + P.numRemotePort
  | _, _ => True

abbrev OnRoute (P : Params) (cfg : PartCfg) :=
  Relation.ReflTransGen fun x y => reqHop P cfg x = some y

/-- The wires behind a lane follow the route. -/
theorem pass_on_route {l l' : Lane} {q q' : TcdmReqChan} (hsel : l.Selected P cfg q)
    (h : pass P cfg l q = some (.inl (l', q'))) :
    OnRoute P cfg (l.node, q) (l'.node, q') ∧ l'.Selected P cfg q' := by
  cases l with
  | coreReqReg t j p =>
    simp only [pass] at h
    split at h
    · rename_i hlt
      cases h
      exact ⟨Relation.ReflTransGen.refl, rfl, hlt⟩
    · cases h
  | cacheXbar t j p sel =>
    obtain ⟨hs, hlt⟩ := hsel
    simp only [pass] at h
    split at h
    · cases h
    · rename_i hremote
      cases h
      refine ⟨Relation.ReflTransGen.head (b := (.remoteOut t (flatPort j (sel - P.numCache))
        (addrTile P cfg q.addr), q)) ?_ (Relation.ReflTransGen.single rfl), trivial⟩
      simp only [Lane.node, reqHop, ← hs, if_neg hremote, if_pos hlt]
  | remoteXbar j s sel =>
    simp only [pass] at h
    split at h
    · rename_i hlt
      cases h
      refine ⟨Relation.ReflTransGen.head (b := (.remoteIn (sel / P.numRemotePort)
        (flatPort j (sel % P.numRemotePort)), q)) ?_ (Relation.ReflTransGen.single rfl), trivial⟩
      simp only [Lane.node, reqHop, if_pos hlt]
    · cases h

theorem pass_bank {l : Lane} {q q' : TcdmReqChan} {b : BankPort} (hsel : l.Selected P cfg q)
    (h : pass P cfg l q = some (.inr (b, q'))) :
    reqHop P cfg (l.node, q) = some (b.node, q') := by
  cases l with
  | coreReqReg t j p =>
    simp only [pass] at h
    split at h
    · cases h
    · cases h
  | cacheXbar t j p sel =>
    obtain ⟨hs, -⟩ := hsel
    simp only [pass] at h
    split at h
    · rename_i hlt
      cases h
      simp only [Lane.node, BankPort.node, reqHop, ← hs, if_pos hlt]
    · cases h
  | remoteXbar j s sel =>
    simp only [pass] at h
    split at h
    · cases h
    · cases h

def CoreReq.node (r : CoreReq) : ReqNode := .core r.tile r.core r.port

theorem lane_on_route (r : CoreReq) (n : Nat) {l : Lane} {q : TcdmReqChan}
    (h : (reqNet P cfg).after r n = some (.inl (l, q))) :
    OnRoute P cfg (r.node, r.q) (l.node, q) ∧ l.Selected P cfg q := by
  induction n generalizing l q with
  | zero =>
    cases h
    exact ⟨Relation.ReflTransGen.single rfl, trivial⟩
  | succ n ih =>
    simp only [FifoNet.Net.after] at h
    split at h
    · rename_i l₁ q₁ hn
      obtain ⟨hroute, hsel⟩ := ih hn
      obtain ⟨hstep, hsel'⟩ := pass_on_route hsel h
      exact ⟨hroute.trans hstep, hsel'⟩
    · cases h

/-- **A request that reaches a bank port has gone the way of `reqHop`.** -/
theorem ends_on_route (r : CoreReq) {n : Nat} {b : BankPort} {q : TcdmReqChan}
    (h : (reqNet P cfg).after r n = some (.inr (b, q))) :
    Route.Delivers (reqHop P cfg) (r.node, r.q) (b.node, q) := by
  cases n with
  | zero => cases h
  | succ n =>
    simp only [FifoNet.Net.after] at h
    split at h
    · rename_i l q₁ hn
      obtain ⟨hroute, hsel⟩ := lane_on_route r n hn
      exact ⟨hroute.tail (pass_bank hsel h), rfl⟩
    · cases h

/-! ## Requests to one address -/

/-- The same lane and address, the same bank port, or both nowhere. -/
inductive Alike : Option ((Lane × TcdmReqChan) ⊕ (BankPort × TcdmReqChan)) →
    Option ((Lane × TcdmReqChan) ⊕ (BankPort × TcdmReqChan)) → Prop
  | lane (l : Lane) {q q' : TcdmReqChan} (addr : q.addr = q'.addr) :
      Alike (some (.inl (l, q))) (some (.inl (l, q')))
  | bank (b : BankPort) (q q' : TcdmReqChan) : Alike (some (.inr (b, q))) (some (.inr (b, q')))
  | none : Alike none none

/-- Where a request goes next is decided by its lane and its address. -/
theorem pass_alike (l : Lane) {q q' : TcdmReqChan} (haddr : q.addr = q'.addr) :
    Alike (pass P cfg l q) (pass P cfg l q') := by
  cases l with
  | coreReqReg t j p =>
    simp only [pass, haddr]
    split
    · exact .lane _ haddr
    · exact .none
  | cacheXbar t j p sel =>
    simp only [pass, haddr]
    split
    · exact .bank _ _ _
    · exact .lane _ haddr
  | remoteXbar j s sel =>
    simp only [pass]
    split
    · exact .lane _ haddr
    · exact .none

theorem after_alike {r r' : CoreReq} (htile : r.tile = r'.tile) (hcore : r.core = r'.core)
    (hport : r.port = r'.port) (haddr : r.q.addr = r'.q.addr) (n : Nat) :
    Alike ((reqNet P cfg).after r n) ((reqNet P cfg).after r' n) := by
  induction n with
  | zero =>
    simp only [FifoNet.Net.after, reqNet, enter, htile, hcore, hport]
    exact .lane _ haddr
  | succ n ih =>
    simp only [FifoNet.Net.after]
    generalize (reqNet P cfg).after r n = o at ih
    generalize (reqNet P cfg).after r' n = o' at ih
    cases ih with
    | lane l hq => exact pass_alike l hq
    | bank b q q' => exact .none
    | none => exact .none

/-- **Requests of one core port to one address pass the same lanes.** -/
theorem sameLanes_of_addr {r r' : CoreReq} (htile : r.tile = r'.tile) (hcore : r.core = r'.core)
    (hport : r.port = r'.port) (haddr : r.q.addr = r'.q.addr) :
    (reqNet P cfg).SameLanes r r' := by
  intro n
  have h : Alike ((reqNet P cfg).after r n) ((reqNet P cfg).after r' n) :=
    after_alike htile hcore hport haddr n
  unfold FifoNet.Net.laneAfter
  generalize (reqNet P cfg).after r n = o at h
  generalize (reqNet P cfg).after r' n = o' at h
  cases h with
  | lane l hq => rfl
  | bank b q q' => rfl
  | none => rfl

theorem sameBank_of_addr {r r' : CoreReq} (htile : r.tile = r'.tile) (hcore : r.core = r'.core)
    (hport : r.port = r'.port) (haddr : r.q.addr = r'.q.addr) {n n' : Nat} {a a' : BankPort × TcdmReqChan}
    (h : (reqNet P cfg).after r n = some (.inr a)) (h' : (reqNet P cfg).after r' n' = some (.inr a')) :
    a.1 = a'.1 := by
  have halike : Alike ((reqNet P cfg).after r n) ((reqNet P cfg).after r' n) :=
    after_alike htile hcore hport haddr n
  rw [h] at halike
  generalize ho : (reqNet P cfg).after r' n = o' at halike
  cases halike with
  | bank b q q' =>
    obtain rfl := FifoNet.Net.arrived_unique ho h'
    rw [ho] at h'
    cases h'
    rfl

/-! ## Point-to-point order -/

/-- The request comes from port `j` of core `c` of tile `t` and is to `addr`. -/
def CoreReq.IsFrom (t c j : Nat) (addr : BitVec 32) (r : CoreReq) : Prop :=
  r.tile = t ∧ r.core = c ∧ r.port = j ∧ r.q.addr = addr

instance (t c j : Nat) (addr : BitVec 32) : DecidablePred (CoreReq.IsFrom t c j addr) :=
  fun _ => instDecidableAnd

/-- **Point-to-point order.**  The requests of one core port to one address have one bank port.  In every
run whose registers and crossbars keep order, the ones that have reached it are the first that were issued,
in the order they were issued in, and each is the request that `reqHop` delivers there. -/
theorem point_to_point_order (P : Params) (cfg : PartCfg) (t c j : Nat) (addr : BitVec 32) :
    ∃ b : BankPort, ∀ xs, (reqNet P cfg).machine.Meets FifoNet.KeepsOrder xs →
      let s := (reqNet P cfg).machine.run xs
      ((s.arrived.filter fun a => a.1.item.IsFrom t c j addr).map Prod.fst <+:
        s.issued.filter fun e => e.item.IsFrom t c j addr) ∧
      ∀ a ∈ s.arrived, a.1.item.IsFrom t c j addr →
        a.2.1 = b ∧ Route.Delivers (reqHop P cfg) (.core t c j, a.1.item.q) (b.node, a.2.2) := by
  -- the bank port is that of any request which gets there
  obtain ⟨b, hb⟩ : ∃ b : BankPort, ∀ r : CoreReq, r.IsFrom t c j addr → ∀ n a,
      (reqNet P cfg).after r n = some (.inr a) → a.1 = b := by
    by_cases hex : ∃ r : CoreReq, r.IsFrom t c j addr ∧ ∃ n a,
        (reqNet P cfg).after r n = some (.inr a)
    · obtain ⟨r, ⟨ht, hc, hj, haddr⟩, n, a, ha⟩ := hex
      refine ⟨a.1, ?_⟩
      rintro r' ⟨ht', hc', hj', haddr'⟩ n' a' ha'
      exact sameBank_of_addr (ht'.trans ht.symm) (hc'.trans hc.symm) (hj'.trans hj.symm)
        (haddr'.trans haddr.symm) ha' ha
    · refine ⟨⟨0, 0, 0⟩, ?_⟩
      intro r hr n a ha
      exact absurd ⟨r, hr, n, a, ha⟩ hex
  refine ⟨b, fun xs hxs => ⟨?_, ?_⟩⟩
  · apply FifoNet.in_order (CoreReq.IsFrom t c j addr) ?_ hxs
    rintro r r' ⟨ht, hc, hj, haddr⟩ ⟨ht', hc', hj', haddr'⟩
    exact sameLanes_of_addr (ht.trans ht'.symm) (hc.trans hc'.symm) (hj.trans hj'.symm)
      (haddr.trans haddr'.symm)
  · intro a ha hfrom
    obtain ⟨n, hn⟩ := ((FifoNet.Inv.run hxs).ended a ha).2
    have hbank := hb _ hfrom n _ hn
    obtain ⟨rfl, rfl, rfl, -⟩ := hfrom
    refine ⟨hbank, ?_⟩
    rw [← hbank]
    exact ends_on_route a.1.item hn

/-- A store and a load of core port 0 of tile 0 to one address of tile 1, and a request of another core
that passes both. -/
def storeThenLoad : List (FifoNet.Act CoreReq Lane) :=
  let q : TcdmReqChan := ⟨0x80010000#32, true, .AMONone, 7#32, 15#4, ⟨0, 0, false, 0, false⟩⟩
  [.issue ⟨0, 0, 0, q⟩, .issue ⟨0, 0, 0, { q with write := false }⟩, .issue ⟨0, 1, 0, q⟩,
    .leave (.coreReqReg 0 0 0) 0, .leave (.coreReqReg 0 0 1) 0, .leave (.cacheXbar 0 0 1 5) 0,
    .leave (.cacheXbar 0 0 0 5) 0, .leave (.coreReqReg 0 0 0) 1, .leave (.cacheXbar 0 0 0 5) 1,
    .leave (.remoteXbar 0 1 2) 0, .leave (.remoteXbar 0 1 2) 1, .leave (.coreReqReg 1 0 4) 0,
    .leave (.remoteXbar 0 1 2) 2, .leave (.coreReqReg 1 0 4) 1, .leave (.coreReqReg 1 0 4) 2,
    .leave (.cacheXbar 1 0 4 1) 0, .leave (.cacheXbar 1 0 4 1) 1, .leave (.cacheXbar 1 0 4 1) 2]

/-- Four tiles of four banks, one of them private, two remote ports. -/
theorem point_to_point_order_store_then_load :
    let N := reqNet ⟨4, 4, 4, 2⟩ ⟨14#5, 1#4, 0xA0000000#32⟩
    let s := N.machine.run storeThenLoad
    s.arrived.map (fun a => (a.1.stamp, a.2.1)) =
      [(2, ⟨1, 0, 1⟩), (0, ⟨1, 0, 1⟩), (1, ⟨1, 0, 1⟩)] ∧
    ((s.arrived.filter fun a => a.1.item.IsFrom 0 0 0 0x80010000#32).map Prod.fst <+:
      s.issued.filter fun e => e.item.IsFrom 0 0 0 0x80010000#32) := by
  obtain ⟨b, hb⟩ := point_to_point_order ⟨4, 4, 4, 2⟩ ⟨14#5, 1#4, 0xA0000000#32⟩ 0 0 0 0x80010000#32
  obtain ⟨horder, -⟩ := hb storeThenLoad (by decide +kernel)
  exact ⟨by decide +kernel, horder⟩

end ReqNet

end CachePool
