import CachePool.Interco
import CachePool.Lib.Route

/-!
# Requests and responses between tiles (`cachepool_tile`, `cachepool_group`)

The wiring around the interconnects: the user tags a tile puts on a request, the flat remote ports
of a tile, and the port selections of the group crossbars.  `reqHop` and `rspHop` send a request or
a response one stage further; the configuration is the same in all tiles and does not change.

* `RoutesHome` — the configurations in which the tile sees the partition that the register asks for.
* `req_delivered` — where a request of core `c` of tile `S` ends.
* `rsp_delivered` — a response with the tags of that request ends at the core port it came from.
* `home_unique_and_round_trip_iff` — both together: one home for each shared address, no second
  forwarding, and the way back, exactly under `RoutesHome`.
-/

set_option autoImplicit false

namespace CachePool

/-- The class the partition gives an address: shared without private banks, private without shared
banks, and by the start address otherwise. -/
def effPrivate (numPrivate numCache : Nat) (start addr : BitVec 32) : Bool :=
  if numPrivate = 0 then false
  else if numPrivate = numCache then true
  else decide (start ≤ addr)

theorem effPrivate_of_all {numPrivate numCache : Nat} (h0 : numPrivate ≠ 0) (hN : numPrivate = numCache)
    (start addr : BitVec 32) : effPrivate numPrivate numCache start addr = true := by
  rw [effPrivate, if_neg h0, if_pos hN]

theorem effPrivate_of_mixed {numPrivate numCache : Nat} (h0 : numPrivate ≠ 0) (hN : numPrivate ≠ numCache)
    (start addr : BitVec 32) : effPrivate numPrivate numCache start addr = decide (start ≤ addr) := by
  rw [effPrivate, if_neg h0, if_neg hN]

/-- Behind the start address everything is private that can be. -/
theorem effPrivate_of_start_le {numPrivate numCache : Nat} {start addr : BitVec 32} (h0 : numPrivate ≠ 0)
    (h : start ≤ addr) : effPrivate numPrivate numCache start addr = true := by
  by_cases hN : numPrivate = numCache
  · exact effPrivate_of_all h0 hN start addr
  · rw [effPrivate_of_mixed h0 hN]
    exact decide_eq_true h

namespace Remote

open Interco

/-- Tile-side flat index of remote slot `r` of interconnect `j`. -/
def flatPort (j r : Nat) : Nat := j + r * nrTCDMPortsPerCore

/-- The places a request passes. -/
inductive ReqNode where
  /-- port `j` of core `c` of tile `t` -/
  | core (t c j : Nat)
  /-- input `p` of interconnect `j` of tile `t` -/
  | interco (t j p : Nat)
  /-- `remote_req_o[flat]` of tile `t` with its `remote_req_dst_o` -/
  | remoteOut (t flat dst : Nat)
  /-- input `s` of group crossbar `j` with its `slv_sel_i` -/
  | groupSlv (j s sel : Nat)
  /-- `remote_req_i[flat]` of tile `t` -/
  | remoteIn (t flat : Nat)
  /-- cache bank `b` behind interconnect `j` of tile `t` -/
  | bank (t j b : Nat)
  deriving DecidableEq, Repr

/-- The places a response passes; a tile's remote ports are named as for requests. -/
inductive RspNode where
  | bank (t j b : Nat)
  | remoteIn (t flat : Nat)
  | groupMst (j m sel : Nat)
  | remoteOut (t flat : Nat)
  | core (t c j : Nat)
  deriving DecidableEq, Repr

variable (P : Params) (cfg : PartCfg)

/-- `gen_tcdm_user` and the `user.tile_id` assignment of `cache_req`. -/
def tagUser (t c : Nat) (u : TcdmUser) : TcdmUser :=
  { u with coreId := c % 2 ^ P.coreIDWidth, tileId := t }

/-- `remote_out_sel_xbar` of tile `t` for target tile `dst`. -/
def remoteOutSelXbar (t dst : Nat) : Nat :=
  (dst * P.numRemotePort + t % P.numRemotePort) % 2 ^ P.remoteXbarSelWidth

/-- `remote_in_sel_xbar` of tile `t` for a response with these user fields. -/
def remoteInSelXbar (t : Nat) (u : TcdmUser) : Nat :=
  (u.tileId * P.numRemotePort + t % P.numRemotePort) % 2 ^ P.remoteXbarSelWidth

/-- One stage of a request. -/
def reqHop : ReqNode × TcdmReqChan → Option (ReqNode × TcdmReqChan)
  | (.core t c j, q) => some (.interco t j c, { q with user := tagUser P t c q.user })
  | (.interco t j _, q) =>
    let sel := (genReqSel P cfg t q.addr).coreReqSel
    if sel < P.numCache then
      some (.bank t j sel, { q with addr := genScramble P cfg sel q.addr })
    else if sel < P.numCache + P.numRemotePort then
      -- `tile_sel_o` is read off the address again, behind the crossbar
      some (.remoteOut t (flatPort j (sel - P.numCache)) (addrTile P cfg q.addr), q)
    else none
  | (.remoteOut t flat dst, q) =>
    some (.groupSlv (flat % nrTCDMPortsPerCore)
      (t * P.numRemotePort + flat / nrTCDMPortsPerCore) (remoteOutSelXbar P t dst), q)
  | (.groupSlv j _ sel, q) =>
    if sel < P.numTiles * P.numRemotePort then
      some (.remoteIn (sel / P.numRemotePort) (flatPort j (sel % P.numRemotePort)), q)
    else none
  | (.remoteIn t flat, q) =>
    some (.interco t (flat % nrTCDMPortsPerCore) (P.numCores + flat / nrTCDMPortsPerCore), q)
  | (.bank _ _ _, _) => none

/-- Where interconnect `j` of tile `t` returns a response: to a core or to a remote-in slot. -/
def intercoRsp (t j : Nat) (u : TcdmUser) : Option RspNode :=
  let p := genRspSel P t u
  if p < P.numCores then some (.core t p j)
  else if p < P.numCores + P.numRemotePort then some (.remoteIn t (flatPort j (p - P.numCores)))
  else none

/-- One stage of a response. -/
def rspHop : RspNode × TcdmRspChan → Option (RspNode × TcdmRspChan)
  | (.bank t j _, r) => (intercoRsp P t j r.user).map (·, r)
  | (.remoteIn t flat, r) =>
    some (.groupMst (flat % nrTCDMPortsPerCore)
      (t * P.numRemotePort + flat / nrTCDMPortsPerCore) (remoteInSelXbar P t r.user), r)
  | (.groupMst j _ sel, r) =>
    if sel < P.numTiles * P.numRemotePort then
      some (.remoteOut (sel / P.numRemotePort) (flatPort j (sel % P.numRemotePort)), r)
    else none
  | (.remoteOut t flat, r) => (intercoRsp P t (flat % nrTCDMPortsPerCore) r.user).map (·, r)
  | (.core _ _ _, _) => none

variable {P cfg}

/-! ## Port arithmetic -/

theorem flatPort_mod {j : Nat} (hj : j < nrTCDMPortsPerCore) (r : Nat) :
    flatPort j r % nrTCDMPortsPerCore = j := by
  rw [flatPort, Nat.add_mul_mod_self_right, Nat.mod_eq_of_lt hj]

theorem flatPort_div {j : Nat} (hj : j < nrTCDMPortsPerCore) (r : Nat) :
    flatPort j r / nrTCDMPortsPerCore = r := by
  rw [flatPort, Nat.add_mul_div_right _ _ (by decide), Nat.div_eq_of_lt hj, Nat.zero_add]

theorem xbarPort_lt {t r : Nat} (ht : t < P.numTiles) (hr : r < P.numRemotePort) :
    t * P.numRemotePort + r < P.numTiles * P.numRemotePort :=
  calc t * P.numRemotePort + r < (t + 1) * P.numRemotePort := by rw [Nat.succ_mul]; omega
    _ ≤ P.numTiles * P.numRemotePort := Nat.mul_le_mul_right _ ht

theorem xbarSel_eq {t r : Nat} (ht : t < P.numTiles) (hr : r < P.numRemotePort) :
    (t * P.numRemotePort + r) % 2 ^ P.remoteXbarSelWidth = t * P.numRemotePort + r :=
  Nat.mod_eq_of_lt (Nat.lt_of_lt_of_le (xbarPort_lt ht hr) (le_two_pow_clog2 _))

theorem xbarPort_div {t r : Nat} (hr : r < P.numRemotePort) :
    (t * P.numRemotePort + r) / P.numRemotePort = t := by
  rw [Nat.add_comm, Nat.add_mul_div_right _ _ (by omega), Nat.div_eq_of_lt hr, Nat.zero_add]

theorem xbarPort_mod {t r : Nat} (hr : r < P.numRemotePort) :
    (t * P.numRemotePort + r) % P.numRemotePort = r := by
  rw [Nat.add_comm, Nat.add_mul_mod_self_right, Nat.mod_eq_of_lt hr]

theorem tagUser_eq {c : Nat} (hc : c < P.numCores) (t : Nat) (u : TcdmUser) :
    tagUser P t c u = { u with coreId := c, tileId := t } := by
  have h := le_two_pow_clog2 P.numCores
  have hw : c < 2 ^ P.coreIDWidth := by
    unfold Params.coreIDWidth idxWidth
    split
    · omega
    · omega
  rw [tagUser, Nat.mod_eq_of_lt hw]

/-! ## Tiles and banks named by an address -/

theorem addrTile_lt (hT : ∃ m, P.numTiles = 2 ^ m) (h2 : 2 ≤ P.numTiles) (addr : BitVec 32) :
    addrTile P cfg addr < P.numTiles := by
  obtain ⟨m, hm⟩ := hT
  have hw : P.tileIDWidth = m := by
    rw [Params.tileIDWidth, idxWidth, if_pos (by omega), hm, clog2_two_pow]
  rw [addrTile, hw, hm]
  exact Nat.mod_lt _ (Nat.two_pow_pos _)

/-- Every value that the bank field of an address can take is the number of a bank. -/
def FieldNamesBank (P : Params) (cfg : PartCfg) : Prop :=
  2 ^ min P.cacheBankBits (32 - cfg.dynamicOffset.toNat) ≤ P.numCache

/-- The configurations in which requests end where the partition register says.  The tile takes three bits of
it: of a value from 8 on it must see some private banks, and not be misled by them.  Where it sees no
partition in the tile, the bank field is not folded and must name banks only. -/
def RoutesHome (P : Params) (cfg : PartCfg) : Prop :=
  if cfg.l1dPrivate.toNat = 0 then FieldNamesBank P cfg
  else if cfg.numPrivateCache = 0 then False
  else if cfg.numPrivateCache < P.numCache then
    cfg.l1dPrivate.toNat < P.numCache ∨ cfg.privateStartAddr = 0
  else FieldNamesBank P cfg

/-- The class that the partition register gives an address. -/
def effClass (P : Params) (cfg : PartCfg) (addr : BitVec 32) : Bool :=
  effPrivate cfg.l1dPrivate.toNat P.numCache cfg.privateStartAddr addr

theorem bankSel_unfolded (h : cfg.numPrivateCache = P.numCache ∨ P.numTiles = 1 ∨ cfg.numPrivateCache = 0)
    (addr : BitVec 32) : bankSel P cfg addr = addrBank P cfg addr := if_pos h

/-- Unfolded, the bank field leads to banks only if all its values name one. -/
theorem bankSel_lt_iff_of_unfolded
    (h : cfg.numPrivateCache = P.numCache ∨ P.numTiles = 1 ∨ cfg.numPrivateCache = 0) :
    (∀ addr, bankSel P cfg addr < P.numCache) ↔ FieldNamesBank P cfg := by
  simp only [bankSel_unfolded h]
  constructor
  · intro hlt
    by_contra hfield
    obtain ⟨addr, haddr⟩ : ∃ addr, addrBank P cfg addr = P.numCache :=
      exists_addrBank (Nat.lt_of_not_le hfield)
    exact Nat.lt_irrefl _ (haddr ▸ hlt addr)
  · exact fun hfield addr => Nat.lt_of_lt_of_le (addrBank_lt_field addr) hfield

/-- Folded, it always does. -/
theorem bankSel_lt_of_folded (hT : P.numTiles ≠ 1) (h0 : cfg.numPrivateCache ≠ 0)
    (hlt : cfg.numPrivateCache < P.numCache) (addr : BitVec 32) : bankSel P cfg addr < P.numCache := by
  unfold bankSel
  simp only
  rw [if_neg (by omega)]
  split
  · have := Nat.mod_lt (addrBank P cfg addr) (Nat.pos_of_ne_zero h0)
    omega
  · have := Nat.mod_lt (addrBank P cfg addr) (show P.numCache - cfg.numPrivateCache > 0 by omega)
    omega

theorem isPrivate_zero (hs : cfg.privateStartAddr ≠ 0) : isPrivate cfg 0#32 = false := by
  rw [isPrivate, decide_eq_false_iff_not]
  exact fun hz => hs (BitVec.le_zero_iff.mp hz)

theorem isPrivate_allOnes : isPrivate cfg (BitVec.allOnes 32) = true := by
  rw [isPrivate, decide_eq_true_eq, BitVec.le_def, BitVec.toNat_allOnes]
  exact Nat.le_pred_of_lt cfg.privateStartAddr.isLt

theorem effClass_of_zero (h0 : cfg.l1dPrivate.toNat = 0) (addr : BitVec 32) : effClass P cfg addr = false :=
  if_pos h0

theorem effClass_of_isPrivate (h0 : cfg.l1dPrivate.toNat ≠ 0) {addr : BitVec 32}
    (h : isPrivate cfg addr = true) : effClass P cfg addr = true :=
  effPrivate_of_start_le h0 (of_decide_eq_true h)

theorem effClass_of_all (h0 : cfg.l1dPrivate.toNat ≠ 0) (hN : cfg.l1dPrivate.toNat = P.numCache)
    (addr : BitVec 32) : effClass P cfg addr = true := effPrivate_of_all h0 hN _ addr

/-- What the tile keeps is private by the register, too. -/
theorem effClass_of_staysLocal (h2 : 2 ≤ P.numTiles) (hp : cfg.l1dPrivate.toNat ≤ P.numCache)
    (hN : 0 < P.numCache) {addr : BitVec 32} (h : staysLocal P cfg addr = true) :
    effClass P cfg addr = true := by
  have hle := cfg.numPrivateCache_le
  simp only [staysLocal, Bool.or_eq_true, Bool.and_eq_true, decide_eq_true_eq] at h
  rcases h with hall | ⟨h0, hpriv⟩
  · exact effClass_of_all (by omega) (by omega) addr
  · exact effClass_of_isPrivate (by omega) hpriv

/-- What `RoutesHome` is for: every request is sent to a bank, and stays in the tile if it is private. -/
theorem routesHome_iff (h2 : 2 ≤ P.numTiles) (hp : cfg.l1dPrivate.toNat ≤ P.numCache) :
    RoutesHome P cfg ↔ (∀ addr, bankSel P cfg addr < P.numCache) ∧
      ∀ addr, effClass P cfg addr = true → staysLocal P cfg addr = true := by
  have hle := cfg.numPrivateCache_le
  have hkeeps : ∀ addr, staysLocal P cfg addr = true ↔ cfg.numPrivateCache = P.numCache ∨
      (cfg.numPrivateCache ≠ 0 ∧ isPrivate cfg addr = true) := by
    intro addr
    simp [staysLocal, show P.numTiles ≠ 1 by omega]
  unfold RoutesHome
  split
  · rename_i h0
    rw [bankSel_lt_iff_of_unfolded (by omega), iff_self_and]
    intro _ addr hclass
    rw [effClass_of_zero h0] at hclass
    cases hclass
  · rename_i h0
    split
    · rename_i hnp
      refine iff_of_false id fun h => ?_
      have hkeep := (hkeeps _).mp (h.2 _ (effClass_of_isPrivate h0 isPrivate_allOnes))
      omega
    · rename_i hnp
      split
      · rename_i hlt
        rw [and_iff_right (bankSel_lt_of_folded (by omega) hnp hlt)]
        constructor
        · rintro hcond addr hclass
          refine (hkeeps addr).mpr (Or.inr ⟨hnp, ?_⟩)
          rcases hcond with hpN | hs
          · rw [effClass, effPrivate_of_mixed h0 (by omega)] at hclass
            exact hclass
          · rw [isPrivate, hs]
            exact decide_eq_true (Nat.zero_le addr.toNat)
        · intro h
          by_contra hcond
          rw [not_or] at hcond
          have hkeep := (hkeeps _).mp (h 0#32 (effClass_of_all h0 (by omega) _))
          rw [isPrivate_zero hcond.2] at hkeep
          rcases hkeep with hall | ⟨-, hpriv⟩
          · omega
          · cases hpriv
      · rename_i hge
        rw [bankSel_lt_iff_of_unfolded (by omega), iff_self_and]
        exact fun _ addr _ => (hkeeps addr).mpr (Or.inl (by omega))

/-! ## The way of a request -/

/-- The tile that serves an address for a request of tile `S`. -/
def homeTile (P : Params) (cfg : PartCfg) (S : Nat) (addr : BitVec 32) : Nat :=
  if staysLocal P cfg addr then S else addrTile P cfg addr

theorem genReqSel_homeTile (h : cfg.numPrivateCache ≤ P.numCache) (S : Nat) (addr : BitVec 32) :
    genReqSel P cfg (homeTile P cfg S addr) addr = ⟨true, bankSel P cfg addr⟩ := by
  rw [genReqSel_eq h, if_pos]
  unfold homeTile
  split
  · rename_i hs; exact Or.inl hs
  · exact Or.inr rfl

/-- An interconnect of the serving tile passes the request to the bank. -/
theorem reqHop_home (hC : ∀ addr, bankSel P cfg addr < P.numCache)
    (h : cfg.numPrivateCache ≤ P.numCache) (S j p : Nat) (q : TcdmReqChan) :
    reqHop P cfg (.interco (homeTile P cfg S q.addr) j p, q) =
      some (.bank (homeTile P cfg S q.addr) j (bankSel P cfg q.addr),
        { q with addr := genScramble P cfg (bankSel P cfg q.addr) q.addr }) := by
  simp only [reqHop, genReqSel_homeTile h, if_pos (hC q.addr)]

/-- **The end of a request's way.** -/
theorem req_delivered (hT : ∃ m, P.numTiles = 2 ^ m) (h2 : 2 ≤ P.numTiles)
    (hC : ∀ addr, bankSel P cfg addr < P.numCache) (hR : 1 ≤ P.numRemotePort)
    (h : cfg.numPrivateCache ≤ P.numCache) {S c j : Nat} (hj : j < nrTCDMPortsPerCore)
    (q : TcdmReqChan) :
    Route.Delivers (reqHop P cfg) (.core S c j, q)
      (.bank (homeTile P cfg S q.addr) j (bankSel P cfg q.addr),
        { q with addr := genScramble P cfg (bankSel P cfg q.addr) q.addr
                 user := tagUser P S c q.user }) := by
  set q' : TcdmReqChan := { q with user := tagUser P S c q.user } with hq'
  have haddr : q'.addr = q.addr := rfl
  have hend : ∀ p, Route.Delivers (reqHop P cfg) (.interco (homeTile P cfg S q.addr) j p, q')
      (.bank (homeTile P cfg S q.addr) j (bankSel P cfg q.addr),
        { q' with addr := genScramble P cfg (bankSel P cfg q.addr) q.addr }) := fun p =>
    Route.delivers_of_hop (by rw [← haddr]; exact reqHop_home hC h S j p q')
      (Route.delivers_self rfl)
  refine Route.delivers_of_hop (b := (.interco S j c, q')) rfl ?_
  by_cases hS : homeTile P cfg S q.addr = S
  · have := hend c
    rw [hS] at this
    rw [hS]
    exact this
  · -- the tile field names another tile: through remote slot `addrTile % R` and the group
    have hnl : ¬ (staysLocal P cfg q.addr = true ∨ addrTile P cfg q.addr = S) := by
      rintro (hl | hl)
      · exact hS (by rw [homeTile, if_pos hl])
      · refine hS ?_
        unfold homeTile
        split
        · rfl
        · exact hl
    have hdst : homeTile P cfg S q.addr = addrTile P cfg q.addr := by
      rw [homeTile, if_neg (fun hl => hnl (Or.inl hl))]
    have hlt : addrTile P cfg q.addr < P.numTiles := addrTile_lt hT h2 q.addr
    have hslot := Nat.mod_lt (addrTile P cfg q.addr) hR
    have hslotS := Nat.mod_lt S hR
    have hsel : (genReqSel P cfg S q.addr).coreReqSel =
        P.numCache + addrTile P cfg q.addr % P.numRemotePort := by
      rw [genReqSel_eq h, if_neg hnl, remoteSel_eq hR]
    refine Route.delivers_of_hop (b := (.remoteOut S
      (flatPort j (addrTile P cfg q.addr % P.numRemotePort)) (addrTile P cfg q.addr), q')) ?_ ?_
    · simp only [reqHop, haddr, hsel, if_neg (show ¬ P.numCache + addrTile P cfg q.addr %
        P.numRemotePort < P.numCache by omega), if_pos (show P.numCache + addrTile P cfg q.addr %
        P.numRemotePort < P.numCache + P.numRemotePort by omega), Nat.add_sub_cancel_left]
    refine Route.delivers_of_hop (b := (.groupSlv j
      (S * P.numRemotePort + addrTile P cfg q.addr % P.numRemotePort)
      (addrTile P cfg q.addr * P.numRemotePort + S % P.numRemotePort), q')) ?_ ?_
    · simp only [reqHop, flatPort_mod hj, flatPort_div hj, remoteOutSelXbar,
        xbarSel_eq hlt hslotS]
    refine Route.delivers_of_hop (b := (.remoteIn (addrTile P cfg q.addr)
      (flatPort j (S % P.numRemotePort)), q')) ?_ ?_
    · simp only [reqHop, if_pos (xbarPort_lt hlt hslotS), xbarPort_div hslotS,
        xbarPort_mod hslotS]
    refine Route.delivers_of_hop (b := (.interco (addrTile P cfg q.addr) j
      (P.numCores + S % P.numRemotePort), q')) ?_ ?_
    · simp only [reqHop, flatPort_mod hj, flatPort_div hj]
    have := hend (P.numCores + S % P.numRemotePort)
    rw [hdst] at this ⊢
    exact this

/-! ## The way of a response -/

theorem intercoRsp_home {S c : Nat} (j : Nat) {u : TcdmUser} (ht : u.tileId = S)
    (huc : u.coreId = c) (hc : c < P.numCores) : intercoRsp P S j u = some (.core S c j) := by
  have hp := genRspSel_home (P := P) ht (huc ▸ hc)
  unfold intercoRsp
  simp only [hp, huc, if_pos hc]

/-- **The end of a response's way**: core port `j` of the core and tile its user fields name. -/
theorem rsp_delivered (hR : 1 ≤ P.numRemotePort) {S c t j : Nat} (b : Nat)
    (hS : S < P.numTiles) (ht : t < P.numTiles) (hc : c < P.numCores)
    (hj : j < nrTCDMPortsPerCore) {r : TcdmRspChan} (hur : r.user.tileId = S)
    (hcr : r.user.coreId = c) :
    Route.Delivers (rspHop P) (.bank t j b, r) (.core S c j, r) := by
  by_cases hst : S = t
  · subst hst
    refine Route.delivers_of_hop (b := (.core S c j, r)) ?_ (Route.delivers_self rfl)
    simp only [rspHop, intercoRsp_home j hur hcr hc, Option.map_some]
  · have hslotS := Nat.mod_lt S hR
    have hslott := Nat.mod_lt t hR
    have hp : genRspSel P t r.user = P.numCores + S % P.numRemotePort := by
      rw [genRspSel_remote (by omega) hR, hur]
    refine Route.delivers_of_hop (b := (.remoteIn t (flatPort j (S % P.numRemotePort)), r)) ?_ ?_
    · simp only [rspHop, intercoRsp, hp, if_neg (show ¬ P.numCores + S % P.numRemotePort <
        P.numCores by omega), if_pos (show P.numCores + S % P.numRemotePort <
        P.numCores + P.numRemotePort by omega), Nat.add_sub_cancel_left, Option.map_some]
    refine Route.delivers_of_hop (b := (.groupMst j (t * P.numRemotePort + S % P.numRemotePort)
      (S * P.numRemotePort + t % P.numRemotePort), r)) ?_ ?_
    · simp only [rspHop, flatPort_mod hj, flatPort_div hj, remoteInSelXbar, hur,
        xbarSel_eq hS hslott]
    refine Route.delivers_of_hop (b := (.remoteOut S (flatPort j (t % P.numRemotePort)), r)) ?_ ?_
    · simp only [rspHop, if_pos (xbarPort_lt hS hslott), xbarPort_div hslott, xbarPort_mod hslott]
    refine Route.delivers_of_hop (b := (.core S c j, r)) ?_ (Route.delivers_self rfl)
    simp only [rspHop, flatPort_mod hj, intercoRsp_home j hur hcr hc, Option.map_some]

/-! ## One home, and the way back -/

/-- The tile, bank and in-bank address a request has arrived at. -/
def place : ReqNode × TcdmReqChan → Option (Nat × Nat × BitVec 32)
  | (.bank t _ b, q) => some (t, b, q.addr)
  | _ => none

/-- **Home uniqueness and round trip.**  Every request is delivered to exactly one bank, tagged with
its tile and core; the serving tile routes it as local; it is the issuing tile for an effectively
private address; and a response with the user fields of the delivered request is delivered to the
issuing core port and nowhere else.  For an effectively shared address the tile, bank and in-bank
address are the same whoever asks. -/
def HomeAndBack (P : Params) (cfg : PartCfg) : Prop :=
  (∀ S c j q, S < P.numTiles → c < P.numCores → j < nrTCDMPortsPerCore →
    ∃ t b q', t < P.numTiles ∧ b < P.numCache ∧
      (∀ d, Route.Delivers (reqHop P cfg) (.core S c j, q) d ↔ d = (.bank t j b, q')) ∧
      q' = { q with addr := genScramble P cfg b q.addr
                    user := { q.user with coreId := c, tileId := S } } ∧
      genReqSel P cfg t q.addr = ⟨true, b⟩ ∧
      (effClass P cfg q.addr = true → t = S) ∧
      ∀ r : TcdmRspChan, r.user = q'.user → ∀ d,
        Route.Delivers (rspHop P) (.bank t j b, r) d ↔ d = (.core S c j, r)) ∧
  ∀ S c j q S' c' j' q' d d', S < P.numTiles → S' < P.numTiles → j < nrTCDMPortsPerCore →
    j' < nrTCDMPortsPerCore → q.addr = q'.addr → effClass P cfg q.addr = false →
    Route.Delivers (reqHop P cfg) (.core S c j, q) d →
    Route.Delivers (reqHop P cfg) (.core S' c' j', q') d' → place d = place d'

theorem RoutesHome.homeAndBack (hC : RoutesHome P cfg) (hT : ∃ m, P.numTiles = 2 ^ m)
    (h2 : 2 ≤ P.numTiles) (hR : 1 ≤ P.numRemotePort) (hp : cfg.l1dPrivate.toNat ≤ P.numCache) :
    HomeAndBack P cfg := by
  obtain ⟨hbank, hlocal⟩ := (routesHome_iff h2 hp).mp hC
  have h : cfg.numPrivateCache ≤ P.numCache := cfg.numPrivateCache_le.trans hp
  have hpos : 0 < P.numCache := Nat.zero_lt_of_lt (hbank 0)
  constructor
  · intro S c j q hS hc hj
    have hd := req_delivered (c := c) (S := S) hT h2 hbank hR h hj q
    have htag := tagUser_eq hc S q.user
    have hhome : homeTile P cfg S q.addr < P.numTiles := by
      unfold homeTile
      split
      · exact hS
      · exact addrTile_lt hT h2 q.addr
    refine ⟨homeTile P cfg S q.addr, bankSel P cfg q.addr, _, hhome, hbank q.addr,
      Route.delivers_iff hd, by rw [htag], genReqSel_homeTile h S q.addr, ?_, ?_⟩
    · intro hclass
      rw [homeTile, if_pos (hlocal q.addr hclass)]
    · intro r hr
      refine Route.delivers_iff (rsp_delivered hR _ hS hhome hc hj ?_ ?_)
      · rw [hr, htag]
      · rw [hr, htag]
  · intro S c j q S' c' j' q' d d' _ _ hj hj' haddr hs hd hd'
    have hloc : staysLocal P cfg q.addr = false := by
      rw [← Bool.not_eq_true]
      intro hkeep
      rw [effClass_of_staysLocal h2 hp hpos hkeep] at hs
      cases hs
    rw [hd.unique (req_delivered hT h2 hbank hR h hj q),
      hd'.unique (req_delivered hT h2 hbank hR h hj' q')]
    simp [place, homeTile, ← haddr, hloc]

/-- **When requests find home and back.**  For every power of two of tiles, every number of banks and
remote ports, every offset, start address and number of private banks. -/
theorem home_unique_and_round_trip_iff (P : Params) (cfg : PartCfg) (hT : ∃ m, P.numTiles = 2 ^ m)
    (h2 : 2 ≤ P.numTiles) (hR : 1 ≤ P.numRemotePort) (hcores : 1 ≤ P.numCores)
    (hp : cfg.l1dPrivate.toNat ≤ P.numCache) : HomeAndBack P cfg ↔ RoutesHome P cfg := by
  refine ⟨fun hhome => (routesHome_iff h2 hp).mpr ?_, fun hC => hC.homeAndBack hT h2 hR hp⟩
  have h : cfg.numPrivateCache ≤ P.numCache := cfg.numPrivateCache_le.trans hp
  -- the bank that serves a load of core 0, and the tile if the address is private
  have hserved : ∀ (S : Nat) (addr : BitVec 32), S < P.numTiles → bankSel P cfg addr < P.numCache ∧
      (effClass P cfg addr = true → staysLocal P cfg addr = true ∨ addrTile P cfg addr = S) := by
    intro S addr hS
    obtain ⟨t, b, _, _, hb, _, _, hsel, hclass, _⟩ :=
      hhome.1 S 0 0 ⟨addr, false, .AMONone, 0, 0, ⟨0, 0, false, 0, false⟩⟩ hS hcores (by decide)
    have hsel : genReqSel P cfg t addr = ⟨true, b⟩ := hsel
    rw [genReqSel_eq h] at hsel
    split at hsel
    · rename_i hkeep
      obtain ⟨-, rfl⟩ := ReqSel.mk.inj hsel
      exact ⟨hb, fun hpriv => by rw [← hclass hpriv]; exact hkeep⟩
    · cases hsel
  refine ⟨fun addr => (hserved 0 addr (by omega)).1, fun addr hclass => ?_⟩
  rcases (hserved 0 addr (by omega)).2 hclass with hkeep | h0
  · exact hkeep
  · rcases (hserved 1 addr (by omega)).2 hclass with hkeep | h1
    · exact hkeep
    · omega

/-- Two tiles of eight banks, all of them private by the register, of which the tile sees none: what is
private to tile 0 is served by the other, which the address names. -/
theorem private_request_leaves_tile :
    let P : Params := ⟨2, 4, 8, 1⟩
    let cfg : PartCfg := ⟨14#5, 8#4, 0xA0000000#32⟩
    let q : TcdmReqChan := ⟨0x20000#32, false, .AMONone, 0, 0, ⟨0, 0, false, 0, false⟩⟩
    effClass P cfg q.addr = true ∧
      (∃ b q', Route.Delivers (reqHop P cfg) (.core 0 0 0, q) (.bank 1 0 b, q')) ∧ ¬ HomeAndBack P cfg := by
  intro P cfg q
  have hT : ∃ m, P.numTiles = 2 ^ m := ⟨1, rfl⟩
  have hnp : cfg.numPrivateCache = 0 := by decide
  have hfield : FieldNamesBank P cfg := by
    unfold FieldNamesBank
    decide
  have hbank := (bankSel_lt_iff_of_unfolded (Or.inr (Or.inr hnp))).mpr hfield
  have hd := @req_delivered P cfg hT (by decide) hbank (by decide) (by decide) 0 0 0 (by decide) q
  have hhome : homeTile P cfg 0 q.addr = 1 := by decide
  rw [hhome] at hd
  refine ⟨by decide, ⟨_, _, hd⟩, fun h => ?_⟩
  obtain ⟨t, b, q', _, _, hends, _, _, hclass, _⟩ := h.1 0 0 0 q (by decide) (by decide) (by decide)
  have ht := hclass (by decide)
  have hsame := (hends _).mp hd
  subst ht
  simp at hsame

/-- Four tiles of four banks, one of them private, two remote ports. -/
theorem home_unique_and_round_trip_four_tiles : HomeAndBack ⟨4, 4, 4, 2⟩ ⟨14#5, 1#4, 0xA0000000#32⟩ :=
  (home_unique_and_round_trip_iff ⟨4, 4, 4, 2⟩ ⟨14#5, 1#4, 0xA0000000#32⟩ ⟨2, by decide⟩ (by decide)
    (by decide) (by decide) (by decide)).mpr (Or.inl (by decide))

end Remote

end CachePool
