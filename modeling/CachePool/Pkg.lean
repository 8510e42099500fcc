import Mathlib.Data.Nat.Log
import Mathlib.Tactic

/-!
# Parameters and channel types (`cachepool_pkg`)

* `Params` — the topology parameters of one cluster: number of tiles, cores per tile, cache banks
  per tile and remote ports per core port, with the widths derived from them.
* `TcdmUser`, `TcdmReqChan`, `TcdmRspChan` — the narrow (32-bit) TCDM channels, `AmoOp` their
  atomic operation codes.

Parameters are plain naturals; a width cast `W'(x)` is written `x % 2 ^ W`.
-/

set_option autoImplicit false

namespace CachePool

/-- `$clog2`. -/
abbrev clog2 (n : Nat) : Nat := Nat.clog 2 n

/-- `cf_math_pkg::idx_width`. -/
def idxWidth (n : Nat) : Nat := if 1 < n then clog2 n else 1

theorem clog2_two_pow (k : Nat) : clog2 (2 ^ k) = k := Nat.clog_pow 2 k (by omega)

theorem le_two_pow_clog2 (n : Nat) : n ≤ 2 ^ clog2 n := Nat.le_pow_clog (by omega) n

/-- `NrTCDMPortsPerCore`: four ports of the vector unit and one shared by Snitch and the FPU. -/
def nrTCDMPortsPerCore : Nat := 5

/-- The topology of a cluster: `NumTiles`, and for each tile `NumCoresTile`, `NumL1CtrlTile` and
`NumRemotePortCore` (the interconnect's `NumCores`, `NumCache` and `NumRemotePort`). -/
structure Params where
  numTiles : Nat
  numCores : Nat
  numCache : Nat
  numRemotePort : Nat
  deriving DecidableEq, Repr

namespace Params

variable (P : Params)

/-- `NumTotCache` (`NumL1CacheCtrl`). -/
def numTotCache : Nat := P.numTiles * P.numCache

def cacheBankBits : Nat := clog2 P.numCache

def tileBits : Nat := clog2 (P.numTotCache / P.numCache)

def tileIDWidth : Nat := idxWidth P.numTiles

def coreIDWidth : Nat := idxWidth P.numCores

/-- Width of `num_private_cache_q` and `num_shared_cache_q`: `[$clog2(NumCache):0]`. -/
def privWidth : Nat := P.cacheBankBits + 1

def numOutSelBits : Nat := clog2 (P.numCache + P.numRemotePort)

def numInpSelBits : Nat := clog2 (P.numCores + P.numRemotePort)

def rotWidth : Nat := clog2 (P.cacheBankBits + P.tileBits + 1) + 1

def remoteXbarSelWidth : Nat := clog2 (P.numTiles * P.numRemotePort)

theorem numCache_le : P.numCache ≤ 2 ^ P.cacheBankBits := le_two_pow_clog2 _

theorem numCache_lt : P.numCache < 2 ^ P.privWidth := by
  have h := P.numCache_le
  have : 2 ^ P.privWidth = 2 * 2 ^ P.cacheBankBits := by rw [privWidth, Nat.pow_succ, Nat.mul_comm]
  have := Nat.two_pow_pos P.cacheBankBits
  omega

end Params

/-- `tcdm_user_t`. -/
structure TcdmUser where
  coreId : Nat
  tileId : Nat
  isAmo : Bool
  reqId : Nat
  isFpu : Bool
  deriving DecidableEq, Repr

/-- `reqrsp_pkg::amo_op_e`. -/
inductive AmoOp where
  | AMONone
  | AMOSwap
  | AMOAdd
  | AMOAnd
  | AMOOr
  | AMOXor
  | AMOMax
  | AMOMaxu
  | AMOMin
  | AMOMinu
  | AMOLR
  | AMOSC
  deriving DecidableEq, Repr

/-- `tcdm_req_chan_t`. -/
structure TcdmReqChan where
  addr : BitVec 32
  write : Bool
  amo : AmoOp
  data : BitVec 32
  strb : BitVec 4
  user : TcdmUser
  deriving DecidableEq, Repr

/-- `tcdm_rsp_chan_t`. -/
structure TcdmRspChan where
  data : BitVec 32
  write : Bool
  user : TcdmUser
  deriving DecidableEq, Repr

end CachePool
